import Mathlib.Data.List.Forall2
import OData.Proofs.Grammar.Run

/-!
# Comparing runs

One grammar may be run twice: on the tokens of a text and on those of the same text at
another place, under one limit and under another.  A `Comparison` says in which way the
two sides may differ.  Tokens are of the same kinds; their places correspond in some
way that joins respect; and the right side has at least as much room for brackets and
operators as the left.

Runs of the two sides agree (`Comparison.Agree`): if the left side reads a value, the
right side reads the same, and if the left side is refused then so is the right, at the
corresponding place.  A comparison may excuse some refusals of the left side, after
which nothing is said about the right.

The rules below build such agreements from parts, in the way grammars are put together;
the same rules serve every comparison.
-/
namespace OData.Grammar

/-- **In which way two runs of a grammar may differ.** -/
structure Comparison where
  /-- What the grammar is given on the left. -/
  left : Context
  /-- What the grammar is given on the right. -/
  right : Context
  /-- The places that correspond. -/
  place : Span → Span → Prop
  /-- The causes that correspond. -/
  cause : Cause → Cause → Prop
  /-- The causes of refusals on the left after which the right may do anything. -/
  excused : Cause → Prop
  /-- Neither side has more room for brackets than the other. -/
  even : Prop
  option : left.option = right.option
  parameters : left.settings.parameters = right.settings.parameters
  operators : left.settings.maxOperatorDepth ≤ right.settings.maxOperatorDepth
  join : ∀ {a b a' b'}, place a a' → place b b' → place (a.join b) (a'.join b')
  refl : ∀ {c : Cause}, c.earlier = none → cause c c
  tooDeep : excused (.tooDeep left.settings.maxDepth) ∨
    even ∧ cause (.tooDeep left.settings.maxDepth) (.tooDeep right.settings.maxDepth)
  tooManyOperators : excused (.tooManyOperators left.settings.maxOperatorDepth) ∨
    left.settings.maxOperatorDepth = right.settings.maxOperatorDepth

namespace Comparison
variable (W : Comparison) {α β γ δ : Type}

/-! ## Tokens and cursors -/

/-- **Tokens that correspond**, at least one.  A null and a string after it are adjacent on both
sides or on neither. -/
inductive Tokens : List Token → List Token → Prop
  | last {t t' : Token} : t.kind = t'.kind → W.place t.span t'.span → Tokens [t] [t']
  | cons {t u t' u' : Token} {r r' : List Token} :
      t.kind = t'.kind → W.place t.span t'.span →
      (t.kind = .word "null" → ∀ hint, u.kind = .string hint →
        (u.span.start = t.span.stop ↔ u'.span.start = t'.span.stop)) →
      Tokens (u :: r) (u' :: r') → Tokens (t :: u :: r) (t' :: u' :: r')

/-- **Cursors that correspond.** -/
structure Cursors (c c' : Cursor) : Prop where
  before : List.Forall₂ (fun t t' => W.place t.span t'.span) c.before c'.before
  rest : W.Tokens c.rest c'.rest

/-- **States that correspond.**  The right has as much room as the left. -/
structure States (s s' : State) : Prop where
  cursor : W.Cursors s.cursor s'.cursor
  operators : s.operators = s'.operators
  room : s'.depth + W.left.settings.maxDepth ≤ s.depth + W.right.settings.maxDepth
  even : W.even →
    s'.depth + W.left.settings.maxDepth = s.depth + W.right.settings.maxDepth

section Tokens
variable {W} {ts ts' : List Token} {c c' : Cursor}

theorem Tokens.kinds (h : W.Tokens ts ts') : ts.map Token.kind = ts'.map Token.kind := by
  induction h with
  | last hk _ => simp [hk]
  | cons hk _ _ _ ih => rw [List.map_cons, ih, hk, ← List.map_cons]

theorem Tokens.length (h : W.Tokens ts ts') : ts.length = ts'.length := by
  simpa using congrArg List.length h.kinds

namespace Cursors

theorem current (h : W.Cursors c c') :
    c.current.kind = c'.current.kind ∧ W.place c.current.span c'.current.span := by
  obtain ⟨before, rest⟩ := c
  obtain ⟨before', rest'⟩ := c'
  obtain ⟨-, h⟩ := h
  cases h with
  | last hk hp => exact ⟨hk, hp⟩
  | cons hk hp _ _ => exact ⟨hk, hp⟩

theorem previousSpan (h : W.Cursors c c') : W.place c.previousSpan c'.previousSpan := by
  have hcurrent := h.current.2
  obtain ⟨before, rest⟩ := c
  obtain ⟨before', rest'⟩ := c'
  obtain ⟨hb, -⟩ := h
  cases hb with
  | nil => exact hcurrent
  | cons hp _ => exact hp

/-- The kind of a token ahead depends on kinds only. -/
theorem ahead (h : W.Cursors c c') (n : Nat) : (c.ahead n).kind = (c'.ahead n).kind := by
  have hkind : ∀ c : Cursor, (c.ahead n).kind =
      (match (c.rest.map Token.kind)[n]? with
      | some k => k
      | none => (c.rest.map Token.kind).getLast?.getD Token.nothing.kind) := by
    intro c
    rw [List.getElem?_map, List.getLast?_map, Cursor.ahead]
    cases c.rest[n]? with
    | some t => rfl
    | none => cases c.rest.getLast? <;> rfl
  rw [hkind, hkind, h.rest.kinds]

theorem advance (h : W.Cursors c c') : W.Cursors c.advance c'.advance := by
  obtain ⟨before, rest⟩ := c
  obtain ⟨before', rest'⟩ := c'
  obtain ⟨hb, hr⟩ := h
  cases hr with
  | last hk hp => exact ⟨hb, .last hk hp⟩
  | cons _ hp _ hr => exact ⟨.cons hp hb, hr⟩

theorem isAt (h : W.Cursors c c') (k : Kind) : c.isAt k = c'.isAt k := by
  rw [Cursor.isAt, Cursor.isAt, h.current.1]

theorem isAtWord (h : W.Cursors c c') (w : String) : c.isAtWord w = c'.isAtWord w := by
  rw [Cursor.isAtWord, Cursor.isAtWord, h.current.1]

end Cursors

end Tokens

/-! ## Outcomes -/

/-- Stops that correspond. -/
def Stops : Stop → Stop → Prop
  | .refused f, .refused f' => W.cause f.cause f'.cause ∧ W.place f.span f'.span
  | .exhausted, .exhausted => True
  | .overdrawn, .overdrawn => True
  | _, _ => False

/-- A stop of the left side after which the right may do anything. -/
def Excuses : Stop → Prop
  | .refused f => W.excused f.cause
  | _ => False

/-- **Outcomes that correspond**, of runs from two states.  Whatever happens, the brackets that
were entered are left. -/
inductive Outcomes (r : α → β → Prop) (s s' : State) :
    EStateM.Result Stop State α → EStateM.Result Stop State β → Prop
  | ok {a : α} {b : β} {t t' : State} :
      r a b → W.States t t' → t.depth = s.depth → t'.depth = s'.depth →
      Outcomes r s s' (.ok a t) (.ok b t')
  | error {e e' : Stop} {t t' : State} :
      W.Stops e e' → t.depth = s.depth → t'.depth = s'.depth →
      Outcomes r s s' (.error e t) (.error e' t')
  | excused {e : Stop} {t : State} (o : EStateM.Result Stop State β) :
      W.Excuses e → t.depth = s.depth → Outcomes r s s' (.error e t) o

/-- **Two grammars agree**: from states that correspond they come to outcomes that do. -/
def Agree (r : α → β → Prop) (p : Parse α) (p' : Parse β) : Prop :=
  ∀ ⦃s s' : State⦄, W.States s s' → W.Outcomes r s s' (p s) (p' s')


namespace Agree
variable {W} {r : α → β → Prop} {q : γ → δ → Prop} {p : Parse α} {p' : Parse β}

/-! ## Sequences -/

theorem pure {a : α} {b : β} (h : r a b) : W.Agree r (Pure.pure a) (Pure.pure b) :=
  fun _ _ hs => .ok h hs rfl rfl

theorem throw {e e' : Stop} (h : W.Stops e e') :
    W.Agree r (MonadExcept.throw e : Parse α) (MonadExcept.throw e' : Parse β) :=
  fun _ _ _ => .error h rfl rfl

theorem mono {r' : α → β → Prop} (h : W.Agree r p p') (hr : ∀ a b, r a b → r' a b) :
    W.Agree r' p p' := by
  intro s s' hs
  have ho := h hs
  generalize p s = x at ho
  generalize p' s' = y at ho
  cases ho with
  | ok hab ht hd hd' => exact .ok (hr _ _ hab) ht hd hd'
  | error he hd hd' => exact .error he hd hd'
  | excused _ he hd => exact .excused _ he hd

theorem bind {f : α → Parse γ} {f' : β → Parse δ} (hp : W.Agree r p p')
    (hf : ∀ a b, r a b → W.Agree q (f a) (f' b)) : W.Agree q (p >>= f) (p' >>= f') := by
  intro s s' hs
  have ho := hp hs
  generalize hx : p s = x at ho
  generalize hy : p' s' = y at ho
  cases ho with
  | error he hd hd' =>
    rw [bind_of_error hx, bind_of_error hy]
    exact .error he hd hd'
  | excused _ he hd =>
    rw [bind_of_error hx]
    exact .excused _ he hd
  | @ok a b t t' hab ht hd hd' =>
    have hrest := hf a b hab ht
    rw [bind_of_ok hx, bind_of_ok hy]
    generalize f a t = x at hrest
    generalize f' b t' = y at hrest
    cases hrest with
    | ok hcd hu he he' => exact .ok hcd hu (he.trans hd) (he'.trans hd')
    | error hstop he he' => exact .error hstop (he.trans hd) (he'.trans hd')
    | excused _ hstop he => exact .excused _ hstop (he.trans hd)

/-- What is done with a value that both sides read. -/
theorem bind_eq {p : Parse α} {p' : Parse α} {f : α → Parse γ} {f' : α → Parse δ}
    (hp : W.Agree Eq p p') (hf : ∀ a, W.Agree q (f a) (f' a)) :
    W.Agree q (p >>= f) (p' >>= f') :=
  hp.bind fun a _ hab => hab ▸ hf a

theorem ite {c : Prop} [Decidable c] {p₁ p₂ : Parse α} {p₁' p₂' : Parse β}
    (h₁ : c → W.Agree r p₁ p₁') (h₂ : ¬ c → W.Agree r p₂ p₂') :
    W.Agree r (if c then p₁ else p₂) (if c then p₁' else p₂') := by
  by_cases hc : c
  · rw [if_pos hc, if_pos hc]
    exact h₁ hc
  · rw [if_neg hc, if_neg hc]
    exact h₂ hc

/-! ### Refusals -/

theorem refuse {c : Cause} {a a' : Span} (hc : c.earlier = none) (ha : W.place a a') :
    W.Agree r (Grammar.refuse c a : Parse α) (Grammar.refuse c a' : Parse β) :=
  throw ⟨W.refl hc, ha⟩

theorem refuseHere {c : Cause} (hc : c.earlier = none) :
    W.Agree r (Grammar.refuseHere c : Parse α) (Grammar.refuseHere c : Parse β) :=
  fun _ _ hs => .error ⟨W.refl hc, hs.cursor.current.2⟩ rfl rfl

theorem wants {c c' : Cursor} (h : W.Cursors c c') (what : String) :
    W.Stops (.refused (c.wants what)) (.refused (c'.wants what)) := by
  have hcause : (c.wants what).cause = (c'.wants what).cause := by
    rw [Cursor.wants, Cursor.wants, h.current.1]
  refine ⟨?_, h.current.2⟩
  rw [← hcause]
  exact W.refl rfl

theorem refuseFor (what : String) :
    W.Agree r (Grammar.refuseFor what : Parse α) (Grammar.refuseFor what : Parse β) :=
  fun _ _ hs => .error (wants hs.cursor what) rfl rfl

/-! ### Looking without moving -/

theorem cursor : W.Agree W.Cursors Grammar.cursor Grammar.cursor :=
  fun _ _ hs => .ok hs.cursor hs rfl rfl

theorem current :
    W.Agree (fun t t' => t.kind = t'.kind ∧ W.place t.span t'.span) Grammar.current
      Grammar.current :=
  fun _ _ hs => .ok hs.cursor.current hs rfl rfl

theorem here : W.Agree W.place Grammar.here Grammar.here :=
  fun _ _ hs => .ok hs.cursor.current.2 hs rfl rfl

theorem previousSpan : W.Agree W.place Grammar.previousSpan Grammar.previousSpan :=
  fun _ _ hs => .ok hs.cursor.previousSpan hs rfl rfl

theorem currentWord? : W.Agree Eq Grammar.currentWord? Grammar.currentWord? :=
  fun _ _ hs => .ok (congrArg Kind.word? hs.cursor.current.1) hs rfl rfl

theorem isAt (k : Kind) : W.Agree Eq (Grammar.isAt k) (Grammar.isAt k) :=
  fun _ _ hs => .ok (hs.cursor.isAt k) hs rfl rfl

theorem isAtWord (w : String) : W.Agree Eq (Grammar.isAtWord w) (Grammar.isAtWord w) :=
  fun _ _ hs => .ok (hs.cursor.isAtWord w) hs rfl rfl

theorem rounds : W.Agree Eq Grammar.rounds Grammar.rounds :=
  fun _ _ hs => .ok (congrArg (· + 1) hs.cursor.rest.length) hs rfl rfl

/-! ### Moving -/

theorem advanced {s s' : State} (h : W.States s s') : W.States s.advanced s'.advanced :=
  { h with cursor := h.cursor.advance }

theorem advance : W.Agree Eq Grammar.advance Grammar.advance :=
  fun _ _ hs => .ok rfl (advanced hs) rfl rfl

theorem consume (k : Kind) : W.Agree Eq (Grammar.consume k) (Grammar.consume k) := by
  intro s s' hs
  rw [consume_apply, consume_apply, ← hs.cursor.isAt k]
  split
  · exact .ok rfl (advanced hs) rfl rfl
  · exact .ok rfl hs rfl rfl

theorem consumeWord (w : String) :
    W.Agree Eq (Grammar.consumeWord w) (Grammar.consumeWord w) := by
  intro s s' hs
  rw [consumeWord_apply, consumeWord_apply, ← hs.cursor.isAtWord w]
  split
  · exact .ok rfl (advanced hs) rfl rfl
  · exact .ok rfl hs rfl rfl

theorem expect (k : Kind) : W.Agree W.place (Grammar.expect k) (Grammar.expect k) := by
  intro s s' hs
  rw [expect_apply, expect_apply, ← hs.cursor.isAt k]
  split
  · exact .ok hs.cursor.current.2 (advanced hs) rfl rfl
  · exact .error (wants hs.cursor _) rfl rfl

theorem expectWord (what : String) :
    W.Agree (fun a b => a.value = b.value ∧ W.place a.span b.span) (Grammar.expectWord what)
      (Grammar.expectWord what) := by
  intro s s' hs
  rw [expectWord_apply, expectWord_apply, ← hs.cursor.current.1]
  split
  · exact .ok ⟨rfl, hs.cursor.current.2⟩ (advanced hs) rfl rfl
  · exact .error (wants hs.cursor what) rfl rfl

/-! ### Counts -/

theorem nested (h : W.Agree r p p') :
    W.Agree r (Grammar.nested W.left p) (Grammar.nested W.right p') := by
  intro s s' hs
  rw [nested_apply, nested_apply]
  by_cases hd : s.depth < W.left.settings.maxDepth
  · have hroom := hs.room
    have hd' : s'.depth < W.right.settings.maxDepth := by omega
    have hdeeper : W.States s.deeper s'.deeper := by
      refine { hs with room := ?_, even := fun he => ?_ }
      · simp only [State.deeper]
        omega
      · have := hs.even he
        simp only [State.deeper]
        omega
    -- Inside the depths are one more on both sides; outside they are what they were.
    have ho := h hdeeper
    rw [if_pos hd, if_pos hd']
    generalize p s.deeper = x at ho
    generalize p' s'.deeper = y at ho
    cases ho with
    | ok hab ht htd htd' =>
      simp only [leave, State.outside_of_depth htd, State.outside_of_depth htd']
      exact .ok hab ⟨ht.cursor, ht.operators, hroom, hs.even⟩ rfl rfl
    | error he htd htd' =>
      simp only [leave, State.outside_of_depth htd, State.outside_of_depth htd']
      exact .error he rfl rfl
    | excused _ he htd =>
      simp only [leave, State.outside_of_depth htd]
      exact .excused _ he rfl
  · rw [if_neg hd]
    -- Too deep on the left is excused, or the depths are even and it is too deep on the right.
    rcases W.tooDeep with he | ⟨he, hc⟩
    · exact .excused _ he rfl
    · have hroom := hs.even he
      rw [if_neg (by omega)]
      exact .error ⟨hc, hs.cursor.current.2⟩ rfl rfl

theorem charge : W.Agree Eq (Grammar.charge W.left) (Grammar.charge W.right) := by
  intro s s' hs
  have hoperators := W.operators
  have hsame := hs.operators
  rw [charge_apply, charge_apply]
  by_cases ho : s.operators < W.left.settings.maxOperatorDepth
  · rw [if_pos ho, if_pos (by omega)]
    refine .ok rfl { hs with operators := ?_ } rfl rfl
    simp only [State.charged]
    omega
  · rw [if_neg ho]
    -- The same for operators, whose counts are always equal.
    rcases W.tooManyOperators with he | he
    · exact .excused _ he rfl
    · rw [if_neg (by omega), ← he]
      exact .error ⟨W.refl rfl, hs.cursor.current.2⟩ rfl rfl

theorem release (n : Nat) : W.Agree Eq (Grammar.release n) (Grammar.release n) := by
  intro s s' hs
  rw [release_apply, release_apply, ← hs.operators]
  split
  · exact .ok rfl { hs with operators := rfl } rfl rfl
  · exact .error trivial rfl rfl

/-! ### Repetition -/

theorem following {sep : Kind} (h : W.Agree r p p') (n : Nat) :
    W.Agree (List.Forall₂ r) (Grammar.following sep p n) (Grammar.following sep p' n) := by
  induction n with
  | zero => exact throw trivial
  | succ n ih =>
    refine (consume sep).bind_eq fun found => ite (fun _ => ?_) fun _ => pure .nil
    exact h.bind fun a b hab => ih.bind fun as bs hrest => pure (.cons hab hrest)

theorem separated (sep : Kind) (h : W.Agree r p p') :
    W.Agree (List.Forall₂ r) (Grammar.separated sep p) (Grammar.separated sep p') :=
  h.bind fun _ _ hab => rounds.bind_eq fun n => (h.following n).bind fun _ _ hrest =>
    pure (.cons hab hrest)

theorem complete (h : W.Agree r p p') : W.Agree r (Grammar.complete p) (Grammar.complete p') :=
  h.bind fun _ _ hab => (expect .eof).bind fun _ _ _ => pure hab

/-- Lists of equal items are equal. -/
theorem list {p p' : Parse (List α)} (h : W.Agree (List.Forall₂ Eq) p p') : W.Agree Eq p p' :=
  h.mono fun _ _ hab => List.forall₂_eq_eq_eq ▸ hab

end Agree

end Comparison

end OData.Grammar
