import OData.Grammar.Literal

/-!
# Running a grammar

A grammar is a function of its state, and what is proved about one is proved about
its runs.  This module opens the runs of everything that grammars are put together
from, so that no later proof has to unfold the monad or a move of the cursor.

Two views of a run are used throughout.

* **From a result back** (`bind_eq_ok`, `of_expect`, …): a successful run of a
  sequence is successful runs of its parts, and a part that takes a token leaves
  the cursor after it.
* **From the tokens on** (`bind_of_ok`, `expect_of_rest`, …): what stands at the
  cursor says what the run does.

Both speak of the state `State.past w`, which is the state after the tokens `w`
with the two counts as they were, and of `Ends`, the property of every token list
that comes out of a text: its last token, and only that, is the end of the text.
-/
namespace OData.Grammar
variable {α β : Type}

/-! ## Sequences -/

theorem bind_eq_ok {p : Parse α} {f : α → Parse β} {s u : State} {b : β} :
    (p >>= f) s = .ok b u ↔ ∃ a t, p s = .ok a t ∧ f a t = .ok b u := by
  show EStateM.bind p f s = .ok b u ↔ _
  unfold EStateM.bind
  constructor
  · intro h
    cases hp : p s with
    | ok a t => exact ⟨a, t, rfl, by simpa only [hp] using h⟩
    | error e t => simp only [hp] at h; cases h
  · rintro ⟨a, t, hp, hf⟩
    simp only [hp, hf]

theorem bind_of_ok {p : Parse α} {f : α → Parse β} {s t : State} {a : α} (h : p s = .ok a t) :
    (p >>= f) s = f a t := by
  show EStateM.bind p f s = _
  simp only [EStateM.bind, h]

theorem bind_of_error {p : Parse α} {f : α → Parse β} {s t : State} {e : Stop}
    (h : p s = .error e t) : (p >>= f) s = .error e t := by
  show EStateM.bind p f s = _
  simp only [EStateM.bind, h]

@[simp] theorem pure_apply (a : α) (s : State) : (pure a : Parse α) s = .ok a s := rfl

@[simp] theorem throw_apply (e : Stop) (s : State) : (throw e : Parse α) s = .error e s := rfl

@[simp] theorem refuse_apply (c : Cause) (p : Span) (s : State) :
    (refuse c p : Parse α) s = .error (.refused ⟨c, p⟩) s := rfl

@[simp] theorem refuseHere_apply (c : Cause) (s : State) :
    (refuseHere c : Parse α) s = .error (.refused ⟨c, s.cursor.current.span⟩) s := rfl

@[simp] theorem refuseFor_apply (w : String) (s : State) :
    (refuseFor w : Parse α) s = .error (.refused (s.cursor.wants w)) s := rfl

/-! ### Looking without moving -/

section Looking
variable (s : State)

@[simp] theorem get_bind (f : State → Parse α) : (get >>= f) s = f s s := rfl

@[simp] theorem cursor_bind (f : Cursor → Parse α) : (cursor >>= f) s = f s.cursor s := rfl

@[simp] theorem current_bind (f : Token → Parse α) :
    (current >>= f) s = f s.cursor.current s := rfl

@[simp] theorem here_bind (f : Span → Parse α) : (here >>= f) s = f s.cursor.current.span s := rfl

@[simp] theorem previousSpan_bind (f : Span → Parse α) :
    (previousSpan >>= f) s = f s.cursor.previousSpan s := rfl

@[simp] theorem currentWord?_bind (f : Option String → Parse α) :
    (currentWord? >>= f) s = f s.cursor.current.kind.word? s := rfl

@[simp] theorem isAt_bind (k : Kind) (f : Bool → Parse α) :
    (isAt k >>= f) s = f (s.cursor.isAt k) s := rfl

@[simp] theorem isAtWord_bind (w : String) (f : Bool → Parse α) :
    (isAtWord w >>= f) s = f (s.cursor.isAtWord w) s := rfl

@[simp] theorem rounds_bind (f : Nat → Parse α) :
    (rounds >>= f) s = f (s.cursor.rest.length + 1) s := rfl

end Looking

/-! ### Moving -/

/-- The state with the cursor moved past the token at it. -/
def State.advanced (s : State) : State := { s with cursor := s.cursor.advance }

theorem advance_apply (s : State) : advance s = .ok () s.advanced := rfl

theorem consume_apply (k : Kind) (s : State) :
    consume k s = if s.cursor.isAt k then .ok true s.advanced else .ok false s := by
  rw [consume, reading, Reading.consume_apply]
  cases s.cursor.isAt k <;> rfl

theorem consumeWord_apply (w : String) (s : State) :
    consumeWord w s = if s.cursor.isAtWord w then .ok true s.advanced else .ok false s := by
  rw [consumeWord, reading, Reading.consumeWord_apply]
  cases s.cursor.isAtWord w <;> rfl

theorem expect_apply (k : Kind) (s : State) :
    expect k s = if s.cursor.isAt k then .ok s.cursor.current.span s.advanced
      else .error (.refused (s.cursor.wants k.describe)) s := by
  rw [expect, reading, Reading.expect_apply]
  cases s.cursor.isAt k <;> rfl

theorem expectWord_apply (what : String) (s : State) :
    expectWord what s =
      match s.cursor.current.kind.word? with
      | some w => .ok ⟨w, s.cursor.current.span⟩ s.advanced
      | none => .error (.refused (s.cursor.wants what)) s := by
  rw [expectWord, reading, Reading.expectWord_apply]
  cases s.cursor.current.kind.word? <;> rfl

/-- **A null is read as a whole**, since what it is hangs on the places of two tokens. -/
theorem nullLiteral_apply (s : State) :
    nullLiteral s =
      match s.advanced.cursor.current.kind with
      | .string hint =>
        if s.advanced.cursor.current.span.start = s.cursor.current.span.stop then
          .ok (.null (some hint)) s.advanced.advanced
        else .ok (.null none) s.advanced
      | _ => .ok (.null none) s.advanced := by
  rw [nullLiteral, here_bind, bind_of_ok (advance_apply s), current_bind]
  cases s.advanced.cursor.current.kind with
  | string hint =>
    simp only
    split <;> rfl
  | _ => rfl

/-! ### Counts -/

/-- The state one bracket deeper. -/
def State.deeper (s : State) : State := { s with depth := s.depth + 1 }

/-- The state with `n` more operators counted. -/
def State.charged (s : State) (n : Nat) : State := { s with operators := s.operators + n }

theorem enter_apply (ctx : Context) (s : State) :
    enter ctx s = if s.depth < ctx.settings.maxDepth then .ok () s.deeper
      else .error (.refused ⟨.tooDeep ctx.settings.maxDepth, s.cursor.current.span⟩) s := by
  have h : enter ctx s =
      (if s.depth < ctx.settings.maxDepth then _ else _ : Parse Unit) s := rfl
  rw [h]
  split <;> rfl

/-- A state in a bracket has an outside. -/
theorem State.outside_of_depth {t : State} {d : Nat} (h : t.depth = d + 1) :
    t.outside = some { t with depth := d } := by
  unfold State.outside
  rw [h]

/-- The state outside of the bracket after a run of its inside. -/
def leave {α : Type} : EStateM.Result Stop State α → EStateM.Result Stop State α
  | .ok a t =>
    match t.outside with
    | some u => .ok a u
    | none => .error .overdrawn t
  | .error e t =>
    match t.outside with
    | some u => .error e u
    | none => .error .overdrawn t

theorem nested_apply (ctx : Context) (inside : Parse α) (s : State) :
    nested ctx inside s =
      if s.depth < ctx.settings.maxDepth then leave (inside s.deeper)
      else .error (.refused ⟨.tooDeep ctx.settings.maxDepth, s.cursor.current.span⟩) s := by
  unfold nested
  by_cases hd : s.depth < ctx.settings.maxDepth
  · have henter : enter ctx s = .ok () s.deeper := by rw [enter_apply, if_pos hd]
    rw [if_pos hd]
    refine (bind_of_ok henter).trans ?_
    cases inside s.deeper <;> rfl
  · have henter := enter_apply ctx s
    rw [if_neg hd] at henter ⊢
    exact bind_of_error henter

theorem charge_apply (ctx : Context) (s : State) :
    charge ctx s = if s.operators < ctx.settings.maxOperatorDepth then .ok () (s.charged 1)
      else .error
        (.refused ⟨.tooManyOperators ctx.settings.maxOperatorDepth, s.cursor.current.span⟩) s := by
  have h : charge ctx s =
      (if s.operators < ctx.settings.maxOperatorDepth then _ else _ : Parse Unit) s := rfl
  rw [h]
  split <;> rfl

theorem release_apply (n : Nat) (s : State) :
    release n s = if n ≤ s.operators then .ok () { s with operators := s.operators - n }
      else .error .overdrawn s := by
  have h : release n s = (if n ≤ s.operators then _ else _ : Parse Unit) s := rfl
  rw [h]
  split <;> rfl

/-- What has been charged can be released. -/
theorem release_charged (n : Nat) (s : State) : release n (s.charged n) = .ok () s := by
  rw [release_apply, if_pos (by simp [State.charged])]
  simp [State.charged]

/-! ## The end of the tokens -/

/-- **A token list as it comes out of a text**: its last token, and only that, is the end
of the text. -/
def Ends (ts : List Token) : Prop :=
  ∃ body stop, ts = body ++ [stop] ∧ stop.kind = .eof ∧ ∀ t ∈ body, t.kind ≠ .eof

namespace Ends

theorem ne_nil {ts : List Token} (h : Ends ts) : ts ≠ [] := by
  obtain ⟨body, stop, rfl, -⟩ := h
  simp

/-- Before the end of the text there is always a token more, and what follows ends too. -/
theorem tail {t : Token} {ts : List Token} (h : Ends (t :: ts)) (ht : t.kind ≠ .eof) :
    Ends ts := by
  obtain ⟨body, stop, he, hs, hb⟩ := h
  cases body with
  | nil =>
    obtain ⟨rfl, -⟩ : t = stop ∧ ts = [] := by simpa using he
    exact absurd hs ht
  | cons b body =>
    obtain ⟨rfl, rfl⟩ : t = b ∧ ts = body ++ [stop] := by simpa using he
    exact ⟨body, stop, rfl, hs, fun x hx => hb x (List.mem_cons_of_mem _ hx)⟩

/-- At the end of the text nothing else is left. -/
theorem eq_nil {t : Token} {ts : List Token} (h : Ends (t :: ts)) (ht : t.kind = .eof) :
    ts = [] := by
  obtain ⟨body, stop, he, -, hb⟩ := h
  cases body with
  | nil => simpa using (List.cons.inj he).2
  | cons b body =>
    obtain ⟨rfl, -⟩ := List.cons.inj he
    exact absurd ht (hb t (List.mem_cons_self ..))

end Ends

/-! ## The state after some tokens -/

/-- The state after the next tokens `w`, with the counts as they are. -/
def State.past (s : State) (w : List Token) : State :=
  { s with cursor := ⟨w.reverse ++ s.cursor.before, s.cursor.rest.drop w.length⟩ }

namespace State
variable (s : State) (v w : List Token)

@[simp] theorem past_nil : s.past [] = s := rfl

@[simp] theorem past_past : (s.past v).past w = s.past (v ++ w) := by
  simp [past, List.drop_drop]

@[simp] theorem past_depth : (s.past w).depth = s.depth := rfl

@[simp] theorem past_operators : (s.past w).operators = s.operators := rfl

theorem past_rest {s : State} {w r : List Token} (h : s.cursor.rest = w ++ r) :
    (s.past w).cursor.rest = r := by
  simp [past, h]

theorem deeper_past : s.deeper.past w = (s.past w).deeper := rfl

theorem charged_past (n : Nat) : (s.charged n).past w = (s.past w).charged n := rfl

theorem charged_charged (m n : Nat) : (s.charged m).charged n = s.charged (m + n) := by
  simp [charged, Nat.add_assoc]

theorem outside_deeper : s.deeper.outside = some s := rfl

end State

theorem kind_of_word? {k : Kind} {w : String} (h : k.word? = some w) : k = .word w := by
  cases k <;> simp_all [Kind.word?]

theorem current_of_rest {c : Cursor} {t : Token} {r : List Token} (h : c.rest = t :: r) :
    c.current = t := by
  simp [Cursor.current, h]

theorem advanced_of_rest {s : State} {t : Token} {r : List Token} (h : s.cursor.rest = t :: r)
    (hr : r ≠ []) : s.advanced = s.past [t] := by
  cases r with
  | nil => exact absurd rfl hr
  | cons u r => simp [State.advanced, State.past, Cursor.advance, h]

/-! ### From the tokens on -/

section Forward
variable {s : State} {r : List Token} {k : Kind} {p : Span}

theorem advance_of_rest {t : Token} (h : s.cursor.rest = t :: r) (hr : r ≠ []) :
    advance s = .ok () (s.past [t]) := by
  rw [advance_apply, advanced_of_rest h hr]

theorem consume_of_rest (h : s.cursor.rest = ⟨k, p⟩ :: r) (hr : r ≠ []) :
    consume k s = .ok true (s.past [⟨k, p⟩]) := by
  rw [consume_apply, if_pos (by simp [Cursor.isAt, current_of_rest h]), advanced_of_rest h hr]

theorem consume_of_ne (hk : s.cursor.current.kind ≠ k) : consume k s = .ok false s := by
  rw [consume_apply, if_neg (by simpa [Cursor.isAt] using hk)]

theorem isAtWord_eq_true {c : Cursor} {w : String} :
    c.isAtWord w = true ↔ c.current.kind = .word w := by
  unfold Cursor.isAtWord
  cases c.current.kind <;> simp [Kind.word?]

theorem consumeWord_of_rest {w : String} (h : s.cursor.rest = ⟨.word w, p⟩ :: r) (hr : r ≠ []) :
    consumeWord w s = .ok true (s.past [⟨.word w, p⟩]) := by
  rw [consumeWord_apply, if_pos (isAtWord_eq_true.2 (by rw [current_of_rest h])),
    advanced_of_rest h hr]

theorem consumeWord_of_ne {w : String} (hk : s.cursor.current.kind ≠ .word w) :
    consumeWord w s = .ok false s := by
  rw [consumeWord_apply, if_neg (fun h => hk (isAtWord_eq_true.1 h))]

theorem expect_of_rest (h : s.cursor.rest = ⟨k, p⟩ :: r) (hr : r ≠ []) :
    expect k s = .ok p (s.past [⟨k, p⟩]) := by
  rw [expect_apply, if_pos (by simp [Cursor.isAt, current_of_rest h]), current_of_rest h,
    advanced_of_rest h hr]

theorem expectWord_of_rest {w what : String} (h : s.cursor.rest = ⟨.word w, p⟩ :: r)
    (hr : r ≠ []) : expectWord what s = .ok ⟨w, p⟩ (s.past [⟨.word w, p⟩]) := by
  rw [expectWord_apply, current_of_rest h, advanced_of_rest h hr]
  rfl

theorem nested_of_ok {ctx : Context} {inside : Parse α} {a : α} {w : List Token}
    (hd : s.depth < ctx.settings.maxDepth) (h : inside s.deeper = .ok a (s.deeper.past w)) :
    nested ctx inside s = .ok a (s.past w) := by
  have he : enter ctx s = .ok () s.deeper := by rw [enter_apply, if_pos hd]
  refine (bind_of_ok he).trans ?_
  simp only [h]
  rfl

theorem charge_of_lt {ctx : Context} (ho : s.operators < ctx.settings.maxOperatorDepth) :
    charge ctx s = .ok () (s.charged 1) := by
  rw [charge_apply, if_pos ho]

end Forward

/-! ### From a result back -/

/-- **A run takes the tokens** `w`: they are the next ones, they are all that it moves past, the
counts are what they were, and the end of the text is still ahead. -/
structure State.Takes (s : State) (w : List Token) (t : State) : Prop where
  rest : s.cursor.rest = w ++ t.cursor.rest
  eq_past : t = s.past w
  ends : Ends t.cursor.rest

namespace State.Takes
variable {s t u : State} {v w : List Token}

theorem refl (h : Ends s.cursor.rest) : s.Takes [] s := ⟨rfl, rfl, h⟩

theorem trans (h : s.Takes v t) (h' : t.Takes w u) : s.Takes (v ++ w) u where
  rest := by rw [h.rest, h'.rest, List.append_assoc]
  eq_past := by rw [h'.eq_past, h.eq_past, State.past_past]
  ends := h'.ends

theorem cons {x : Token} (h : s.Takes [x] t) (h' : t.Takes w u) : s.Takes (x :: w) u :=
  h.trans h'

/-- Operators that are counted before are counted after. -/
theorem charged (h : s.Takes w t) (n : Nat) : (s.charged n).Takes w (t.charged n) :=
  ⟨h.rest, by rw [h.eq_past, State.charged_past], h.ends⟩

theorem advanced {k : Kind} (hs : Ends s.cursor.rest) (hk : s.cursor.current.kind = k)
    (hne : k ≠ .eof) : s.Takes [⟨k, s.cursor.current.span⟩] s.advanced := by
  subst hk
  cases hr : s.cursor.rest with
  | nil => exact absurd hr hs.ne_nil
  | cons x r =>
    rw [current_of_rest hr] at hne ⊢
    rw [hr] at hs
    have hn := hs.tail hne
    rw [advanced_of_rest hr hn.ne_nil]
    exact ⟨by rw [State.past_rest (w := [x]) hr]; exact hr, rfl,
      by rw [State.past_rest (w := [x]) hr]; exact hn⟩

/-- After one token, what was the next one ahead is at the cursor. -/
theorem current_eq {x : Token} (h : s.Takes [x] t) : t.cursor.current = s.cursor.ahead 1 := by
  obtain ⟨y, r, hr⟩ := List.exists_cons_of_ne_nil h.ends.ne_nil
  rw [current_of_rest hr, Cursor.ahead, h.rest, hr]
  rfl

end State.Takes

section Backward
variable {s t : State} {k : Kind}

theorem of_advance {u : Unit} (h : advance s = .ok u t) : t = s.advanced := by
  rw [advance_apply] at h
  cases h
  rfl

theorem of_consume {b : Bool} (hs : Ends s.cursor.rest) (hk : k ≠ .eof)
    (h : consume k s = .ok b t) :
    (b = true ∧ ∃ p, s.Takes [⟨k, p⟩] t) ∨
      (b = false ∧ t = s ∧ s.cursor.current.kind ≠ k) := by
  rw [consume_apply] at h
  split at h
  · next hat =>
    cases h
    have hc : s.cursor.current.kind = k := by simpa [Cursor.isAt] using hat
    exact .inl ⟨rfl, _, State.Takes.advanced hs hc hk⟩
  · next hat =>
    cases h
    exact .inr ⟨rfl, rfl, by simpa [Cursor.isAt] using hat⟩

theorem of_consumeWord {b : Bool} {w : String} (hs : Ends s.cursor.rest)
    (h : consumeWord w s = .ok b t) :
    (b = true ∧ ∃ p, s.Takes [⟨.word w, p⟩] t) ∨
      (b = false ∧ t = s ∧ s.cursor.current.kind ≠ .word w) := by
  rw [consumeWord_apply] at h
  split at h
  · next hat =>
    cases h
    exact .inl ⟨rfl, _, State.Takes.advanced hs (isAtWord_eq_true.1 hat) (by simp)⟩
  · next hat =>
    cases h
    exact .inr ⟨rfl, rfl, fun hc => hat (isAtWord_eq_true.2 hc)⟩

theorem of_expect {p : Span} (hs : Ends s.cursor.rest) (hk : k ≠ .eof)
    (h : expect k s = .ok p t) : s.Takes [⟨k, p⟩] t := by
  rw [expect_apply] at h
  split at h
  · next hat =>
    cases h
    exact State.Takes.advanced hs (by simpa [Cursor.isAt] using hat) hk
  · cases h

theorem of_expectWord {what : String} {a : Spanned String} (hs : Ends s.cursor.rest)
    (h : expectWord what s = .ok a t) : s.Takes [⟨.word a.value, a.span⟩] t := by
  rw [expectWord_apply] at h
  split at h
  · next w hw =>
    cases h
    have hc : s.cursor.current.kind = .word w := by
      cases hk : s.cursor.current.kind <;> simp [hk, Kind.word?] at hw
      simp [hw]
    exact State.Takes.advanced hs hc (by simp)
  · cases h

/-- A bracket that is read has its inside read one level deeper. -/
theorem of_nested {ctx : Context} {inside : Parse α} {a : α} (h : nested ctx inside s = .ok a t) :
    ∃ u, inside s.deeper = .ok a u ∧ u.outside = some t := by
  unfold nested at h
  obtain ⟨_, s', he, h⟩ := bind_eq_ok.1 h
  rw [enter_apply] at he
  split at he
  · cases he
    cases hi : inside s.deeper with
    | ok b u =>
      simp only [hi] at h
      split at h
      · next v hv =>
        cases h
        exact ⟨u, rfl, hv⟩
      · cases h
    | error e u =>
      simp only [hi] at h
      split at h <;> cases h
  · cases he

/-- The tokens that the inside of a bracket takes are those that the bracket takes. -/
theorem State.Takes.outside {u : State} {w : List Token} (h : s.deeper.Takes w u)
    (hu : u.outside = some t) : s.Takes w t := by
  have he : t = s.past w := by
    rw [h.eq_past, State.deeper_past, State.outside_deeper] at hu
    exact (Option.some.inj hu).symm
  have hr : u.cursor.rest = t.cursor.rest := by rw [h.eq_past, he]; rfl
  exact ⟨by rw [← hr]; exact h.rest, he, hr ▸ h.ends⟩

theorem of_charge {ctx : Context} {u : Unit} (h : charge ctx s = .ok u t) : t = s.charged 1 := by
  rw [charge_apply] at h
  split at h <;> cases h
  rfl

end Backward

/-- A slice is read when it has tokens and they are read. -/
theorem run_eq_ok {p : Parse α} {depth : Nat} {text : Slice} {a : α} :
    run p depth text = .ok a ↔
      ∃ ts t, text.tokens = .ok ts ∧ p (State.start ts depth) = .ok a t := by
  unfold run
  cases text.tokens with
  | error f => simp
  | ok ts =>
    cases h : p (State.start ts depth) with
    | ok b t => simp [h]
    | error e t => simp [h]

end OData.Grammar
