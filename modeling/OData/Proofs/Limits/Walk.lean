import OData.Proofs.Grammar.Run

/-!
# Runs that keep count

Every run of a grammar leaves the two counts as it found them, whatever it reads: the
brackets that it goes into it leaves, and the operators that it counts it builds trees from.
If it is refused, then it is out of its brackets all the same, while operators may have
stayed counted.  The cursor never moves back, and never off the end of the text.  A run
stops for no other reason: no count is overdrawn, and no repetition outlasts the tokens,
since every round moves past one.

`Runs` says all this of a grammar, of states with at most `n` tokens ahead, and says what
holds of the values that it reads.  The rules below build such facts from parts, in the way
grammars are put together.  The number of tokens that may be ahead afterwards is part of
them, because it is what bounds the repetitions and the nesting of brackets.
-/
namespace OData

/-! ## States and outcomes -/

/-- A cursor leads to another, which is past some more tokens. -/
def Cursor.Leads (c c' : Cursor) : Prop :=
  ∃ w, c.rest = w ++ c'.rest ∧ c'.before = w.reverse ++ c.before

section Cursors
variable {c c' c'' : Cursor}

theorem Cursor.Leads.refl (c : Cursor) : c.Leads c := ⟨[], rfl, rfl⟩

theorem Cursor.Leads.trans (h : c.Leads c') (h' : c'.Leads c'') : c.Leads c'' := by
  obtain ⟨v, hrest, hbefore⟩ := h
  obtain ⟨w, hrest', hbefore'⟩ := h'
  exact ⟨v ++ w, by rw [hrest, hrest', List.append_assoc], by
    rw [hbefore', hbefore, List.reverse_append, List.append_assoc]⟩

theorem Cursor.leads_advance (c : Cursor) : c.Leads c.advance := by
  obtain ⟨before, rest⟩ := c
  match rest with
  | [] => exact .refl _
  | [t] => exact .refl _
  | t :: u :: r => exact ⟨[t], rfl, rfl⟩

end Cursors

namespace Grammar
variable {α β : Type}

/-- The last token is the end of the text.  Nothing is said of those before it. -/
def HasEnd (ts : List Token) : Prop := ∃ t ∈ ts.getLast?, t.kind = .eof

namespace HasEnd
variable {t u : Token} {ts : List Token}

theorem of_ends (h : Ends ts) : HasEnd ts := by
  obtain ⟨body, stop, rfl, hstop, -⟩ := h
  exact ⟨stop, List.getLast?_concat .., hstop⟩

theorem ne_nil (h : HasEnd ts) : ts ≠ [] := by
  rintro rfl
  obtain ⟨-, ⟨⟩, -⟩ := h

theorem kind_eq (h : HasEnd [t]) : t.kind = .eof := by
  obtain ⟨_, ⟨⟩, hkind⟩ := h
  exact hkind

theorem tail (h : HasEnd (t :: u :: ts)) : HasEnd (u :: ts) := by
  rwa [HasEnd, List.getLast?_cons_cons] at h

end HasEnd

/-- **A state in a text**: there are at most `n` tokens ahead, the last of which is the end of
the text, and it is in `d` brackets and has counted `o` operators. -/
structure State.At (s : State) (n d o : Nat) : Prop where
  ends : HasEnd s.cursor.rest
  length : s.cursor.rest.length ≤ n
  depth : s.depth = d
  operators : s.operators = o

/-- **How a run from a state ends**: either it reads a value with a property, and is in as many
brackets as before and has counted as many operators; or it is refused, in as many brackets as
before, and has counted no fewer operators. -/
inductive Outcome (P : α → Prop) (s : State) (m d o : Nat) : EStateM.Result Stop State α → Prop
  | ok {a : α} {t : State} : P a → t.At m d o → s.cursor.Leads t.cursor →
      Outcome P s m d o (.ok a t)
  | refused {f : Failure} {t : State} : HasEnd t.cursor.rest → t.depth = d → o ≤ t.operators →
      s.cursor.Leads t.cursor → Outcome P s m d o (.error (.refused f) t)

/-- **A grammar keeps count**: with at most `n` tokens ahead before and at most `m` after, in `d`
brackets and with `o` operators counted, and all that it reads has a property. -/
def Runs (P : α → Prop) (n m d o : Nat) (p : Parse α) : Prop :=
  ∀ ⦃s : State⦄, s.At n d o → Outcome P s m d o (p s)

section States
variable {s t : State} {n m d o : Nat} {P : α → Prop}

theorem State.At.mono (h : s.At n d o) (hn : n ≤ m) : s.At m d o :=
  { h with length := Nat.le_trans h.length hn }

/-- The number of tokens ahead is never zero. -/
theorem State.At.pos (h : s.At n d o) : 0 < n :=
  Nat.lt_of_lt_of_le (List.length_pos_iff.2 h.ends.ne_nil) h.length

/-- Past a token that is not the end of the text there is one less ahead. -/
theorem State.At.advanced (h : s.At n d o) (hk : s.cursor.current.kind ≠ .eof) :
    s.advanced.At (n - 1) d o := by
  obtain ⟨⟨before, rest⟩, depth, operators⟩ := s
  obtain ⟨hends, hlength, hdepth, hoperators⟩ := h
  match rest with
  | [] => exact absurd rfl hends.ne_nil
  | [t] => exact absurd hends.kind_eq hk
  | t :: u :: r => exact ⟨hends.tail, Nat.le_sub_one_of_lt hlength, hdepth, hoperators⟩

/-- Past the last token the cursor does not move. -/
theorem State.At.advanced_le (h : s.At n d o) : s.advanced.At n d o := by
  obtain ⟨⟨before, rest⟩, depth, operators⟩ := s
  match rest with
  | [] | [t] => exact h
  | t :: u :: r => exact ⟨h.ends.tail, Nat.le_of_lt h.length, h.depth, h.operators⟩

theorem Outcome.after {r : EStateM.Result Stop State α} (h : Outcome P t m d o r)
    (hl : s.cursor.Leads t.cursor) : Outcome P s m d o r := by
  cases h with
  | ok ha ht htl => exact .ok ha ht (hl.trans htl)
  | refused he hd ho htl => exact .refused he hd ho (hl.trans htl)

/-- A bracket is left whatever happens inside. -/
theorem Outcome.leave {r : EStateM.Result Stop State α} (h : Outcome P s.deeper m (d + 1) o r) :
    Outcome P s m d o (leave r) := by
  cases h with
  | ok ha ht hl =>
    simp only [Grammar.leave, State.outside_of_depth ht.depth]
    exact .ok ha ⟨ht.ends, ht.length, rfl, ht.operators⟩ hl
  | refused he hd ho hl =>
    simp only [Grammar.leave, State.outside_of_depth hd]
    exact .refused he rfl ho hl

/-- A run past the token at the cursor, which is not the end of the text. -/
theorem Outcome.advance {p : Parse α} (hs : s.At n d o) (hk : s.cursor.current.kind ≠ .eof)
    (h : Runs P (n - 1) m d o p) : Outcome P s m d o ((do Grammar.advance; p : Parse α) s) :=
  (h (hs.advanced hk)).after s.cursor.leads_advance

end States

namespace Runs
variable {P P' : α → Prop} {Q : β → Prop} {p : Parse α} {f : α → Parse β} {n m k d o : Nat}

/-! ## Sequences -/

theorem pure {a : α} (h : P a) : Runs P n n d o (Pure.pure a) :=
  fun s hs => .ok h hs (.refl s.cursor)

theorem mono (h : Runs P n m d o p) (hm : m ≤ k) (hP : ∀ a, P a → P' a) : Runs P' n k d o p := by
  intro s hs
  have ho := h hs
  generalize p s = r at ho
  cases ho with
  | ok ha ht hl => exact .ok (hP _ ha) (ht.mono hm) hl
  | refused he hd ho hl => exact .refused he hd ho hl

theorem le (h : Runs P n m d o p) (hm : m ≤ k) : Runs P n k d o p := h.mono hm fun _ ha => ha

theorem imp (h : Runs P n m d o p) (hP : ∀ a, P a → P' a) : Runs P' n m d o p :=
  h.mono (Nat.le_refl m) hP

theorem bind (hp : Runs P n m d o p) (hf : ∀ a, P a → Runs Q m k d o (f a)) :
    Runs Q n k d o (p >>= f) := by
  intro s hs
  have ho := hp hs
  generalize hr : p s = r at ho
  cases ho with
  | ok ha ht hl =>
    rw [bind_of_ok hr]
    exact (hf _ ha ht).after hl
  | refused he hd ho hl =>
    rw [bind_of_error hr]
    exact .refused he hd ho hl

/-- There is always a token ahead. -/
theorem of_pos (h : 0 < n → Runs P n m d o p) : Runs P n m d o p := fun _ hs => h hs.pos hs

theorem ite {c : Prop} [Decidable c] {p q : Parse α} (hp : c → Runs P n m d o p)
    (hq : ¬ c → Runs P n m d o q) : Runs P n m d o (if c then p else q) := by
  by_cases hc : c
  · rw [if_pos hc]
    exact hp hc
  · rw [if_neg hc]
    exact hq hc

/-! ### Refusals -/

theorem refuse (c : Cause) (a : Span) : Runs P n m d o (Grammar.refuse c a) :=
  fun s hs => .refused hs.ends hs.depth (Nat.le_of_eq hs.operators.symm) (.refl s.cursor)

theorem refuseHere (c : Cause) : Runs P n m d o (Grammar.refuseHere c) :=
  fun s hs => .refused hs.ends hs.depth (Nat.le_of_eq hs.operators.symm) (.refl s.cursor)

theorem refuseFor (what : String) : Runs P n m d o (Grammar.refuseFor what) :=
  fun s hs => .refused hs.ends hs.depth (Nat.le_of_eq hs.operators.symm) (.refl s.cursor)

/-! ### Looking without moving -/

/-- A look at the cursor. -/
theorem look {γ : Type} {g : State → γ} {p : Parse γ} (h : ∀ s, p s = .ok (g s) s) :
    Runs (fun _ => True) n n d o p := by
  intro s hs
  rw [h]
  exact .ok trivial hs (.refl s.cursor)

theorem cursor : Runs (fun _ => True) n n d o Grammar.cursor := look fun _ => rfl

theorem here : Runs (fun _ => True) n n d o Grammar.here := look fun _ => rfl

theorem previousSpan : Runs (fun _ => True) n n d o Grammar.previousSpan := look fun _ => rfl

theorem isAt (k : Kind) : Runs (fun _ => True) n n d o (Grammar.isAt k) := look fun _ => rfl

theorem isAtWord (w : String) : Runs (fun _ => True) n n d o (Grammar.isAtWord w) :=
  look fun _ => rfl

/-- The number of rounds is more than the number of tokens ahead. -/
theorem rounds {f : Nat → Parse β} (h : ∀ k ≤ n, Runs Q k m d o (f (k + 1))) :
    Runs Q n m d o (Grammar.rounds >>= f) :=
  fun s hs => h s.cursor.rest.length hs.length { hs with length := Nat.le_refl _ }

/-! ### Moving -/

theorem advance : Runs (fun _ => True) n n d o Grammar.advance :=
  fun s hs => .ok trivial hs.advanced_le s.cursor.leads_advance

theorem consume (k : Kind) (hk : k ≠ .eof) {f : Bool → Parse β}
    (htrue : Runs Q (n - 1) m d o (f true)) (hfalse : Runs Q n m d o (f false)) :
    Runs Q n m d o (Grammar.consume k >>= f) := by
  intro s hs
  by_cases hat : s.cursor.isAt k = true
  · have hkind : s.cursor.current.kind = k := by simpa [Cursor.isAt] using hat
    have hrun : Grammar.consume k s = .ok true s.advanced := by rw [consume_apply, if_pos hat]
    rw [bind_of_ok hrun]
    exact (htrue (hs.advanced (hkind ▸ hk))).after s.cursor.leads_advance
  · have hrun : Grammar.consume k s = .ok false s := by rw [consume_apply, if_neg hat]
    rw [bind_of_ok hrun]
    exact hfalse hs

theorem consumeWord (w : String) {f : Bool → Parse β} (htrue : Runs Q (n - 1) m d o (f true))
    (hfalse : Runs Q n m d o (f false)) : Runs Q n m d o (Grammar.consumeWord w >>= f) := by
  intro s hs
  by_cases hat : s.cursor.isAtWord w = true
  · have hkind : s.cursor.current.kind = .word w := isAtWord_eq_true.1 hat
    have hrun : Grammar.consumeWord w s = .ok true s.advanced := by
      rw [consumeWord_apply, if_pos hat]
    rw [bind_of_ok hrun]
    exact (htrue (hs.advanced (by rw [hkind]; nofun))).after s.cursor.leads_advance
  · have hrun : Grammar.consumeWord w s = .ok false s := by rw [consumeWord_apply, if_neg hat]
    rw [bind_of_ok hrun]
    exact hfalse hs

theorem expect (k : Kind) (hk : k ≠ .eof) :
    Runs (fun _ => True) n (n - 1) d o (Grammar.expect k) := by
  intro s hs
  rw [expect_apply]
  split
  · next hat =>
    have hkind : s.cursor.current.kind = k := by simpa [Cursor.isAt] using hat
    exact .ok trivial (hs.advanced (hkind ▸ hk)) s.cursor.leads_advance
  · exact refuseFor _ hs

theorem expectWord (what : String) :
    Runs (fun _ => True) n (n - 1) d o (Grammar.expectWord what) := by
  intro s hs
  rw [expectWord_apply]
  split
  · next w hword =>
    have hkind : s.cursor.current.kind = .word w := kind_of_word? hword
    exact .ok trivial (hs.advanced (by rw [hkind]; nofun)) s.cursor.leads_advance
  · exact refuseFor _ hs

/-! ### Brackets -/

theorem nested {ctx : Context} (h : d < ctx.settings.maxDepth → Runs P n m (d + 1) o p) :
    Runs P n m d o (Grammar.nested ctx p) := by
  intro s hs
  rw [nested_apply]
  split
  · next hd =>
    rw [hs.depth] at hd
    have hdeeper : s.deeper.At n (d + 1) o := { hs with depth := congrArg (· + 1) hs.depth }
    exact (h hd hdeeper).leave
  · exact refuseHere _ hs

/-! ### Repetition -/

/-- **A repetition does not outlast the tokens**, since every round moves past one. -/
theorem following (sep : Kind) (hsep : sep ≠ .eof) {rounds : Nat} (hn : n ≤ rounds)
    (h : ∀ k < n, Runs P k k d o p) :
    Runs (fun as => ∀ a ∈ as, P a) n n d o (Grammar.following sep p rounds) := by
  induction rounds generalizing n with
  | zero => exact fun s hs => absurd hs.pos (by omega)
  | succ rounds ih =>
    intro s hs
    have hpos := hs.pos
    refine consume sep hsep ?_ ?_ hs
    · refine (h (n - 1) (by omega)).bind fun a ha => ?_
      refine (ih (by omega) fun k hk => h k (by omega)).bind fun as has => ?_
      exact (pure (List.forall_mem_cons.2 ⟨ha, has⟩)).le (by omega)
    · exact pure fun _ h => absurd h List.not_mem_nil

theorem separated (sep : Kind) (hsep : sep ≠ .eof) (h : ∀ k ≤ n, Runs P k (k - 1) d o p) :
    Runs (fun as => ∀ a ∈ as, P a) n (n - 1) d o (Grammar.separated sep p) := by
  refine (h n (Nat.le_refl n)).bind fun a ha => rounds fun k hk => ?_
  have hitem : ∀ j < k, Runs P j j d o p := fun j hj => (h j (by omega)).le (by omega)
  refine (following sep hsep (Nat.le_succ k) hitem).bind fun as has => ?_
  exact (pure (List.forall_mem_cons.2 ⟨ha, has⟩)).le hk

theorem complete (h : Runs P n m d o p) : Runs P n m d o (Grammar.complete p) := by
  refine h.bind fun a ha => ?_
  have hend : Runs (fun _ => True) m m d o (Grammar.expect .eof) := by
    intro s hs
    rw [expect_apply]
    split
    · exact .ok trivial hs.advanced_le s.cursor.leads_advance
    · exact refuseFor _ hs
  exact hend.bind fun _ _ => pure ha

end Runs

end Grammar

end OData
