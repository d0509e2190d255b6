import Mathlib.Data.List.Basic
import OData.Proofs.Grammar.Run

/-!
# A cursor keeps its place

A cursor holds the tokens on its two sides, and nothing in its type ties the two sides to one
sequence.  What a caller relies on is said of positions: after whatever was done with it, be it
successful or not, a cursor that began before some tokens is the cursor at one of their positions
(`Cursor.atPosition`), and the position has not gone back.

All that can be done with a cursor is a `Cursor.Use`, and no use does more than to advance
(`Cursor.after_cases`).  So the one move to look at is `Cursor.advance`, which stops short of the
last token (`Cursor.advance_atPosition`).  For that the tokens need not end with the end of the
text, and there need not be any.
-/
namespace OData.Cursor
variable {ts : List Token} {c : Cursor} {n : Nat}

/-! ## Positions -/

/-- **The cursor at a position** of some tokens. -/
def atPosition (ts : List Token) (n : Nat) : Cursor := ⟨(ts.take n).reverse, ts.drop n⟩

theorem position_atPosition (h : n ≤ ts.length) : (atPosition ts n).position = n := by
  simp [atPosition, position, h]

theorem current_atPosition (ts : List Token) (n : Nat) :
    (atPosition ts n).current = ts[n]?.getD Token.nothing := by
  rw [atPosition, current, List.head?_drop]

/-- The token some places ahead, or the last token if there are not as many. -/
theorem ahead_atPosition (h : n ≤ ts.length - 1) (k : Nat) :
    (atPosition ts n).ahead k = (ts[n + k]?.or ts.getLast?).getD Token.nothing := by
  have hlast : (ts.drop n).getLast? = ts.getLast? := by
    rw [List.getLast?_drop]
    split
    · next hle =>
      rw [List.length_eq_zero_iff.1 (by omega : ts.length = 0)]
      rfl
    · rfl
  rw [atPosition, ahead, List.getElem?_drop, hlast]
  cases ts[n + k]? <;> rfl

/-- With no token after the one at it, a cursor does not move. -/
theorem advance_of_length_le (h : c.rest.length ≤ 1) : c.advance = c := by
  obtain ⟨before, rest⟩ := c
  cases rest with
  | nil => rfl
  | cons t r =>
    obtain rfl : r = [] := List.length_eq_zero_iff.1 (Nat.le_zero.1 (Nat.le_of_succ_le_succ h))
    rfl

/-- **To advance is to go to the next position**, if there is a token at it. -/
theorem advance_atPosition (ts : List Token) (n : Nat) :
    (atPosition ts n).advance = atPosition ts (if n < ts.length - 1 then n + 1 else n) := by
  by_cases h : n < ts.length - 1
  · have hn : n < ts.length := by omega
    have hn' : n + 1 < ts.length := by omega
    have htake : (ts.take (n + 1)).reverse = ts[n] :: (ts.take n).reverse := by
      rw [List.take_add_one, List.getElem?_eq_getElem hn, List.reverse_append]
      rfl
    rw [if_pos h, atPosition, atPosition, htake, List.drop_eq_getElem_cons hn,
      List.drop_eq_getElem_cons hn']
    rfl
  · have hlength : (ts.drop n).length ≤ 1 := by
      rw [List.length_drop]
      omega
    rw [if_neg h, advance_of_length_le hlength]

/-- **A cursor in some tokens**: it is at a position of theirs, which is not beyond the last. -/
structure In (c : Cursor) (ts : List Token) : Prop where
  /-- What is on its two sides is what is on the two sides of its position. -/
  eq : c = atPosition ts c.position
  /-- Its position is not beyond the last; with no tokens, it is the first. -/
  le : c.position ≤ ts.length - 1

theorem in_atPosition (h : n ≤ ts.length - 1) : (atPosition ts n).In ts := by
  have hn : (atPosition ts n).position = n := position_atPosition (by omega)
  exact ⟨by rw [hn], by rwa [hn]⟩

theorem in_ofTokens (ts : List Token) : (ofTokens ts).In ts := in_atPosition (Nat.zero_le _)

namespace In

/-- The token at a cursor is the one at its position. -/
theorem current_eq (h : c.In ts) : c.current = ts[c.position]?.getD Token.nothing :=
  (congrArg current h.eq).trans (current_atPosition ..)

/-- What is some places ahead of a cursor is what is as many places behind its position. -/
theorem ahead_eq (h : c.In ts) (k : Nat) :
    c.ahead k = (ts[c.position + k]?.or ts.getLast?).getD Token.nothing :=
  (congrArg (ahead · k) h.eq).trans (ahead_atPosition h.le k)

/-- Advancing changes the position by at most one, and it stays a position of the tokens. -/
theorem advance (h : c.In ts) :
    c.advance.In ts ∧ c.position ≤ c.advance.position ∧ c.advance.position ≤ c.position + 1 := by
  have hle := h.le
  rw [h.eq, advance_atPosition, ← h.eq]
  split
  · next hlt =>
    rw [position_atPosition (by omega)]
    exact ⟨in_atPosition (by omega), by omega⟩
  · rw [← h.eq]
    exact ⟨h, by omega⟩

/-- Where the end of the text is the last token and only that, it is at the last position. -/
theorem isAt_eof_iff (h : c.In ts) (hends : Grammar.Ends ts) :
    c.isAt .eof = true ↔ c.position = ts.length - 1 := by
  have hle := h.le
  rw [isAt, beq_iff_eq, h.current_eq]
  obtain ⟨body, stop, rfl, hstop, hbody⟩ := hends
  rw [List.length_append, List.length_singleton, Nat.add_sub_cancel] at hle ⊢
  -- The tokens in front of the last are not the end of the text.
  rcases Nat.lt_or_eq_of_le hle with hlt | heq
  · have hkind := hbody _ (List.getElem_mem hlt)
    simp [List.getElem?_append_left hlt, List.getElem?_eq_getElem hlt, hkind]
    omega
  · simp [heq, hstop]

end In

/-! ## Uses -/

/-- **What can be done with a cursor.** -/
inductive Use where
  /-- Looks at the token at it. -/
  | current
  /-- Looks at the token some places ahead; the next token is one place ahead. -/
  | ahead (n : Nat)
  /-- Asks whether the token at it is of a kind. -/
  | isAt (k : Kind)
  /-- Asks whether the token at it is a given word. -/
  | isAtWord (w : String)
  /-- Asks whether it is at the end of the text. -/
  | isAtEnd
  /-- Asks how many tokens it has moved past. -/
  | position
  /-- Asks for the place of the token before it. -/
  | previousSpan
  /-- Refuses the token at it, in the caller's words. -/
  | refusal (message : String)
  /-- Moves past a token. -/
  | advance
  /-- Moves past the token at it if it is of a kind. -/
  | consume (k : Kind)
  /-- Moves past the token at it if it is a given word. -/
  | consumeWord (w : String)
  /-- Moves past a token of a kind. -/
  | expect (k : Kind)
  /-- Moves past a word. -/
  | expectWord (what : String)
  deriving DecidableEq, Repr

namespace Use

/-- The type of what a use answers. -/
def Answer : Use → Type
  | current | ahead _ => Token
  | isAt _ | isAtWord _ | isAtEnd | consume _ | consumeWord _ => Bool
  | position => Nat
  | previousSpan | expect _ => Span
  | refusal _ => Refusal
  | advance => Unit
  | expectWord _ => Spanned String

/-- Uses a cursor. -/
def act : (u : Use) → Reading u.Answer
  | current => do pure (← get).current
  | ahead n => do pure ((← get).ahead n)
  | isAt k => do pure ((← get).isAt k)
  | isAtWord w => do pure ((← get).isAtWord w)
  | isAtEnd => do pure ((← get).isAt .eof)
  | position => do pure (← get).position
  | previousSpan => do pure (← get).previousSpan
  | refusal message => do pure (Refusal.ofForm message (← get).current.span)
  | advance => Reading.advance
  | consume k => Reading.consume k
  | consumeWord w => Reading.consumeWord w
  | expect k => Reading.expect k
  | expectWord what => Reading.expectWord what

/-- Uses that only look: they take no token. -/
def Looks : Use → Prop
  | advance | consume _ | consumeWord _ | expect _ | expectWord _ => False
  | _ => True

/-- A use fails: it ends in a failure, or it says that the token it would take is another. -/
def Fails : (u : Use) → EStateM.Result Failure Cursor u.Answer → Prop
  | consume _, .ok taken _ | consumeWord _, .ok taken _ => taken = false
  | _, .ok _ _ => False
  | _, .error _ _ => True

end Use

variable {u : Use}

/-- **The cursor after a use**, however it ends. -/
def after (c : Cursor) (u : Use) : Cursor :=
  match u.act c with
  | .ok _ c' | .error _ c' => c'

/-- The cursor after some uses, one after the other. -/
def afterAll (c : Cursor) (uses : List Use) : Cursor := uses.foldl after c

/-- **A use leaves the cursor or advances it**, and it advances it only if it takes a token and does
not fail. -/
theorem after_cases (c : Cursor) (u : Use) :
    c.after u = c ∨ c.after u = c.advance ∧ ¬ u.Looks ∧ ¬ u.Fails (u.act c) := by
  cases u with
  | advance => exact .inr ⟨rfl, id, id⟩
  | consume k =>
    rw [after, Use.act, Reading.consume_apply]
    cases c.isAt k with
    | true => exact .inr ⟨rfl, id, nofun⟩
    | false => exact .inl rfl
  | consumeWord w =>
    rw [after, Use.act, Reading.consumeWord_apply]
    cases c.isAtWord w with
    | true => exact .inr ⟨rfl, id, nofun⟩
    | false => exact .inl rfl
  | expect k =>
    rw [after, Use.act, Reading.expect_apply]
    cases c.isAt k with
    | true => exact .inr ⟨rfl, id, id⟩
    | false => exact .inl rfl
  | expectWord what =>
    rw [after, Use.act, Reading.expectWord_apply]
    cases c.current.kind.word? with
    | some w => exact .inr ⟨rfl, id, id⟩
    | none => exact .inl rfl
  | _ => exact .inl rfl

/-- A use that only looks, or fails, leaves the cursor. -/
theorem after_eq_self (h : u.Looks ∨ u.Fails (u.act c)) : c.after u = c := by
  rcases after_cases c u with hafter | ⟨-, hlooks, hfails⟩
  · exact hafter
  · exact (h.elim hlooks hfails).elim

/-! ## Runs -/

namespace In

/-- **One use** keeps a cursor in its tokens and takes it at most one position on. -/
theorem after (h : c.In ts) (u : Use) :
    (c.after u).In ts ∧ c.position ≤ (c.after u).position ∧
      (c.after u).position ≤ c.position + 1 := by
  rcases after_cases c u with hafter | ⟨hafter, -⟩
  · rw [hafter]
    exact ⟨h, Nat.le_refl _, Nat.le_succ _⟩
  · rw [hafter]
    exact h.advance

/-- Any uses keep a cursor in its tokens and never take it back. -/
theorem afterAll (h : c.In ts) (uses : List Use) :
    (c.afterAll uses).In ts ∧ c.position ≤ (c.afterAll uses).position := by
  induction uses generalizing c with
  | nil => exact ⟨h, Nat.le_refl _⟩
  | cons u uses ih =>
    obtain ⟨hafter, hle, -⟩ := h.after u
    obtain ⟨hall, hle'⟩ := ih hafter
    exact ⟨hall, Nat.le_trans hle hle'⟩

/-- A cursor at the end of the text stays there, whatever is done with it. -/
theorem isAt_eof_afterAll (h : c.In ts) (hends : Grammar.Ends ts) (heof : c.isAt .eof = true)
    (uses : List Use) : (c.afterAll uses).isAt .eof = true := by
  -- It is at the last position already, and can neither go back nor go on.
  obtain ⟨hall, hle⟩ := h.afterAll uses
  have hlast := (h.isAt_eof_iff hends).1 heof
  exact (hall.isAt_eof_iff hends).2 (Nat.le_antisymm hall.le (hlast ▸ hle))

end In

/-- **A cursor keeps its place**, whatever the tokens are that it began before, and whatever it has
been used for.

The next use takes it on by one position or by none, and by none if it only looks or fails.  It
never gets beyond the last position, and the token at it is always the one at its position; where
there are no tokens, it is the end of an empty text.  Beyond the last token it sees the last token
again.  And if the end of the text is the last token and only that, then a cursor that is at the end
of the text stays there. -/
theorem keeps_place (ts : List Token) (uses : List Use) :
    let c := (ofTokens ts).afterAll uses
    (∀ u : Use, c.position ≤ (c.after u).position ∧ (c.after u).position ≤ c.position + 1 ∧
      (u.Looks ∨ u.Fails (u.act c) → c.after u = c)) ∧
    c.position ≤ ts.length - 1 ∧
    (ts ≠ [] → ts[c.position]? = some c.current) ∧
    (ts = [] → c.current = ⟨.eof, ⟨0, 0⟩⟩) ∧
    (∀ k, c.ahead k = (ts[c.position + k]?.or ts.getLast?).getD Token.nothing) ∧
    (Grammar.Ends ts → c.isAt .eof = true →
      ∀ later, (c.afterAll later).isAt .eof = true) := by
  intro c
  have hc : c.In ts := ((in_ofTokens ts).afterAll uses).1
  refine ⟨fun u => ?_, hc.le, fun hts => ?_, ?_, hc.ahead_eq, hc.isAt_eof_afterAll⟩
  · obtain ⟨-, hle, hle'⟩ := hc.after u
    exact ⟨hle, hle', after_eq_self⟩
  · have hlt : c.position < ts.length := by
      have hpos := List.length_pos_iff.2 hts
      have hle := hc.le
      omega
    rw [hc.current_eq, List.getElem?_eq_getElem hlt]
    rfl
  · rintro rfl
    exact hc.current_eq

/-- A comparison, with the end of the text after it. -/
def compared : List Token :=
  [⟨.word "Name", ⟨0, 4⟩⟩, ⟨.word "eq", ⟨5, 7⟩⟩, ⟨.string "Jef", ⟨8, 13⟩⟩, ⟨.eof, ⟨13, 13⟩⟩]

/-- Uses that take all of its tokens, the last of them in place, with one failure in between. -/
def comparing : List Use :=
  [.expectWord "property", .expect .leftParen, .consumeWord "eq", .advance, .consume .eof]

/-- The cursor at the end of the comparison. -/
def behindCompared : Cursor := (ofTokens compared).afterAll comparing

theorem keeps_place_compared :
    compared ≠ [] ∧ Grammar.Ends compared ∧ behindCompared.isAt .eof = true ∧
      (Use.consumeWord "or").Fails ((Use.consumeWord "or").act behindCompared) ∧
      behindCompared.position = 3 ∧
      compared[behindCompared.position]? = some behindCompared.current ∧
      behindCompared.after (.consumeWord "or") = behindCompared ∧
      (behindCompared.afterAll [.consume .eof, .advance]).isAt .eof = true := by
  have hends : Grammar.Ends compared :=
    ⟨compared.take 3, ⟨.eof, ⟨13, 13⟩⟩, rfl, rfl, by decide⟩
  have heof : behindCompared.isAt .eof = true := by decide
  have hfails : (Use.consumeWord "or").Fails ((Use.consumeWord "or").act behindCompared) := rfl
  obtain ⟨huse, -, hcurrent, -, -, hstays⟩ := keeps_place compared comparing
  exact ⟨by decide, hends, heof, hfails, by decide, hcurrent (by decide),
    (huse _).2.2 (.inr hfails), hstays hends heof _⟩

end OData.Cursor
