import OData.Text.Basic

/-!
# Blank characters and trimming

Two different sets of characters count as blank.  Between tokens only the four
characters of `isGap` may stand.  Around the parts of an option list everything
with the Unicode property White_Space is trimmed (`isBlank`), so a no-break space
there is dropped, while the same character inside an expression is a stray one.
-/

namespace OData.Text

/-- **White space between tokens**: space, tab, carriage return, line feed. -/
def isGap (c : Char) : Bool := c == ' ' || c == '\t' || c == '\r' || c == '\n'

/-- The Unicode property White_Space, as the list of its code point ranges. -/
def blankRanges : List (Nat × Nat) :=
  [(0x0009, 0x000D), (0x0020, 0x0020), (0x0085, 0x0085), (0x00A0, 0x00A0), (0x1680, 0x1680),
   (0x2000, 0x200A), (0x2028, 0x2029), (0x202F, 0x202F), (0x205F, 0x205F), (0x3000, 0x3000)]

/-- **A blank character**: one with the Unicode property White_Space. -/
def isBlank (c : Char) : Bool := blankRanges.any fun r => r.1 ≤ c.toNat && c.toNat ≤ r.2

/-- Every gap between tokens is blank. -/
theorem isBlank_of_isGap {c : Char} (h : isGap c = true) : isBlank c = true := by
  simp only [isGap, Bool.or_eq_true, beq_iff_eq] at h
  rcases h with ((rfl | rfl) | rfl) | rfl <;> decide

/-- A text without its leading blanks. -/
def trimStart (s : List Char) : List Char := s.dropWhile isBlank

/-- A text without its trailing blanks: it ends at its last character that is not blank. -/
def trimEnd : List Char → List Char
  | [] => []
  | c :: r =>
    match trimEnd r with
    | [] => if isBlank c then [] else [c]
    | d :: t => c :: d :: t

/-- Only trailing characters are lost by `trimEnd`, and all of them are blank. -/
theorem exists_append_of_trimEnd (s : List Char) :
    ∃ t, s = trimEnd s ++ t ∧ ∀ c ∈ t, isBlank c = true := by
  induction s with
  | nil => exact ⟨[], rfl, by simp⟩
  | cons c r ih =>
    obtain ⟨t, hr, ht⟩ := ih
    cases hd : trimEnd r with
    | nil =>
      rw [hd, List.nil_append] at hr
      subst hr
      by_cases hc : isBlank c = true
      · exact ⟨c :: r, by simp [trimEnd, hd, hc], by simpa [hc] using ht⟩
      · exact ⟨r, by simp [trimEnd, hd, hc], ht⟩
    | cons d u =>
      refine ⟨t, ?_, ht⟩
      rw [hd] at hr
      simp only [trimEnd, hd, List.cons_append]
      rw [← List.cons_append, ← hr]

end OData.Text
