import Mathlib.Data.List.Induction
import OData.Proofs.Text.Numeral

/-!
# Numbers and the texts that write them

A number is written as its decimal digits, after any number of zeros, and a negative number after
a minus sign (`Writes`, `WritesSigned`).  The readers do not look at numbers this way: they check
that all characters are digits, add up a value and compare it with a bound.  The two agree, for
texts of any length and up to both ends of each range (`unsigned?_eq_some_iff`,
`signed?_eq_some_iff`).
-/
namespace OData.Text.Numeral
variable {s : List Char} {n m : Nat} {v w : Int} {c : Char}

/-- **A text writes a number**: the decimal digits of the number, after any number of zeros. -/
def Writes (n : Nat) (s : List Char) : Prop :=
  ∃ zeros, s = List.replicate zeros '0' ++ Nat.toDigits 10 n

/-- **A text writes an integer**, after a minus sign if it has one. -/
inductive WritesSigned : Int → List Char → Prop
  | plain {n : Nat} {s : List Char} : Writes n s → WritesSigned n s
  | minus {n : Nat} {s : List Char} : Writes n s → WritesSigned (-n) ('-' :: s)

/-! ## Digits -/

theorem toNat_of_isDigit (h : isDigit c = true) : 48 ≤ c.toNat ∧ c.toNat ≤ 57 := by
  simpa [isDigit, Char.le_def, UInt32.le_iff_toNat_le] using h

theorem digitValue_eq (c : Char) : digitValue c = c.toNat - 48 := rfl

theorem toDigits_digitValue (h : isDigit c = true) : Nat.toDigits 10 (digitValue c) = [c] := by
  obtain ⟨hl, hu⟩ := toNat_of_isDigit h
  rw [digitValue_eq, Nat.toDigits_of_lt_base (by omega)]
  refine congrArg (· :: []) (Char.toNat_inj.1 ?_)
  rw [Nat.toNat_digitChar_of_lt_ten (by omega)]
  omega

theorem value_concat (s : List Char) (c : Char) :
    value (s ++ [c]) = 10 * value s + digitValue c := by
  simp [value]

/-- Zeros in front add nothing. -/
theorem value_replicate_append (zeros : Nat) (s : List Char) :
    value (List.replicate zeros '0' ++ s) = value s := by
  induction zeros with
  | zero => rfl
  | succ zeros ih => rw [← ih]; rfl

/-! ## Numbers without sign -/

theorem Writes.isDigits (h : Writes n s) : IsDigits s := by
  obtain ⟨zeros, rfl⟩ := h
  obtain ⟨hne, hdigits⟩ := isDigits_toDigits n
  refine ⟨by simp [hne], List.forall_mem_append.2 ⟨fun c hc => ?_, hdigits⟩⟩
  rw [List.eq_of_mem_replicate hc]
  decide

theorem Writes.value_eq (h : Writes n s) : value s = n := by
  obtain ⟨zeros, rfl⟩ := h
  rw [value_replicate_append, value_toDigits]

/-- Digits write their value.  The induction is on the last digit, which is the last of the
number's own digits; it takes a zero's place if the digits before it are zeros. -/
theorem writes_value (h : IsDigits s) : Writes (value s) s := by
  induction s using List.reverseRecOn with
  | nil => exact absurd rfl h.1
  | append_singleton s c ih =>
    have hc : isDigit c = true := h.2 c (by simp)
    have hlt : digitValue c < 10 := by
      obtain ⟨-, hu⟩ := toNat_of_isDigit hc
      rw [digitValue_eq]
      omega
    rw [value_concat]
    by_cases hs : s = []
    · subst hs
      exact ⟨0, by simpa [value] using (toDigits_digitValue hc).symm⟩
    · obtain ⟨zeros, hzeros⟩ := ih ⟨hs, fun d hd => h.2 d (by simp [hd])⟩
      by_cases hvalue : value s = 0
      · refine ⟨zeros + 1, ?_⟩
        have hs : s = List.replicate (zeros + 1) '0' := by
          rw [hzeros, hvalue, List.replicate_succ']
          rfl
        rw [hvalue, Nat.mul_zero, Nat.zero_add, toDigits_digitValue hc, hs]
      · refine ⟨zeros, ?_⟩
        have hdigits := Nat.toDigits_append_toDigits (by decide) (Nat.pos_of_ne_zero hvalue) hlt
        rw [toDigits_digitValue hc] at hdigits
        rw [← hdigits, ← List.append_assoc, ← hzeros]

/-- The text writes the value of its digits, and nothing else. -/
theorem writes_iff : Writes n s ↔ IsDigits s ∧ value s = n :=
  ⟨fun h => ⟨h.isDigits, h.value_eq⟩, fun h => h.2 ▸ writes_value h.1⟩

theorem Writes.unique (h : Writes n s) (h' : Writes m s) : n = m :=
  h.value_eq.symm.trans h'.value_eq

/-- What is read off digits that pass a test of their value is made of the number that they
write. -/
theorem ofDigits_eq_some {α : Type} (p : Nat → Prop) [DecidablePred p] (f : Nat → α) {a : α} :
    (if s ≠ [] ∧ s.all isDigit ∧ p (value s) then some (f (value s)) else none) = some a ↔
      ∃ n, Writes n s ∧ p n ∧ f n = a := by
  have hdigits : (s ≠ [] ∧ s.all isDigit) ↔ IsDigits s := by simp [IsDigits]
  simp only [← and_assoc, hdigits, writes_iff, Option.ite_none_right_eq_some, Option.some.injEq]
  constructor
  · rintro ⟨⟨hs, hp⟩, h⟩
    exact ⟨value s, ⟨⟨hs, rfl⟩, hp⟩, h⟩
  · rintro ⟨_, ⟨⟨hs, rfl⟩, hp⟩, h⟩
    exact ⟨⟨hs, hp⟩, h⟩

/-- **A count is read just if it is written and fits its 64 bits.** -/
theorem unsigned?_eq_some_iff : unsigned? s = some n ↔ Writes n s ∧ n < 2 ^ 64 := by
  refine (ofDigits_eq_some (· < 2 ^ 64) id).trans ?_
  constructor
  · rintro ⟨m, hm, hlt, rfl⟩
    exact ⟨hm, hlt⟩
  · exact fun h => ⟨n, h.1, h.2, rfl⟩

/-- No count is read off other texts than digits, and off those of a number that does not
fit. -/
theorem unsigned?_eq_none_iff :
    unsigned? s = none ↔ ¬ IsDigits s ∨ ∃ n, Writes n s ∧ 2 ^ 64 ≤ n := by
  rw [Option.eq_none_iff_forall_ne_some]
  simp only [ne_eq, unsigned?_eq_some_iff, not_and, Nat.not_lt]
  constructor
  · intro h
    by_cases hs : IsDigits s
    · exact .inr ⟨value s, writes_value hs, h _ (writes_value hs)⟩
    · exact .inl hs
  · rintro (hs | ⟨m, hm, hle⟩) n hn
    · exact absurd hn.isDigits hs
    · exact hn.unique hm ▸ hle

/-! ## Integers -/

/-- A minus sign is no digit. -/
theorem not_isDigits_minus : ¬ IsDigits ('-' :: s) := fun h =>
  absurd (h.2 '-' (by simp)) (by decide)

theorem WritesSigned.unique (h : WritesSigned v s) (h' : WritesSigned w s) : v = w := by
  cases h with
  | plain h =>
    cases h' with
    | plain h' => rw [h.unique h']
    | minus h' => exact absurd h.isDigits not_isDigits_minus
  | minus h =>
    cases h' with
    | plain h' => exact absurd h'.isDigits not_isDigits_minus
    | minus h' => rw [h.unique h']

/-- Every text of an integer writes one. -/
theorem exists_writesSigned (h : IsNumber .integer s) : ∃ v, WritesSigned v s := by
  generalize hform : Form.integer = form at h
  obtain @⟨sign, digits, fraction, exponent, hsign, hdigits, -, -⟩ := h
  -- The form rules out a fraction and an exponent.
  have hexponent : exponent = [] := by
    by_contra hne
    simp [Form.of, hne] at hform
  have hfraction : fraction = [] := by
    by_contra hne
    simp [Form.of, hexponent, hne] at hform
  subst hexponent hfraction
  simp only [List.append_nil]
  rcases hsign with rfl | rfl
  · exact ⟨_, .plain (writes_value hdigits)⟩
  · exact ⟨_, .minus (writes_value hdigits)⟩

theorem signed?_minus :
    signed? ('-' :: s) = some v ↔ ∃ n : Nat, Writes n s ∧ n ≤ 2 ^ 63 ∧ -(n : Int) = v := by
  rw [signed?]
  exact ofDigits_eq_some (· ≤ 2 ^ 63) fun n => -(n : Int)

theorem signed?_plain (h : s.head? ≠ some '-') :
    signed? s = some v ↔ ∃ n : Nat, Writes n s ∧ n < 2 ^ 63 ∧ (n : Int) = v := by
  unfold signed?
  split
  · exact absurd rfl h
  · exact ofDigits_eq_some (· < 2 ^ 63) fun n => (n : Int)

/-- **An integer is read just if it is written and fits its 64 bits.**  There is one more below
zero than above. -/
theorem signed?_eq_some_iff :
    signed? s = some v ↔ WritesSigned v s ∧ -2 ^ 63 ≤ v ∧ v < 2 ^ 63 := by
  by_cases hminus : s.head? = some '-'
  · obtain ⟨r, rfl⟩ : ∃ r, s = '-' :: r := List.head?_eq_some_iff.1 hminus
    rw [signed?_minus]
    constructor
    · rintro ⟨n, hn, hle, rfl⟩
      exact ⟨.minus hn, by omega, by omega⟩
    · rintro ⟨h, hl, -⟩
      generalize hs : '-' :: r = s at h
      cases h with
      | plain h =>
        subst hs
        exact absurd h.isDigits not_isDigits_minus
      | minus h =>
        cases hs
        exact ⟨_, h, by omega, rfl⟩
  · rw [signed?_plain hminus]
    constructor
    · rintro ⟨n, hn, hlt, rfl⟩
      exact ⟨.plain hn, by omega, by omega⟩
    · rintro ⟨h, -, hu⟩
      cases h with
      | plain h => exact ⟨_, h, by omega, rfl⟩
      | minus h => exact absurd rfl hminus

end OData.Text.Numeral
