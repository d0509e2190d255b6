import Mathlib.Algebra.Group.Int.Defs
import Mathlib.Algebra.Group.Nat.Defs
import OData.Text.Numeral

/-!
# The shape of a number

A number is read as the longest text of a certain shape: an optional minus sign,
digits, an optional fraction and an optional exponent.  `IsNumber` states the shape,
and reading and shape agree: what is read has the shape (`isNumber_of_munch`), and
what has the shape is read, whatever follows, if that does not go on with it
(`munch_append`).
-/
namespace OData.Text

/-- **The longest part of some characters is cut off** in front of one that is none of them. -/
theorem span_append {p : Char → Bool} {s r : List Char} (hs : ∀ c ∈ s, p c = true)
    (hr : ∀ c ∈ r.head?, p c = false) :
    (s ++ r).takeWhile p = s ∧ (s ++ r).dropWhile p = r := by
  rw [List.takeWhile_append_of_pos hs, List.dropWhile_append_of_pos hs]
  cases r with
  | nil => exact ⟨List.append_nil s, rfl⟩
  | cons c r =>
    have hc : p c = false := hr c rfl
    constructor
    · rw [List.takeWhile_cons, hc, if_neg Bool.false_ne_true, List.append_nil]
    · rw [List.dropWhile_cons, hc, if_neg Bool.false_ne_true]

namespace Numeral

/-! ## Shapes -/

/-- At least one digit and nothing else. -/
def IsDigits (s : List Char) : Prop := s ≠ [] ∧ ∀ c ∈ s, isDigit c = true

/-- A fraction, or nothing. -/
inductive IsFraction : List Char → Prop
  | none : IsFraction []
  | some {s : List Char} : IsDigits s → IsFraction ('.' :: s)

/-- An exponent, or nothing. -/
inductive IsExponent : List Char → Prop
  | none : IsExponent []
  | some {c : Char} {sign s : List Char} :
      c = 'e' ∨ c = 'E' → sign = [] ∨ sign = ['+'] ∨ sign = ['-'] → IsDigits s →
      IsExponent (c :: (sign ++ s))

/-- The form of a number with the given fraction and exponent. -/
def Form.of (fraction exponent : List Char) : Form :=
  if exponent ≠ [] then .double else if fraction = [] then .integer else .decimal

/-- **The shape of a number** of some form. -/
inductive IsNumber : Form → List Char → Prop
  | mk {sign digits fraction exponent : List Char} :
      sign = [] ∨ sign = ['-'] → IsDigits digits → IsFraction fraction → IsExponent exponent →
      IsNumber (.of fraction exponent) (sign ++ (digits ++ (fraction ++ exponent)))

/-- **The text does not go on with a number** that stands before it. -/
def Leaves (s : List Char) : Prop := ∀ c ∈ s.head?, isWordPart c = false ∧ c ≠ '.'

theorem Leaves.nil : Leaves [] := by simp [Leaves]

theorem IsDigits.head {s : List Char} (h : IsDigits s) :
    ∃ c r, s = c :: r ∧ isDigit c = true := by
  obtain ⟨c, r, rfl⟩ := List.exists_cons_of_ne_nil h.1
  exact ⟨c, r, rfl, h.2 c (List.mem_cons_self ..)⟩

/-- A number begins with a digit or a minus sign. -/
theorem IsNumber.head {form : Form} {s : List Char} (h : IsNumber form s) :
    ∃ c r, s = c :: r ∧ (isDigit c = true ∨ c = '-' ∧ ∃ d t, r = d :: t ∧ isDigit d = true) := by
  obtain ⟨hsign, hD, -, -⟩ := h
  obtain ⟨d, r, rfl, hd⟩ := hD.head
  rcases hsign with rfl | rfl
  · exact ⟨d, _, rfl, .inl hd⟩
  · exact ⟨'-', _, rfl, .inr ⟨rfl, d, _, rfl, hd⟩⟩

theorem isWordPart_of_isDigit {c : Char} (h : isDigit c = true) : isWordPart c = true := by
  simp [isWordPart, h]

theorem isDigit_of_not_isWordPart {c : Char} (h : isWordPart c = false) : isDigit c = false := by
  simp only [isWordPart, Bool.or_eq_false_iff] at h
  exact h.2

/-! ## What is read has the shape -/

theorem isDigits_of_munchDigits {s a b : List Char} (h : munchDigits s = some (a, b)) :
    IsDigits a := by
  refine ⟨(append_of_munchDigits h).2, ?_⟩
  unfold munchDigits at h
  split at h
  · cases h
  · next d r hd =>
    cases h
    rw [← hd]
    exact fun c hc => List.all_eq_true.1 (List.all_takeWhile (l := s)) c hc

theorem isFraction_of_munchFraction {s a b : List Char} (h : munchFraction s = some (a, b)) :
    IsFraction a ∧ a ≠ [] := by
  unfold munchFraction at h
  split at h
  · obtain ⟨⟨x, y⟩, hp, he⟩ := Option.map_eq_some_iff.1 h
    cases he
    exact ⟨.some (isDigits_of_munchDigits hp), by simp⟩
  · cases h

theorem munchSign_fst (s : List Char) :
    (munchSign s).1 = [] ∨ (munchSign s).1 = ['+'] ∨ (munchSign s).1 = ['-'] := by
  unfold munchSign
  split <;> simp

theorem isExponent_of_munchExponent {s a b : List Char} (h : munchExponent s = some (a, b)) :
    IsExponent a ∧ a ≠ [] := by
  unfold munchExponent at h
  split at h
  · cases h
  · split at h
    · next hc =>
      obtain ⟨⟨x, y⟩, hp, he⟩ := Option.map_eq_some_iff.1 h
      cases he
      exact ⟨.some hc (munchSign_fst _) (isDigits_of_munchDigits hp), by simp⟩
    · cases h

/-- The fraction and the exponent that are read have their shapes and give the form. -/
theorem exists_of_munchTail (s : List Char) :
    ∃ fraction exponent, IsFraction fraction ∧ IsExponent exponent ∧
      (munchTail s).1 = .of fraction exponent ∧ (munchTail s).2.1 = fraction ++ exponent := by
  have hf : IsFraction ((munchFraction s).getD ([], s)).1 := by
    cases h : munchFraction s with
    | none => exact .none
    | some p => exact (isFraction_of_munchFraction h).1
  simp only [munchTail]
  split
  · next e r he =>
    obtain ⟨hE, hne⟩ := isExponent_of_munchExponent he
    exact ⟨_, e, hf, hE, by simp [Form.of, hne], rfl⟩
  · exact ⟨_, [], hf, .none, by simp [Form.of], by simp⟩

theorem isNumber_of_munchUnsigned {s text rest : List Char} {form : Form}
    (h : munchUnsigned s = some (form, text, rest)) (sign : List Char)
    (hs : sign = [] ∨ sign = ['-']) : IsNumber form (sign ++ text) := by
  obtain ⟨⟨a, b⟩, hp, he⟩ := Option.map_eq_some_iff.1 h
  simp only [Prod.mk.injEq] at he
  obtain ⟨rfl, rfl, -⟩ := he
  obtain ⟨fraction, exponent, hF, hE, hform, htext⟩ := exists_of_munchTail b
  rw [hform, htext]
  exact .mk hs (isDigits_of_munchDigits hp) hF hE

/-- **What is read as a number has the shape of one.** -/
theorem isNumber_of_munch {s text rest : List Char} {form : Form}
    (h : munch s = some (form, text, rest)) : IsNumber form text := by
  unfold munch at h
  split at h
  · obtain ⟨⟨a, b, c⟩, hp, he⟩ := Option.map_eq_some_iff.1 h
    cases he
    exact isNumber_of_munchUnsigned hp ['-'] (.inr rfl)
  · exact isNumber_of_munchUnsigned h [] (.inl rfl)

/-! ## What has the shape is read -/

theorem munchDigits_append {s r : List Char} (h : IsDigits s)
    (hr : ∀ c ∈ r.head?, isDigit c = false) : munchDigits (s ++ r) = some (s, r) := by
  obtain ⟨d, t, rfl, -⟩ := h.head
  obtain ⟨htake, hdrop⟩ := span_append h.2 hr
  rw [munchDigits, htake, hdrop]

theorem munchSign_append {sign s : List Char} (hsign : sign = [] ∨ sign = ['+'] ∨ sign = ['-'])
    (hs : IsDigits s) (r : List Char) : munchSign (sign ++ (s ++ r)) = (sign, s ++ r) := by
  obtain ⟨d, t, rfl, hd⟩ := hs.head
  rcases hsign with rfl | rfl | rfl
  · rw [List.nil_append, List.cons_append, munchSign]
    · rintro _ ⟨⟩; exact absurd hd (by decide)
    · rintro _ ⟨⟩; exact absurd hd (by decide)
  · rfl
  · rfl

theorem munchExponent_append {s r : List Char} (h : IsExponent s) (hr : Leaves r) :
    munchExponent (s ++ r) = if s = [] then none else some (s, r) := by
  have hdigit : ∀ c ∈ r.head?, isDigit c = false :=
    fun c hc => isDigit_of_not_isWordPart (hr c hc).1
  cases h with
  | none =>
    rw [if_pos rfl, List.nil_append]
    cases r with
    | nil => rfl
    | cons c r =>
      have hc := (hr c (by simp)).1
      rw [munchExponent, if_neg]
      rintro (rfl | rfl) <;> exact absurd hc (by decide)
  | @some c sign s hc hsign hs =>
    have hsplit := munchSign_append hsign hs r
    rw [if_neg (by simp), List.cons_append, munchExponent, if_pos hc, List.append_assoc]
    simp only [hsplit, munchDigits_append hs hdigit, Option.map_some]

theorem munchTail_append {fraction exponent r : List Char} (hF : IsFraction fraction)
    (hE : IsExponent exponent) (hr : Leaves r) :
    munchTail (fraction ++ (exponent ++ r)) =
      (.of fraction exponent, fraction ++ exponent, r) := by
  -- The fraction ends where the exponent or the rest begins, which is no digit.
  have hhead : ∀ c ∈ (exponent ++ r).head?, isDigit c = false ∧ c ≠ '.' := by
    cases hE with
    | none => exact fun c hc => ⟨isDigit_of_not_isWordPart (hr c hc).1, (hr c hc).2⟩
    | some hc => rintro c ⟨⟩; rcases hc with rfl | rfl <;> decide
  have hfraction : (munchFraction (fraction ++ (exponent ++ r))).getD
      ([], fraction ++ (exponent ++ r)) = (fraction, exponent ++ r) := by
    cases hF with
    | none =>
      rw [List.nil_append]
      unfold munchFraction
      split
      · next t ht => exact absurd rfl (hhead '.' (by rw [ht]; rfl)).2
      · rfl
    | some hs =>
      rw [List.cons_append, munchFraction, munchDigits_append hs fun c hc => (hhead c hc).1]
      rfl
  simp only [munchTail, hfraction, munchExponent_append hE hr]
  by_cases he : exponent = []
  · subst he
    simp [Form.of]
  · simp [Form.of, he]

/-- Without a sign the first character is a digit and not taken for one. -/
theorem munch_of_isDigits {s : List Char} (h : IsDigits s) (r : List Char) :
    munch (s ++ r) = munchUnsigned (s ++ r) := by
  obtain ⟨d, t, rfl, hd⟩ := h.head
  rw [List.cons_append, munch]
  rintro _ ⟨⟩
  exact absurd hd (by decide)

/-- **What has the shape of a number is read as one**, if what follows does not go on with
it. -/
theorem munch_append {s r : List Char} {form : Form} (h : IsNumber form s) (hr : Leaves r) :
    munch (s ++ r) = some (form, s, r) := by
  obtain @⟨sign, digits, fraction, exponent, hsign, hD, hF, hE⟩ := h
  -- So do the digits in front of both.
  have hhead : ∀ c ∈ (fraction ++ (exponent ++ r)).head?, isDigit c = false := by
    cases hF with
    | some => rintro c ⟨⟩; decide
    | none =>
      cases hE with
      | none => exact fun c hc => isDigit_of_not_isWordPart (hr c hc).1
      | some hc => rintro c ⟨⟩; rcases hc with rfl | rfl <;> decide
  have hunsigned : munchUnsigned (digits ++ (fraction ++ (exponent ++ r))) =
      some (.of fraction exponent, digits ++ (fraction ++ exponent), r) := by
    rw [munchUnsigned, munchDigits_append hD hhead]
    simp only [Option.map_some, munchTail_append hF hE hr]
  simp only [List.append_assoc]
  rcases hsign with rfl | rfl
  · rw [List.nil_append, munch_of_isDigits hD, hunsigned, List.nil_append]
  · simp only [List.cons_append, List.nil_append, munch, hunsigned, Option.map_some]

/-! ## The longest is read -/

/-- Digits are read with all digits that follow them. -/
theorem munchDigits_of_isDigits {s : List Char} (h : IsDigits s) (r : List Char) :
    munchDigits (s ++ r) = some (s ++ r.takeWhile isDigit, r.dropWhile isDigit) := by
  obtain ⟨d, t, rfl, -⟩ := h.head
  rw [munchDigits, List.takeWhile_append_of_pos h.2, List.dropWhile_append_of_pos h.2]
  rfl

/-- Where an exponent stands, one at least as long is read. -/
theorem exists_munchExponent {s : List Char} (h : IsExponent s) (hs : s ≠ []) (r : List Char) :
    ∃ t rest, munchExponent (s ++ r) = some (t, rest) ∧ s.length ≤ t.length := by
  cases h with
  | none => exact absurd rfl hs
  | @some c sign s hc hsign hdigits =>
    have hsplit := munchSign_append hsign hdigits r
    have hmunch := munchDigits_of_isDigits hdigits r
    rw [List.cons_append, munchExponent, if_pos hc, List.append_assoc]
    simp only [hsplit, hmunch, Option.map_some]
    refine ⟨_, _, rfl, ?_⟩
    simp only [List.length_cons, List.length_append]
    omega

/-- No digit stands where a fraction or an exponent begins. -/
theorem head_not_isDigit {fraction exponent : List Char} (hF : IsFraction fraction)
    (hE : IsExponent exponent) (hne : fraction ++ exponent ≠ []) (r : List Char) :
    ∀ c ∈ (fraction ++ (exponent ++ r)).head?, isDigit c = false := by
  cases hF with
  | some _ => rintro c ⟨⟩; decide
  | none =>
    cases hE with
    | none => exact absurd rfl hne
    | some hc _ _ => rintro c ⟨⟩; rcases hc with rfl | rfl <;> decide

/-- Where a fraction stands, one at least as long is read.  It ends where an exponent begins. -/
theorem exists_munchFraction {fraction exponent : List Char} (hF : IsFraction fraction)
    (hE : IsExponent exponent) (r : List Char) :
    ∃ more rest, (munchFraction (fraction ++ (exponent ++ r))).getD
      ([], fraction ++ (exponent ++ r)) = (fraction ++ more, rest) ∧
        (exponent ≠ [] → more = [] ∧ rest = exponent ++ r) := by
  cases hF with
  | none =>
    by_cases he : exponent = []
    · exact ⟨_, _, rfl, fun hne => absurd he hne⟩
    · have hnone : munchFraction (exponent ++ r) = none := by
        cases hE with
        | none => exact absurd rfl he
        | some hc _ _ =>
          unfold munchFraction
          split
          · next t ht =>
            have hdot := (List.cons.inj ht).1
            rcases hc with rfl | rfl <;> cases hdot
          · rfl
      rw [List.nil_append, hnone]
      exact ⟨[], _, rfl, fun _ => ⟨rfl, rfl⟩⟩
  | some hdigits =>
    have hmunch := munchDigits_of_isDigits hdigits (exponent ++ r)
    rw [List.cons_append, munchFraction, hmunch]
    exact ⟨_, _, rfl, fun he => span_append (s := []) nofun (head_not_isDigit .none hE he r)⟩

/-- Where a fraction and an exponent stand, what is read is at least as long. -/
theorem length_le_munchTail {fraction exponent : List Char} (hF : IsFraction fraction)
    (hE : IsExponent exponent) (r : List Char) :
    (fraction ++ exponent).length ≤ (munchTail (fraction ++ (exponent ++ r))).2.1.length := by
  obtain ⟨more, rest, hread, hrest⟩ := exists_munchFraction hF hE r
  simp only [munchTail, hread]
  by_cases he : exponent = []
  · subst he
    split
    · simp only [List.length_append, List.length_nil]
      omega
    · simp
  · obtain ⟨rfl, rfl⟩ := hrest he
    obtain ⟨t, rest, ht, hlength⟩ := exists_munchExponent hE he r
    simp only [ht, List.length_append]
    omega

/-- Where a number without sign stands, one at least as long is read. -/
theorem exists_munchUnsigned {digits fraction exponent : List Char} (hD : IsDigits digits)
    (hF : IsFraction fraction) (hE : IsExponent exponent) (r : List Char) :
    ∃ form t rest, munchUnsigned (digits ++ (fraction ++ (exponent ++ r))) = some (form, t, rest) ∧
      (digits ++ (fraction ++ exponent)).length ≤ t.length := by
  rw [munchUnsigned, munchDigits_of_isDigits hD]
  refine ⟨_, _, _, rfl, ?_⟩
  by_cases hne : fraction ++ exponent = []
  · simp only [hne, List.append_nil, List.length_append]
    omega
  · -- The digits end where the fraction or the exponent begins.
    obtain ⟨htake, hdrop⟩ := span_append (s := []) nofun (head_not_isDigit hF hE hne r)
    have hlength := length_le_munchTail hF hE r
    rw [List.nil_append] at htake hdrop
    simp only [htake, hdrop, List.append_nil, List.length_append] at hlength ⊢
    omega

/-- Where a number stands, one at least as long is read. -/
theorem exists_munch {s : List Char} {form : Form} (h : IsNumber form s) (r : List Char) :
    ∃ form' t rest, munch (s ++ r) = some (form', t, rest) ∧ s.length ≤ t.length := by
  obtain @⟨sign, digits, fraction, exponent, hsign, hD, hF, hE⟩ := h
  obtain ⟨form', t, rest, hmunch, hlength⟩ := exists_munchUnsigned hD hF hE r
  simp only [List.append_assoc]
  rcases hsign with rfl | rfl
  · refine ⟨form', t, rest, ?_, hlength⟩
    rw [List.nil_append, munch_of_isDigits hD]
    exact hmunch
  · refine ⟨form', '-' :: t, rest, ?_, Nat.succ_le_succ hlength⟩
    simp only [List.cons_append, List.nil_append, munch, hmunch, Option.map_some]

/-! ## Decimal digits -/

theorem value_toDigits (n : Nat) : value (Nat.toDigits 10 n) = n :=
  Nat.ofDigitChars_ten_toDigits

theorem isDigits_toDigits (n : Nat) : IsDigits (Nat.toDigits 10 n) := by
  refine ⟨Nat.toDigits_ne_nil, fun c hc => ?_⟩
  have h := Nat.isDigit_of_mem_toDigits (by decide) (by decide) hc
  simp only [Char.isDigit, Bool.and_eq_true, decide_eq_true_eq] at h
  simpa [isDigit, Char.le_def] using h

theorem unsigned?_toDigits {n : Nat} (h : n < 2 ^ 64) :
    unsigned? (Nat.toDigits 10 n) = some n := by
  have hd := isDigits_toDigits n
  rw [unsigned?, value_toDigits, if_pos ⟨hd.1, List.all_eq_true.2 hd.2, h⟩]

/-- The text of an integer: its decimal digits, after a minus sign if it is negative. -/
def signed (v : Int) : List Char :=
  if v < 0 then '-' :: Nat.toDigits 10 v.natAbs else Nat.toDigits 10 v.natAbs

theorem isNumber_signed (v : Int) : IsNumber .integer (signed v) := by
  have hd := isDigits_toDigits v.natAbs
  unfold signed
  split
  · simpa [Form.of] using @IsNumber.mk ['-'] _ [] [] (.inr rfl) hd .none .none
  · simpa [Form.of] using @IsNumber.mk [] _ [] [] (.inl rfl) hd .none .none

/-- An integer is the value of its text. -/
theorem signed?_signed {v : Int} (hl : -2 ^ 63 ≤ v) (hu : v < 2 ^ 63) :
    signed? (signed v) = some v := by
  have hd := isDigits_toDigits v.natAbs
  have hall := List.all_eq_true.2 hd.2
  unfold signed
  split
  · next hv =>
    have hle : v.natAbs ≤ 2 ^ 63 := by omega
    rw [signed?, if_pos ⟨hd.1, hall, by rwa [value_toDigits]⟩, value_toDigits]
    simp only [Option.some.injEq]
    omega
  · next hv =>
    have hlt : v.natAbs < 2 ^ 63 := by omega
    rw [signed?]
    · rw [if_pos ⟨hd.1, hall, by rwa [value_toDigits]⟩, value_toDigits]
      simp only [Option.some.injEq]
      omega
    · intro r hr
      have := hd.2 '-' (by rw [hr]; simp)
      exact absurd this (by decide)

end Numeral

end OData.Text
