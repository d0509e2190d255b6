import OData.Text.Basic

/-!
# Numbers as they are written

`munch` reads the longest number at the front of a text: an optional sign, a run
of digits, then a fraction and an exponent if they are complete.  What is not
complete stays outside the number, so `1.5e+` gives `1.5` and leaves `e+`.

Only integers have a value; it is exact, and `unsigned?` and `signed?` refuse the
texts whose value does not fit their 64 bits.
-/

namespace OData.Text.Numeral

/-- The three forms of a number, told apart by its fraction and its exponent. -/
inductive Form where
  | integer
  | decimal
  | double
  deriving DecidableEq, Repr

/-- A run of digits at the front of a text, if there is at least one, and what follows it. -/
def munchDigits (s : List Char) : Option (List Char × List Char) :=
  match s.takeWhile isDigit with
  | [] => none
  | d :: r => some (d :: r, s.dropWhile isDigit)

/-- A complete fraction at the front of a text: a point and at least one digit. -/
def munchFraction : List Char → Option (List Char × List Char)
  | '.' :: r => (munchDigits r).map fun p => ('.' :: p.1, p.2)
  | _ => none

/-- A sign at the front of a text, if there is one. -/
def munchSign : List Char → List Char × List Char
  | '+' :: r => (['+'], r)
  | '-' :: r => (['-'], r)
  | s => ([], s)

/-- A complete exponent at the front of a text: its letter, an optional sign, and
at least one digit. -/
def munchExponent : List Char → Option (List Char × List Char)
  | [] => none
  | c :: r =>
    if c = 'e' ∨ c = 'E' then
      let sign := munchSign r
      (munchDigits sign.2).map fun p => (c :: (sign.1 ++ p.1), p.2)
    else none

/-- What follows the first digits of a number: its form, the text of its fraction
and exponent, and the rest. -/
def munchTail (s : List Char) : Form × List Char × List Char :=
  let fraction := (munchFraction s).getD ([], s)
  match munchExponent fraction.2 with
  | some (exponent, rest) => (.double, fraction.1 ++ exponent, rest)
  | none => (if fraction.1 = [] then .integer else .decimal, fraction)

/-- A number without sign at the front of a text: its form, its text and the rest. -/
def munchUnsigned (s : List Char) : Option (Form × List Char × List Char) :=
  (munchDigits s).map fun p =>
    let tail := munchTail p.2
    (tail.1, p.1 ++ tail.2.1, tail.2.2)

/-- **The longest number at the front of a text**: its form, its text and the rest. -/
def munch : List Char → Option (Form × List Char × List Char)
  | '-' :: r => (munchUnsigned r).map fun p => (p.1, '-' :: p.2.1, p.2.2)
  | s => munchUnsigned s

/-! ### Reading takes nothing but the number -/

theorem append_of_munchDigits {s text rest : List Char} (h : munchDigits s = some (text, rest)) :
    text ++ rest = s ∧ text ≠ [] := by
  unfold munchDigits at h
  split at h
  · simp at h
  · next d r hd =>
    simp only [Option.some.injEq, Prod.mk.injEq] at h
    obtain ⟨rfl, rfl⟩ := h
    exact ⟨by rw [← hd]; exact List.takeWhile_append_dropWhile, by simp⟩

theorem append_of_munchFraction {s text rest : List Char}
    (h : munchFraction s = some (text, rest)) : text ++ rest = s := by
  unfold munchFraction at h
  split at h
  · obtain ⟨⟨a, b⟩, hp, he⟩ := Option.map_eq_some_iff.1 h
    simp only [Prod.mk.injEq] at he
    obtain ⟨rfl, rfl⟩ := he
    simp [(append_of_munchDigits hp).1]
  · simp at h

theorem append_munchSign (s : List Char) : (munchSign s).1 ++ (munchSign s).2 = s := by
  unfold munchSign
  split <;> rfl

theorem append_of_munchExponent {s text rest : List Char}
    (h : munchExponent s = some (text, rest)) : text ++ rest = s := by
  unfold munchExponent at h
  split at h
  · simp at h
  · next c r =>
    split at h
    · obtain ⟨⟨a, b⟩, hp, he⟩ := Option.map_eq_some_iff.1 h
      simp only [Prod.mk.injEq] at he
      obtain ⟨rfl, rfl⟩ := he
      simp only [List.cons_append, List.append_assoc, (append_of_munchDigits hp).1,
        append_munchSign]
    · simp at h

theorem append_munchTail (s : List Char) : (munchTail s).2.1 ++ (munchTail s).2.2 = s := by
  have hf : ((munchFraction s).getD ([], s)).1 ++ ((munchFraction s).getD ([], s)).2 = s := by
    cases h : munchFraction s with
    | none => rfl
    | some p => exact append_of_munchFraction h
  simp only [munchTail]
  split
  · next e rest he => rw [List.append_assoc, append_of_munchExponent he, hf]
  · exact hf

theorem append_of_munchUnsigned {s text rest : List Char} {form : Form}
    (h : munchUnsigned s = some (form, text, rest)) : text ++ rest = s ∧ text ≠ [] := by
  obtain ⟨⟨a, b⟩, hp, he⟩ := Option.map_eq_some_iff.1 h
  have hd := append_of_munchDigits hp
  simp only [Prod.mk.injEq] at he
  obtain ⟨-, rfl, rfl⟩ := he
  exact ⟨by rw [List.append_assoc, append_munchTail, hd.1], by simp [hd.2]⟩

/-- A number and what follows it are the text they were read from, and a number is not
empty. -/
theorem append_of_munch {s text rest : List Char} {form : Form}
    (h : munch s = some (form, text, rest)) : text ++ rest = s ∧ text ≠ [] := by
  unfold munch at h
  split at h
  · obtain ⟨⟨a, b, c⟩, hp, he⟩ := Option.map_eq_some_iff.1 h
    simp only [Prod.mk.injEq] at he
    obtain ⟨-, rfl, rfl⟩ := he
    simp [(append_of_munchUnsigned hp).1]
  · exact append_of_munchUnsigned h

/-! ### Values -/

/-- The value of a digit. -/
def digitValue (c : Char) : Nat := c.toNat - '0'.toNat

/-- **The value of a run of digits**, the most significant first. -/
def value (s : List Char) : Nat := s.foldl (fun n c => 10 * n + digitValue c) 0

/-- **A count of 64 bits**: at least one digit and nothing else, below `2 ^ 64`. -/
def unsigned? (s : List Char) : Option Nat :=
  if s ≠ [] ∧ s.all isDigit ∧ value s < 18446744073709551616 then some (value s) else none

/-- **A signed integer of 64 bits**: an optional minus sign and at least one digit,
from `-2 ^ 63` to below `2 ^ 63`. -/
def signed? (s : List Char) : Option Int :=
  match s with
  | '-' :: r =>
    if r ≠ [] ∧ r.all isDigit ∧ value r ≤ 9223372036854775808 then some (-(value r : Int))
    else none
  | r => if r ≠ [] ∧ r.all isDigit ∧ value r < 9223372036854775808 then some (value r) else none

end OData.Text.Numeral
