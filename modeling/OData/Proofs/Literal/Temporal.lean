import Mathlib.Data.List.Forall2
import OData.Literal.Temporal
import OData.Proofs.Text.Numeral

/-!
# The shapes of dates and times

A quoted text is a date, a time of day, an instant or none of these.  The shapes are stated here
for whole texts (`Shape.Fits`), with every optional part a case of its own, while the readers
take one part after the other off the front of a text and never go back.  The two agree
(`Shape.test_iff`): a time of day may be read with whatever follows it, as long as that does not
go on with it, and no offset does.

No text has two shapes, so it does not matter in which order they are tried.  An instant is a
date and a time of day with the letter `T` between them, and an offset, in one way only
(`ofQuoted_shapes`).
-/
namespace OData.Temporal
open Text Text.Numeral

/-! ## Shapes -/

/-- A character stands for one of a shape: any digit for a zero, and else the same. -/
def StandsFor (c p : Char) : Prop := if p = '0' then isDigit c = true else c = p

/-- A text has a shape, character by character. -/
def HasShape (shape s : List Char) : Prop := List.Forall₂ StandsFor s shape

/-- The shape of a date. -/
def IsDate (s : List Char) : Prop := HasShape "0000-00-00".toList s

/-- The shape of a time of day: hours and minutes, or seconds too, or a fraction too. -/
inductive IsTimeOfDay : List Char → Prop
  | minutes {s : List Char} : HasShape "00:00".toList s → IsTimeOfDay s
  | seconds {s : List Char} : HasShape "00:00:00".toList s → IsTimeOfDay s
  | fraction {s digits : List Char} :
    HasShape "00:00:00".toList s → IsDigits digits → IsTimeOfDay (s ++ '.' :: digits)

/-- The shape of an offset: the letter `Z`, or a sign, hours and minutes. -/
inductive IsOffset : List Char → Prop
  | zero : IsOffset ['Z']
  | signed {sign : Char} {s : List Char} :
    sign = '+' ∨ sign = '-' → HasShape "00:00".toList s → IsOffset (sign :: s)

/-- The shape of an instant. -/
inductive IsInstant : List Char → Prop
  | mk {date time offset : List Char} : IsDate date → IsTimeOfDay time → IsOffset offset →
    IsInstant (date ++ 'T' :: (time ++ offset))

section Readers
variable {shape shape' s t rest : List Char} {c p : Char}

theorem hasShape_cons :
    HasShape (p :: shape) s ↔ ∃ c r, StandsFor c p ∧ HasShape shape r ∧ s = c :: r :=
  List.forall₂_cons_right_iff

theorem hasShape_digit :
    HasShape ('0' :: shape) s ↔ ∃ d r, isDigit d = true ∧ HasShape shape r ∧ s = d :: r := by
  simp [hasShape_cons, StandsFor]

theorem hasShape_mark (hp : p ≠ '0') :
    HasShape (p :: shape) s ↔ ∃ r, HasShape shape r ∧ s = p :: r := by
  simp [hasShape_cons, StandsFor, hp]

theorem hasShape_nil : HasShape [] s ↔ s = [] := List.forall₂_nil_right_iff

theorem hasShape_append :
    HasShape (shape ++ shape') s ↔ ∃ a b, HasShape shape a ∧ HasShape shape' b ∧ s = a ++ b := by
  constructor
  · intro h
    refine ⟨s.take shape.length, s.drop shape.length, ?_, ?_, (List.take_append_drop ..).symm⟩
    · exact List.forall₂_take_append s shape shape' h
    · exact List.forall₂_drop_append s shape shape' h
  · rintro ⟨a, b, ha, hb, rfl⟩
    exact List.rel_append ha hb

theorem HasShape.length_eq (h : HasShape shape s) : s.length = shape.length :=
  List.Forall₂.length_eq h

/-! ## Reading a part -/

theorem munchShape_eq_some_iff :
    munchShape shape s = some rest ↔ ∃ t, HasShape shape t ∧ s = t ++ rest := by
  induction shape generalizing s with
  | nil => simp [munchShape, HasShape, eq_comm]
  | cons p shape ih =>
    have hstands : ∀ c : Char,
        (if p = '0' then isDigit c else c == p) = true ↔ StandsFor c p := by
      intro c
      by_cases hp : p = '0' <;> simp [StandsFor, hp]
    cases s with
    | nil => simp [munchShape, hasShape_cons]
    | cons c s =>
      simp only [munchShape, hstands, Option.ite_none_right_eq_some, ih, hasShape_cons]
      constructor
      · rintro ⟨hc, t, ht, rfl⟩
        exact ⟨c :: t, ⟨c, t, hc, ht, rfl⟩, rfl⟩
      · rintro ⟨_, ⟨c', t, hc, ht, rfl⟩, h⟩
        cases h
        exact ⟨hc, t, ht, rfl⟩

/-- What has a shape is read, whatever follows. -/
theorem munchShape_append (h : HasShape shape t) (rest : List Char) :
    munchShape shape (t ++ rest) = some rest :=
  munchShape_eq_some_iff.2 ⟨t, h, rfl⟩

/-- Where another character stands than the first of a shape, that is not read. -/
theorem munchShape_eq_none (hp : p ≠ '0') (h : ∀ c ∈ s.head?, c ≠ p) :
    munchShape (p :: shape) s = none := by
  cases s with
  | nil => rfl
  | cons c s =>
    have hc : c ≠ p := h c rfl
    simp [munchShape, hp, hc]

/-! ## Reading a time of day -/

/-- A text does not go on with a time of day that stands before it. -/
def Closes (rest : List Char) : Prop :=
  ∀ c ∈ rest.head?, isDigit c = false ∧ c ≠ ':' ∧ c ≠ '.'

theorem IsOffset.closes (h : IsOffset s) : Closes s := by
  cases h with
  | zero => rintro c ⟨⟩; decide
  | signed hsign _ => rintro c ⟨⟩; rcases hsign with rfl | rfl <;> decide

/-- A fraction begins with a point and a digit. -/
theorem hasShape_point :
    HasShape ".0".toList s ↔ ∃ d, isDigit d = true ∧ s = ['.', d] := by
  have hshape : ".0".toList = ['.', '0'] := rfl
  simp [hshape, hasShape_mark, hasShape_digit, hasShape_nil]

theorem munchFraction_append {digits : List Char} (h : IsDigits digits) (hr : Closes rest) :
    munchFraction ('.' :: (digits ++ rest)) = rest := by
  obtain ⟨d, r, rfl, hd⟩ := h.head
  have hread := munchShape_append (hasShape_point.2 ⟨d, hd, rfl⟩) (r ++ rest)
  have hdigits : ∀ c ∈ r, isDigit c = true := fun c hc => h.2 c (List.mem_cons_of_mem d hc)
  rw [List.cons_append, List.cons_append, List.nil_append] at hread
  rw [munchFraction, List.cons_append, hread]
  exact (span_append hdigits fun c hc => (hr c hc).1).2

theorem munchFraction_of_closes (hr : Closes rest) : munchFraction rest = rest := by
  have hnone : munchShape ".0".toList rest = none :=
    munchShape_eq_none (by decide) fun c hc => (hr c hc).2.2
  rw [munchFraction, hnone]

theorem munchSeconds_of_closes (hr : Closes rest) : munchSeconds rest = rest := by
  have hnone : munchShape ":00".toList rest = none :=
    munchShape_eq_none (by decide) fun c hc => (hr c hc).2.1
  rw [munchSeconds, hnone]

/-- Seconds are what is read after the minutes, and then a fraction. -/
theorem munchTimeOfDay_seconds (h : HasShape "00:00:00".toList t) (rest : List Char) :
    munchTimeOfDay (t ++ rest) = some (munchFraction rest) := by
  have hshape : "00:00:00".toList = "00:00".toList ++ ":00".toList := rfl
  rw [hshape, hasShape_append] at h
  obtain ⟨a, b, ha, hb, rfl⟩ := h
  rw [munchTimeOfDay, List.append_assoc, munchShape_append ha, Option.map_some, munchSeconds,
    munchShape_append hb]

/-- A time of day is read to its end, if what follows does not go on with it. -/
theorem munchTimeOfDay_append (h : IsTimeOfDay t) (hr : Closes rest) :
    munchTimeOfDay (t ++ rest) = some rest := by
  cases h with
  | minutes h =>
    rw [munchTimeOfDay, munchShape_append h, Option.map_some, munchSeconds_of_closes hr]
  | seconds h => rw [munchTimeOfDay_seconds h, munchFraction_of_closes hr]
  | fraction h hdigits =>
    rw [List.append_assoc, munchTimeOfDay_seconds h, List.cons_append,
      munchFraction_append hdigits hr]

/-- A fraction is taken off, or nothing is. -/
theorem exists_of_munchFraction (s : List Char) :
    munchFraction s = s ∨ ∃ digits, IsDigits digits ∧ s = '.' :: (digits ++ munchFraction s) := by
  cases h : munchShape ".0".toList s with
  | none => exact .inl (by rw [munchFraction, h])
  | some r =>
    obtain ⟨t, ht, rfl⟩ := munchShape_eq_some_iff.1 h
    obtain ⟨d, hd, rfl⟩ := hasShape_point.1 ht
    refine .inr ⟨d :: r.takeWhile isDigit, ⟨by simp, ?_⟩, ?_⟩
    · exact List.forall_mem_cons.2
        ⟨hd, fun c hc => List.all_eq_true.1 (List.all_takeWhile (l := r)) c hc⟩
    · rw [munchFraction, h]
      simp only [List.cons_append, List.nil_append, List.takeWhile_append_dropWhile]

/-- What is read as a time of day has the shape of one. -/
theorem exists_of_munchTimeOfDay (h : munchTimeOfDay s = some rest) :
    ∃ time, IsTimeOfDay time ∧ s = time ++ rest := by
  obtain ⟨r, hr, rfl⟩ := Option.map_eq_some_iff.1 h
  obtain ⟨minutes, hminutes, rfl⟩ := munchShape_eq_some_iff.1 hr
  cases hseconds : munchShape ":00".toList r with
  | none =>
    rw [munchSeconds, hseconds]
    exact ⟨minutes, .minutes hminutes, rfl⟩
  | some r' =>
    obtain ⟨seconds, hs, rfl⟩ := munchShape_eq_some_iff.1 hseconds
    have hshape : HasShape "00:00:00".toList (minutes ++ seconds) :=
      hasShape_append.2 ⟨minutes, seconds, hminutes, hs, rfl⟩
    rw [munchSeconds, hseconds]
    rcases exists_of_munchFraction r' with hnone | ⟨digits, hdigits, hsome⟩
    · refine ⟨_, .seconds hshape, ?_⟩
      simp only [hnone, List.append_assoc]
    · refine ⟨_, .fraction hshape hdigits, ?_⟩
      conv_lhs => rw [hsome]
      simp only [List.append_assoc, List.cons_append]

/-! ## Reading an offset -/

theorem munchOffset_eq_some_iff :
    munchOffset s = some rest ↔ ∃ offset, IsOffset offset ∧ s = offset ++ rest := by
  constructor
  · intro h
    unfold munchOffset at h
    split at h
    · cases h
      exact ⟨_, .zero, rfl⟩
    · obtain ⟨t, ht, rfl⟩ := munchShape_eq_some_iff.1 h
      exact ⟨_, .signed (.inl rfl) ht, rfl⟩
    · obtain ⟨t, ht, rfl⟩ := munchShape_eq_some_iff.1 h
      exact ⟨_, .signed (.inr rfl) ht, rfl⟩
    · cases h
  · rintro ⟨offset, hoffset, rfl⟩
    cases hoffset with
    | zero => rfl
    | signed hsign ht => rcases hsign with rfl | rfl <;> exact munchShape_append ht rest

/-! ## Whole texts -/

theorem isDate_iff : isDate s = true ↔ IsDate s := by
  rw [isDate, beq_iff_eq, munchDate, munchShape_eq_some_iff]
  simp [IsDate]

theorem isTimeOfDay_iff : isTimeOfDay s = true ↔ IsTimeOfDay s := by
  rw [isTimeOfDay, beq_iff_eq]
  constructor
  · intro h
    obtain ⟨time, htime, rfl⟩ := exists_of_munchTimeOfDay h
    rwa [List.append_nil]
  · intro h
    have hread : munchTimeOfDay (s ++ []) = some [] := munchTimeOfDay_append h nofun
    rwa [List.append_nil] at hread

/-- The part of an instant in front of the time of day. -/
theorem hasShape_dateT :
    HasShape "0000-00-00T".toList s ↔ ∃ date, IsDate date ∧ s = date ++ ['T'] := by
  have hshape : "0000-00-00T".toList = "0000-00-00".toList ++ ['T'] := rfl
  have hmark : ∀ t, HasShape ['T'] t ↔ t = ['T'] := by simp [hasShape_mark, hasShape_nil]
  rw [hshape, hasShape_append]
  exact exists_congr fun date => by simp [hmark, IsDate, exists_and_left]

theorem munchInstant_append {date time offset : List Char} (hdate : IsDate date)
    (htime : IsTimeOfDay time) (hoffset : IsOffset offset) :
    munchInstant (date ++ 'T' :: (time ++ offset)) = some [] := by
  have hread := munchShape_append (hasShape_dateT.2 ⟨date, hdate, rfl⟩) (time ++ offset)
  rw [List.append_assoc, List.cons_append, List.nil_append] at hread
  have hoff : munchOffset offset = some [] :=
    munchOffset_eq_some_iff.2 ⟨offset, hoffset, (List.append_nil _).symm⟩
  simp only [munchInstant, hread, Option.bind_eq_bind, Option.bind_some,
    munchTimeOfDay_append htime hoffset.closes, hoff]

theorem isInstant_iff : isInstant s = true ↔ IsInstant s := by
  rw [isInstant, beq_iff_eq]
  constructor
  · intro h
    simp only [munchInstant, Option.bind_eq_bind, Option.bind_eq_some_iff] at h
    obtain ⟨r, hread, r', htime, hoffset⟩ := h
    obtain ⟨t, ht, rfl⟩ := munchShape_eq_some_iff.1 hread
    obtain ⟨date, hdate, rfl⟩ := hasShape_dateT.1 ht
    obtain ⟨time, htimeOfDay, rfl⟩ := exists_of_munchTimeOfDay htime
    obtain ⟨offset, hoff, rfl⟩ := munchOffset_eq_some_iff.1 hoffset
    simp only [List.append_nil, List.append_assoc, List.cons_append, List.nil_append]
    exact .mk hdate htimeOfDay hoff
  · rintro ⟨hdate, htime, hoffset⟩
    exact munchInstant_append hdate htime hoffset

end Readers

/-! ## No text has two shapes -/

section Apart
variable {s : List Char}

theorem IsDate.length_eq (h : IsDate s) : s.length = 10 := HasShape.length_eq h

/-- A date has a digit where a time of day has its colon. -/
theorem IsDate.third (h : IsDate s) : ∀ c ∈ s[2]?, isDigit c = true := by
  have hshape : "0000-00-00".toList = '0' :: '0' :: '0' :: "0-00-00".toList := rfl
  rw [IsDate, hshape, hasShape_digit] at h
  obtain ⟨_, _, -, hsecond, rfl⟩ := h
  obtain ⟨_, _, -, hthird, rfl⟩ := hasShape_digit.1 hsecond
  obtain ⟨d, _, hd, -, rfl⟩ := hasShape_digit.1 hthird
  rintro c ⟨⟩
  exact hd

theorem IsTimeOfDay.third (h : IsTimeOfDay s) : s[2]? = some ':' := by
  have hcolon : ∀ {shape t : List Char}, HasShape ('0' :: '0' :: ':' :: shape) t →
      t[2]? = some ':' := by
    intro shape t ht
    obtain ⟨_, _, -, hsecond, rfl⟩ := hasShape_digit.1 ht
    obtain ⟨_, _, -, hthird, rfl⟩ := hasShape_digit.1 hsecond
    obtain ⟨_, -, rfl⟩ := (hasShape_mark (by decide)).1 hthird
    rfl
  cases h with
  | minutes h | seconds h => exact hcolon h
  | fraction h _ =>
    have hlength := h.length_eq
    rw [List.getElem?_append_left (by rw [hlength]; decide)]
    exact hcolon h

theorem IsInstant.third (h : IsInstant s) : ∀ c ∈ s[2]?, isDigit c = true := by
  obtain ⟨hdate, -, -⟩ := h
  rw [List.getElem?_append_left (by rw [hdate.length_eq]; decide)]
  exact hdate.third

theorem IsDate.not_isTimeOfDay (h : IsDate s) : ¬ IsTimeOfDay s := fun ht =>
  absurd (h.third ':' ht.third) (by decide)

theorem IsInstant.not_isTimeOfDay (h : IsInstant s) : ¬ IsTimeOfDay s := fun ht =>
  absurd (h.third ':' ht.third) (by decide)

/-- An instant is longer than its date. -/
theorem IsInstant.not_isDate (h : IsInstant s) : ¬ IsDate s := by
  intro hs
  have hlength := hs.length_eq
  obtain ⟨hdate, -, -⟩ := h
  rw [List.length_append, hdate.length_eq, List.length_cons] at hlength
  omega

/-- An instant is taken apart in one way: a date has one length, and the reader of the time
of day leaves the offset. -/
theorem instant_parts_unique {date time offset date' time' offset' : List Char}
    (hdate : IsDate date) (htime : IsTimeOfDay time) (hoffset : IsOffset offset)
    (hdate' : IsDate date') (htime' : IsTimeOfDay time') (hoffset' : IsOffset offset')
    (h : date ++ 'T' :: (time ++ offset) = date' ++ 'T' :: (time' ++ offset')) :
    date = date' ∧ time = time' ∧ offset = offset' := by
  obtain ⟨rfl, hrest⟩ := List.append_inj h (hdate.length_eq.trans hdate'.length_eq.symm)
  have hrest := (List.cons.inj hrest).2
  have hread := munchTimeOfDay_append htime hoffset.closes
  rw [hrest, munchTimeOfDay_append htime' hoffset'.closes] at hread
  obtain rfl := Option.some.inj hread
  exact ⟨rfl, List.append_cancel_right hrest, rfl⟩

end Apart

/-! ## Literals -/

/-- **The shapes that tell a literal from a plain string.** -/
inductive Shape where
  | date
  | timeOfDay
  | instant
  deriving DecidableEq, Repr

namespace Shape

/-- **A text has the shape.** -/
def Fits : Shape → List Char → Prop
  | date => IsDate
  | timeOfDay => IsTimeOfDay
  | instant => IsInstant

/-- The reader that tells whether a text has the shape. -/
def test : Shape → List Char → Bool
  | date => isDate
  | timeOfDay => isTimeOfDay
  | instant => isInstant

/-- The literal of a text with the shape. -/
def literal : Shape → String → Literal
  | date => .date
  | timeOfDay => .timeOfDay
  | instant => .dateTimeOffset

variable {shape shape' : Shape} {s : List Char} {text : String}

theorem test_iff : shape.test s = true ↔ shape.Fits s := by
  cases shape with
  | date => exact isDate_iff
  | timeOfDay => exact isTimeOfDay_iff
  | instant => exact isInstant_iff

/-- **No text has two shapes.** -/
theorem Fits.unique (h : shape.Fits s) (h' : shape'.Fits s) : shape = shape' := by
  cases shape <;> cases shape'
  case date.date | timeOfDay.timeOfDay | instant.instant => rfl
  case date.timeOfDay => exact absurd h' (IsDate.not_isTimeOfDay h)
  case timeOfDay.date => exact absurd h (IsDate.not_isTimeOfDay h')
  case date.instant => exact absurd h (IsInstant.not_isDate h')
  case instant.date => exact absurd h' (IsInstant.not_isDate h)
  case timeOfDay.instant => exact absurd h (IsInstant.not_isTimeOfDay h')
  case instant.timeOfDay => exact absurd h' (IsInstant.not_isTimeOfDay h)

theorem literal_injective (h : shape.literal text = shape'.literal text) : shape = shape' := by
  cases shape <;> cases shape' <;> first | rfl | cases h

theorem literal_ne_string : shape.literal text ≠ .string text := by
  cases shape <;> exact nofun

/-- **The literal of a text whose shape is looked for in some order.** -/
def firstOf (order : List Shape) (text : String) : Literal :=
  match order.find? fun shape => shape.test text.toList with
  | some shape => shape.literal text
  | none => .string text

theorem firstOf_of_fits {order : List Shape} (hmem : shape ∈ order) (h : shape.Fits text.toList) :
    firstOf order text = shape.literal text := by
  cases hfind : order.find? fun shape => shape.test text.toList with
  | none => exact absurd (test_iff.2 h) (List.find?_eq_none.1 hfind shape hmem)
  | some found =>
    have hfound := List.find?_some hfind
    rw [firstOf, hfind, (test_iff.1 hfound).unique h]

theorem firstOf_of_not_fits (order : List Shape)
    (h : ∀ shape : Shape, ¬ shape.Fits text.toList) : firstOf order text = .string text := by
  have hfind : (order.find? fun shape => shape.test text.toList) = none :=
    List.find?_eq_none.2 fun shape _ htest => h shape (test_iff.1 htest)
  rw [firstOf, hfind]

theorem ofQuoted_eq (text : String) :
    Literal.ofQuoted text = firstOf [date, timeOfDay, instant] text := by
  simp only [Literal.ofQuoted, firstOf, List.find?, test]
  cases isDate text.toList <;> cases isTimeOfDay text.toList <;>
    cases isInstant text.toList <;> rfl

theorem mem_all (shape : Shape) : shape ∈ [date, timeOfDay, instant] := by
  cases shape <;> decide

theorem ofQuoted_eq_literal_iff (shape : Shape) :
    Literal.ofQuoted text = shape.literal text ↔ shape.Fits text.toList := by
  rw [ofQuoted_eq]
  constructor
  · intro h
    by_cases hany : ∃ found : Shape, found.Fits text.toList
    · obtain ⟨found, hfound⟩ := hany
      rw [firstOf_of_fits (mem_all found) hfound] at h
      exact literal_injective h ▸ hfound
    · rw [firstOf_of_not_fits _ (not_exists.1 hany)] at h
      exact absurd h.symm literal_ne_string
  · exact firstOf_of_fits (mem_all shape)

/-- The order of the tests does not matter. -/
theorem firstOf_eq {order : List Shape} (h : ∀ shape, shape ∈ order) :
    firstOf order text = Literal.ofQuoted text := by
  rw [ofQuoted_eq]
  by_cases hany : ∃ shape : Shape, shape.Fits text.toList
  · obtain ⟨shape, hshape⟩ := hany
    rw [firstOf_of_fits (h shape) hshape, firstOf_of_fits (mem_all shape) hshape]
  · rw [firstOf_of_not_fits _ (not_exists.1 hany), firstOf_of_not_fits _ (not_exists.1 hany)]

end Shape

open Shape

/-- **A text is an instant made of three parts.** -/
structure IsMadeOf (text date time offset : String) : Prop where
  text_eq : text = date ++ "T" ++ time ++ offset
  date : Literal.ofQuoted date = .date date
  time : Literal.ofQuoted time = .timeOfDay time
  offset : IsOffset offset.toList

section Parts
variable {text date time offset date' time' offset' : String}

theorem ofQuoted_eq_date_iff : Literal.ofQuoted text = .date text ↔ IsDate text.toList :=
  ofQuoted_eq_literal_iff .date

theorem ofQuoted_eq_timeOfDay_iff :
    Literal.ofQuoted text = .timeOfDay text ↔ IsTimeOfDay text.toList :=
  ofQuoted_eq_literal_iff .timeOfDay

theorem IsMadeOf.toList_eq (h : IsMadeOf text date time offset) :
    text.toList = date.toList ++ 'T' :: (time.toList ++ offset.toList) := by
  rw [h.text_eq]
  simp

theorem IsMadeOf.unique (h : IsMadeOf text date time offset)
    (h' : IsMadeOf text date' time' offset') : date = date' ∧ time = time' ∧ offset = offset' := by
  obtain ⟨hdate, htime, hoffset⟩ := instant_parts_unique
    (ofQuoted_eq_date_iff.1 h.date) (ofQuoted_eq_timeOfDay_iff.1 h.time) h.offset
    (ofQuoted_eq_date_iff.1 h'.date) (ofQuoted_eq_timeOfDay_iff.1 h'.time) h'.offset
    (h.toList_eq.symm.trans h'.toList_eq)
  exact ⟨String.toList_inj.1 hdate, String.toList_inj.1 htime, String.toList_inj.1 hoffset⟩

/-- The instants are the texts made of three parts. -/
theorem isInstant_iff_exists_isMadeOf :
    IsInstant text.toList ↔ ∃ date time offset, IsMadeOf text date time offset := by
  constructor
  · intro h
    generalize hs : text.toList = s at h
    obtain @⟨date, time, offset, hdate, htime, hoffset⟩ := h
    refine ⟨String.ofList date, String.ofList time, String.ofList offset, ?_, ?_, ?_, ?_⟩
    · rw [← String.toList_inj, hs]
      simp
    · rwa [ofQuoted_eq_date_iff, String.toList_ofList]
    · rwa [ofQuoted_eq_timeOfDay_iff, String.toList_ofList]
    · rwa [String.toList_ofList]
  · rintro ⟨date, time, offset, h⟩
    rw [h.toList_eq]
    exact .mk (ofQuoted_eq_date_iff.1 h.date) (ofQuoted_eq_timeOfDay_iff.1 h.time) h.offset

end Parts

/-- **A quoted text is classified by its shape.**  Its literal keeps the text; it is one of the
three literals just if the text has that shape, and a plain string just if the text has none.  No
text has two shapes, so the order of the tests does not matter.  The instants are the texts made of
a date, the letter `T`, a time of day and an offset, and each of them is made of such parts in
one way. -/
theorem ofQuoted_shapes (text : String) :
    (Literal.ofQuoted text = .string text ∨
      ∃ shape : Shape, Literal.ofQuoted text = shape.literal text) ∧
    (∀ shape : Shape, Literal.ofQuoted text = shape.literal text ↔ shape.Fits text.toList) ∧
    (∀ shape shape' : Shape, shape.Fits text.toList → shape'.Fits text.toList →
      shape = shape') ∧
    (∀ order : List Shape, (∀ shape, shape ∈ order) →
      firstOf order text = Literal.ofQuoted text) ∧
    (Literal.ofQuoted text = .dateTimeOffset text ↔
      ∃ date time offset, IsMadeOf text date time offset) ∧
    ∀ date time offset date' time' offset', IsMadeOf text date time offset →
      IsMadeOf text date' time' offset' → date = date' ∧ time = time' ∧ offset = offset' := by
  refine ⟨?_, ofQuoted_eq_literal_iff, fun _ _ => Fits.unique, fun _ => firstOf_eq, ?_,
    fun _ _ _ _ _ _ => IsMadeOf.unique⟩
  · by_cases hany : ∃ shape : Shape, shape.Fits text.toList
    · obtain ⟨shape, hshape⟩ := hany
      exact .inr ⟨shape, (ofQuoted_eq_literal_iff shape).2 hshape⟩
    · exact .inl ((ofQuoted_eq text).trans (firstOf_of_not_fits _ (not_exists.1 hany)))
  · have hinstant : Literal.ofQuoted text = .dateTimeOffset text ↔ IsInstant text.toList :=
      ofQuoted_eq_literal_iff .instant
    exact hinstant.trans isInstant_iff_exists_isMadeOf

/-- An instant with a fraction in front of its sign, tried last to first. -/
theorem ofQuoted_withFraction :
    firstOf [.instant, .timeOfDay, .date] "2016-04-01T21:00:00.123-07:00" =
        .dateTimeOffset "2016-04-01T21:00:00.123-07:00" ∧
      ∃ date time offset, IsMadeOf "2016-04-01T21:00:00.123-07:00" date time offset := by
  obtain ⟨-, -, -, horder, hparts, -⟩ := ofQuoted_shapes "2016-04-01T21:00:00.123-07:00"
  have hliteral : Literal.ofQuoted "2016-04-01T21:00:00.123-07:00" =
      .dateTimeOffset "2016-04-01T21:00:00.123-07:00" := by decide +kernel
  have hall : ∀ shape, shape ∈ [Shape.instant, .timeOfDay, .date] := by
    intro shape
    cases shape <;> decide
  exact ⟨(horder _ hall).trans hliteral, hparts.1 hliteral⟩

end OData.Temporal
