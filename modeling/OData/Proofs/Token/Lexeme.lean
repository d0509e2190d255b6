import OData.Proofs.Text.Numeral
import OData.Proofs.Text.Quoted
import OData.Token.Lexeme

/-!
# The shape of a token

Which kinds of tokens a text can have at all is a matter of how they are written:
a word is a name, a number has the shape of one, and so on.  `Kind.Spelled` states
it, and reading and spelling agree: what is read is spelled (`spelled_of_munch`), and
what is spelled is read off the front of a text, if what follows does not go on with
it (`munch_append`).  The two together say that a token is read from its own text
again.
-/
namespace OData
open Text

/-! ## Spelling -/

/-- A name: a character that may begin a word, and others that may continue it. -/
def IsNameText (s : List Char) : Prop :=
  ∃ c r, s = c :: r ∧ isWordStart c = true ∧ ∀ d ∈ r, isWordPart d = true

theorem isWordPart_of_isNameText {s : List Char} (h : IsNameText s) :
    ∀ c ∈ s, isWordPart c = true := by
  obtain ⟨d, r, rfl, hd, hr⟩ := h
  exact List.forall_mem_cons.2 ⟨by simp [isWordPart, hd], hr⟩

/-- **The kinds that a text can have**: what their texts look like. -/
def Kind.Spelled : Kind → Prop
  | .integer text => Numeral.IsNumber .integer text.toList
  | .decimal text => Numeral.IsNumber .decimal text.toList
  | .double text => Numeral.IsNumber .double text.toList
  | .parameter name => ∃ s, name.toList = '@' :: s ∧ IsNameText s
  | .word text => IsNameText text.toList ∨ ∃ s, text.toList = '$' :: s ∧ IsNameText s
  | .eof => False
  | _ => True

/-- **A text does not go on with a token** that stands before it. -/
def Kind.Leaves : Kind → List Char → Prop
  | .integer _, s | .decimal _, s | .double _, s => Numeral.Leaves s
  | .parameter _, s | .word _, s => ∀ c ∈ s.head?, isWordPart c = false
  | .string _, s => s.head? ≠ some Quoted.mark
  | _, _ => True

theorem Kind.Leaves.nil (k : Kind) : k.Leaves [] := by
  cases k <;> simp [Kind.Leaves, Numeral.Leaves.nil]

theorem Kind.Spelled.written_ne_nil {k : Kind} (h : k.Spelled) : k.written ≠ [] := by
  cases k with
  | integer | decimal | double =>
    obtain ⟨c, r, hs, -⟩ := Numeral.IsNumber.head h
    simp [Kind.written, hs]
  | parameter name =>
    obtain ⟨s, hs, -⟩ := h
    simp [Kind.written, hs]
  | word text =>
    rcases h with ⟨c, r, hs, -⟩ | ⟨s, hs, -⟩ <;> simp [Kind.written, hs]
  | eof => exact h.elim
  | _ => simp [Kind.written, Quoted.written]

namespace Lexeme

/-! ## What is read is spelled -/

theorem isNameText_of_munchName {s : List Char} {p : List Char × List Char}
    (h : munchName s = some p) : IsNameText p.1 := by
  cases s with
  | nil => cases h
  | cons c r =>
    rw [munchName] at h
    split at h
    · next hc =>
      cases h
      exact ⟨c, _, rfl, hc, fun d hd => List.all_eq_true.1 List.all_takeWhile d hd⟩
    · cases h

/-- **What is read is spelled.** -/
theorem spelled_of_munch {s : List Char} {p : Kind × List Char} (h : munch s = some p) :
    p.1.Spelled := by
  simp only [munch, Option.orElse_eq_orElse, Option.orElse_eq_or, Option.or_eq_some_iff] at h
  -- One case for each reader that may have read the token, in the order in which they are tried.
  rcases h with h | ⟨-, h | ⟨-, h | ⟨-, h | ⟨-, h | ⟨-, h⟩⟩⟩⟩⟩
  · cases s with
    | nil => cases h
    | cons c r =>
      obtain ⟨k, hk, rfl⟩ := Option.map_eq_some_iff.1 h
      unfold punctuation? at hk
      split at hk <;> cases hk <;> trivial
  · cases s with
    | nil => cases h
    | cons c r =>
      rw [munchString] at h
      split at h
      · obtain ⟨q, -, rfl⟩ := Option.map_eq_some_iff.1 h
        trivial
      · cases h
  · obtain ⟨⟨f, a, b⟩, hp, rfl⟩ := Option.map_eq_some_iff.1 h
    have := Numeral.isNumber_of_munch hp
    cases f <;> simpa [numberKind, Kind.Spelled] using this
  · unfold munchNegativeInfinity at h
    split at h <;> cases h
    trivial
  · unfold munchParameter at h
    split at h
    · obtain ⟨q, hq, rfl⟩ := Option.map_eq_some_iff.1 h
      exact ⟨q.1, by simp, isNameText_of_munchName hq⟩
    · cases h
  · unfold munchWord at h
    split at h
    · obtain ⟨q, hq, rfl⟩ := Option.map_eq_some_iff.1 h
      exact .inr ⟨q.1, by simp, isNameText_of_munchName hq⟩
    · obtain ⟨q, hq, rfl⟩ := Option.map_eq_some_iff.1 h
      exact .inl (by simpa using isNameText_of_munchName hq)

/-- A token is read off the front of a text that does not begin with a gap. -/
theorem ofText_of_munch {c : Char} {r rest : List Char} {k : Kind} (hc : isGap c = false)
    (hm : munch (c :: r) = some (k, rest)) : ofText (c :: r) = token k :: ofText rest := by
  rw [ofText.eq_def]
  simp only [hc, Bool.false_eq_true, if_false]
  split
  · next hm' =>
    rw [hm] at hm'
    cases hm'
    rfl
  · next hm' =>
    rw [hm] at hm'
    cases hm'

/-- Where there is no token, the first character is stray, or all of the text after a quote. -/
theorem ofText_of_munch_eq_none {c : Char} {r : List Char} (hc : isGap c = false)
    (hm : munch (c :: r) = none) :
    ofText (c :: r) = if c = Quoted.mark then [stray (c :: r)] else stray [c] :: ofText r := by
  rw [ofText.eq_def]
  simp only [hc, Bool.false_eq_true, if_false]
  split
  · next hm' =>
    rw [hm] at hm'
    cases hm'
  · rfl

/-- Every token of a text is spelled. -/
theorem spelled_of_mem_ofText (s : List Char) : ∀ {k}, token k ∈ ofText s → k.Spelled := by
  fun_induction ofText s with
  | case1 => intro k h; cases h
  | case2 c r hc ih =>
    intro k h
    rcases List.mem_cons.1 h with h | h
    · cases h
    · exact ih h
  | case3 c r hc kind rest hm ih =>
    intro k h
    rcases List.mem_cons.1 h with h | h
    · cases h
      exact spelled_of_munch hm
    · exact ih h
  | case4 r => intro k h; simp at h
  | case5 c r _ _ _ ih =>
    intro k h
    rcases List.mem_cons.1 h with h | h
    · cases h
    · exact ih h

/-- A gap of a text is white space. -/
theorem isGap_of_mem_ofText (s : List Char) {t : List Char}
    (ht : gap t ∈ ofText s) : ∀ c ∈ t, isGap c = true := by
  fun_induction ofText s with
  | case1 => cases ht
  | case2 c r hc ih =>
    rcases List.mem_cons.1 ht with ht | ht
    · cases ht
      exact List.forall_mem_cons.2 ⟨hc, fun d hd => List.all_eq_true.1 List.all_takeWhile d hd⟩
    · exact ih ht
  | case3 c r _ kind rest _ ih | case5 c r _ _ _ ih =>
    rcases List.mem_cons.1 ht with ht | ht
    · cases ht
    · exact ih ht
  | case4 r => simp at ht

/-! ## What is spelled is read -/

/-- A character that begins no token but a word or a number. -/
theorem punctuation?_of_isWordPart {c : Char} (h : isWordPart c = true) :
    punctuation? c = none ∧ c ≠ Quoted.mark ∧ c ≠ '-' ∧ c ≠ '@' ∧ c ≠ '$' := by
  refine ⟨?_, ?_, ?_, ?_, ?_⟩
  · unfold punctuation?
    split <;> first | rfl | exact absurd h (by decide)
  all_goals
    rintro rfl
    exact absurd h (by decide)

theorem isDigit_of_isWordStart {c : Char} (h : isWordStart c = true) : isDigit c = false := by
  simp only [isWordStart, isDigit, Char.le_def, Bool.or_eq_true, Bool.and_eq_true,
    decide_eq_true_eq, beq_iff_eq, UInt32.le_iff_toNat_le, Bool.and_eq_false_iff,
    decide_eq_false_iff_not] at *
  rcases h with (h | h) | rfl
  · right; have := h.1; simp at *; omega
  · right; have := h.1; simp at *; omega
  · decide

/-- No number begins with a character that is neither a digit nor a minus sign. -/
theorem munchNumber_eq_none {c : Char} {r : List Char} (hd : isDigit c = false) (hm : c ≠ '-') :
    munchNumber (c :: r) = none := by
  have h : Numeral.munch (c :: r) = Numeral.munchUnsigned (c :: r) := by
    rw [Numeral.munch]
    rintro _ ⟨⟩
    exact hm rfl
  rw [munchNumber, h]
  simp [Numeral.munchUnsigned, Numeral.munchDigits, hd]

theorem munchName_append {s r : List Char} (h : IsNameText s)
    (hr : ∀ c ∈ r.head?, isWordPart c = false) : munchName (s ++ r) = some (s, r) := by
  obtain ⟨c, t, rfl, hc, ht⟩ := h
  obtain ⟨htake, hdrop⟩ := span_append ht hr
  rw [List.cons_append, munchName, if_pos hc, htake, hdrop]

theorem munch_name {s r : List Char} (h : IsNameText s)
    (hr : ∀ c ∈ r.head?, isWordPart c = false) :
    munch (s ++ r) = some (.word (String.ofList s), r) := by
  have hname := munchName_append h hr
  obtain ⟨c, t, rfl, hc, ht⟩ := h
  obtain ⟨hp, hq, hm, ha, hw⟩ := punctuation?_of_isWordPart (c := c) (by simp [isWordPart, hc])
  have hn := munchNumber_eq_none (r := t ++ r) (isDigit_of_isWordStart hc) hm
  have hi : munchNegativeInfinity (c :: (t ++ r)) = none := by
    unfold munchNegativeInfinity
    split
    · next he => exact absurd (List.cons.inj he).1 hm
    · rfl
  have hat : munchParameter (c :: (t ++ r)) = none := by
    unfold munchParameter
    split
    · next he => exact absurd (List.cons.inj he).1 ha
    · rfl
  have hword : munchWord (c :: (t ++ r)) = some (.word (String.ofList (c :: t)), r) := by
    unfold munchWord
    split
    · next he => exact absurd (List.cons.inj he).1 hw
    · rw [← List.cons_append, hname]
      rfl
  rw [List.cons_append]
  simp [munch, munchPunctuation, munchString, hp, hq, hn, hi, hat, hword]

/-- Where there is a number, it is the token. -/
theorem munch_of_munchNumber {s : List Char} {p : Kind × List Char} (h : munchNumber s = some p) :
    munch s = some p := by
  obtain ⟨⟨form, t, rest⟩, hp, -⟩ := Option.map_eq_some_iff.1 h
  obtain ⟨c, t, rfl, hc⟩ := (Numeral.isNumber_of_munch hp).head
  obtain rfl : c :: (t ++ rest) = s := (Numeral.append_of_munch hp).1
  have hp : punctuation? c = none ∧ c ≠ Quoted.mark := by
    rcases hc with hc | ⟨rfl, -⟩
    · have := punctuation?_of_isWordPart (Numeral.isWordPart_of_isDigit hc)
      exact ⟨this.1, this.2.1⟩
    · decide
  simp [munch, munchPunctuation, munchString, hp.1, hp.2, h]

theorem munch_number {s r : List Char} {form : Numeral.Form} (h : Numeral.IsNumber form s)
    (hr : Numeral.Leaves r) :
    munch (s ++ r) = some (numberKind form (String.ofList s), r) := by
  refine munch_of_munchNumber ?_
  rw [munchNumber, Numeral.munch_append h hr]
  rfl

theorem munch_string (content : String) {r : List Char} (hr : r.head? ≠ some Quoted.mark) :
    munch (Quoted.written content.toList ++ r) = some (.string content, r) := by
  have hcloses : Quoted.Closes (Quoted.encode content.toList ++ Quoted.mark :: r)
      (Quoted.encode content.toList) r := ⟨rfl, Quoted.isPaired_encode _, hr⟩
  have hmunch := hcloses.munch
  rw [Quoted.collapse_encode] at hmunch
  have hp : punctuation? Quoted.mark = none := by decide
  simp [munch, munchPunctuation, munchString, Quoted.written, hp, hmunch]

/-- **What is spelled is read** off the front of a text, if what follows does not go on with
it. -/
theorem munch_append {k : Kind} {r : List Char} (h : k.Spelled) (hr : k.Leaves r) :
    munch (k.written ++ r) = some (k, r) := by
  cases k with
  | string content => exact munch_string content hr
  | integer text | decimal text | double text =>
    refine (munch_number h hr).trans ?_
    simp [numberKind]
  | negativeInfinity =>
    have hn : munchNumber ('-' :: 'I' :: 'N' :: 'F' :: r) = none := by
      simp [munchNumber, Numeral.munch, Numeral.munchUnsigned, Numeral.munchDigits, isDigit]
    have hp : punctuation? '-' = none := by decide
    have hq : ('-' : Char) ≠ Quoted.mark := by decide
    simp [Kind.written, munch, munchPunctuation, munchString, munchNegativeInfinity, hp, hq, hn]
  | parameter name =>
    obtain ⟨s, hs, hN⟩ := h
    have hname := munchName_append hN hr
    have hp : punctuation? '@' = none ∧ ('@' : Char) ≠ Quoted.mark := by decide
    have hn := munchNumber_eq_none (c := '@') (r := s ++ r) (by decide) (by decide)
    have hback : "@" ++ String.ofList s = name := String.toList_inj.1 (by simp [hs])
    simp [Kind.written, hs, munch, munchPunctuation, munchString, munchNegativeInfinity,
      munchParameter, hp.1, hp.2, hn, hname, hback]
  | word text =>
    rcases h with hN | ⟨s, hs, hN⟩
    · refine (munch_name hN hr).trans ?_
      simp
    · have hname := munchName_append hN hr
      have hp : punctuation? '$' = none ∧ ('$' : Char) ≠ Quoted.mark := by decide
      have hn := munchNumber_eq_none (c := '$') (r := s ++ r) (by decide) (by decide)
      have hback : "$" ++ String.ofList s = text := String.toList_inj.1 (by simp [hs])
      simp [Kind.written, hs, munch, munchPunctuation, munchString, munchNegativeInfinity,
        munchParameter, munchWord, hp.1, hp.2, hn, hname, hback]
  | eof => exact h.elim
  | _ => rfl

end Lexeme

/-- What is spelled is what is read from its own text. -/
theorem Kind.spelled_iff (k : Kind) : k.Spelled ↔ Lexeme.munch k.written = some (k, []) := by
  constructor
  · intro h
    have hm := Lexeme.munch_append h (Leaves.nil k)
    rwa [List.append_nil] at hm
  · exact fun h => Lexeme.spelled_of_munch h

instance : DecidablePred Kind.Spelled := fun k => decidable_of_iff _ k.spelled_iff.symm

/-! ## Whole texts -/

/-- No token begins with a gap. -/
theorem Kind.Spelled.head_not_isGap {k : Kind} (h : k.Spelled) :
    ∃ c r, k.written = c :: r ∧ isGap c = false := by
  obtain ⟨c, r, hw⟩ := List.exists_cons_of_ne_nil h.written_ne_nil
  refine ⟨c, r, hw, Bool.eq_false_iff.2 fun hc => ?_⟩
  have hm := Lexeme.munch_append h (Kind.Leaves.nil k)
  rw [List.append_nil, hw] at hm
  have hnone : Lexeme.munch (c :: r) = none := by
    simp only [isGap, Bool.or_eq_true, beq_iff_eq] at hc
    rcases hc with ((rfl | rfl) | rfl) | rfl <;>
      simp [Lexeme.munch, Lexeme.munchPunctuation, Lexeme.punctuation?, Lexeme.munchString,
        Quoted.mark, Lexeme.munchNumber, Numeral.munch, Numeral.munchUnsigned,
        Numeral.munchDigits, isDigit, Lexeme.munchNegativeInfinity, Lexeme.munchParameter,
        Lexeme.munchWord, Lexeme.munchName, isWordStart]
  rw [hnone] at hm
  cases hm

theorem Kind.Spelled.head?_append {k : Kind} (h : k.Spelled) (r : List Char) :
    ∀ c ∈ (k.written ++ r).head?, isGap c = false := by
  obtain ⟨c, s, hw, hc⟩ := h.head_not_isGap
  rw [hw]
  rintro d ⟨⟩
  exact hc

/-- No token goes on with a gap. -/
theorem Kind.leaves_of_isGap (k : Kind) {c : Char} (hc : isGap c = true) (r : List Char) :
    k.Leaves (c :: r) := by
  have hplain : isWordPart c = false ∧ c ≠ '.' ∧ c ≠ Quoted.mark := by
    simp only [isGap, Bool.or_eq_true, beq_iff_eq] at hc
    rcases hc with ((rfl | rfl) | rfl) | rfl <;> decide
  cases k with
  | integer | decimal | double =>
    rintro d ⟨⟩
    exact ⟨hplain.1, hplain.2.1⟩
  | parameter | word =>
    rintro d ⟨⟩
    exact hplain.1
  | string => exact fun h => hplain.2.2 (Option.some.inj h)
  | _ => trivial

namespace Lexeme

/-- The token at the front of a text is the first lexeme. -/
theorem ofText_of_munch_append {k : Kind} {r : List Char} (h : k.Spelled)
    (hm : munch (k.written ++ r) = some (k, r)) :
    ofText (k.written ++ r) = token k :: ofText r := by
  obtain ⟨c, t, hw, hc⟩ := h.head_not_isGap
  rw [hw, List.cons_append] at hm ⊢
  exact ofText_of_munch hc hm

/-- **A token is read whole**, if what follows does not go on with it. -/
theorem ofText_written_append {k : Kind} {r : List Char} (h : k.Spelled) (hr : k.Leaves r) :
    ofText (k.written ++ r) = token k :: ofText r :=
  ofText_of_munch_append h (munch_append h hr)

/-- **A gap is read whole**, if none follows. -/
theorem ofText_gap_append {g r : List Char} (hne : g ≠ []) (hg : ∀ c ∈ g, isGap c = true)
    (hr : ∀ c ∈ r.head?, isGap c = false) : ofText (g ++ r) = gap g :: ofText r := by
  obtain ⟨c, t, rfl⟩ := List.exists_cons_of_ne_nil hne
  obtain ⟨hc, ht⟩ := List.forall_mem_cons.1 hg
  obtain ⟨htake, hdrop⟩ := span_append ht hr
  rw [List.cons_append, ofText.eq_def]
  simp only [hc, if_true, htake, hdrop]

end Lexeme

end OData
