import OData.Proofs.Canonical.RoundTrip
import OData.Proofs.Query.OptionList
import OData.Proofs.Text.Decimal

/-!
# Integers are read exactly or refused

Two options are counts, `$top` and `$skip`, and integers are literals of expressions.  A count is
read where its text writes a number below `2 ^ 64`, and an integer where its token writes one from
`-2 ^ 63` to below `2 ^ 63`; how many zeros or digits there are plays no part.  What is read is the
number that is written.  Everything else is refused: a count with the option's own failure, and an
integer at its token, with nothing read (`integers_read_iff`).
-/
namespace OData
open Text Text.Numeral Grammar Options

/-- **An option that is a count**, and the value it gets. -/
inductive IsCount : QueryOption → (Nat → OptionValue) → Prop
  | top : IsCount .top .top
  | skip : IsCount .skip .skip

/-- **The text writes no count**: it is no digits, or those of a number that does not fit. -/
def WritesNoCount (s : List Char) : Prop := ¬ IsDigits s ∨ ∃ n, Writes n s ∧ 2 ^ 64 ≤ n

section Counts
variable {settings : Settings} {option : QueryOption} {set : Nat → OptionValue}

theorem IsCount.injective (h : IsCount option set) {n m : Nat}
    (he : Query.empty.assign (set n) = Query.empty.assign (set m)) : n = m := by
  cases h with
  | top => exact Option.some.inj (congrArg Query.top he)
  | skip => exact Option.some.inj (congrArg Query.skip he)

theorem IsCount.value_injective (h : IsCount option set) {n m : Nat} (he : set n = set m) :
    n = m :=
  h.injective (congrArg Query.empty.assign he)

/-! ## The value of an option -/

/-- A count is read off the text of its value, or is refused. -/
theorem IsCount.optionValue_eq (h : IsCount option set) (depth : Nat)
    (nested : Slice → Except Stop Query) (name : Span) (value : Slice) :
    optionValue settings depth nested ⟨option, name, value⟩ =
      match unsigned? value.text with
      | some n => .ok (set n)
      | none => .error (.refused ⟨.invalidValue option, ⟨name.start, value.stop⟩⟩) := by
  cases h <;> rfl

theorem IsCount.optionValue_iff (h : IsCount option set) (depth : Nat)
    (nested : Slice → Except Stop Query) (name : Span) (value : Slice) :
    (∀ n, optionValue settings depth nested ⟨option, name, value⟩ = .ok (set n) ↔
      Writes n value.text ∧ n < 2 ^ 64) ∧
    ((∃ f, optionValue settings depth nested ⟨option, name, value⟩ = .error (.refused f) ∧
        f.refusal = .ofRule ("invalid " ++ option.word ++ " parameter")
          ⟨name.start, value.stop⟩ .invalidParameter) ↔
      WritesNoCount value.text) := by
  rw [h.optionValue_eq, WritesNoCount, ← unsigned?_eq_none_iff]
  simp only [← unsigned?_eq_some_iff]
  cases unsigned? value.text with
  | none =>
    refine ⟨fun n => by simp, fun _ => rfl, fun _ => ⟨_, rfl, rfl⟩⟩
  | some m =>
    refine ⟨fun n => ⟨fun hn => ?_, fun hn => ?_⟩, fun hf => ?_, fun hnone => ?_⟩
    · rw [h.value_injective (Except.ok.inj hn)]
    · rw [Option.some.inj hn]
    · obtain ⟨f, hf, -⟩ := hf
      cases hf
    · cases hnone

/-! ## A text with one option -/

theorem toList_option (option : QueryOption) (text : String) :
    (option.word ++ "=" ++ text).toList = option.written text.toList := by
  simp [QueryOption.written]

/-- An option with a value is read as this one item, if nothing cuts the value. -/
theorem read_option (settings : Settings) (option : QueryOption) {text : String}
    (h : Unexposed '&' text.toList) :
    Query.read settings (option.word ++ "=" ++ text) =
      topValue settings ⟨option, (⟨option.word.toList, 0⟩ : Slice).span,
          ⟨text.toList, (⟨option.word.toList, 0⟩ : Slice).stop + '='.utf8Size⟩⟩ >>=
        fun v => .ok (Query.empty.assign v) := by
  have hdollar : (option.word ++ "=" ++ text).toList.head? = some '$' := by
    rw [toList_option]
    cases option <;> rfl
  have hwhole : Unexposed '&' (option.written text.toList) := by
    have hname : Fits '&' (option.written []) := fits_written (.inl rfl) .nil
    have hsplit : option.written text.toList = option.written [] ++ text.toList := by
      simp [QueryOption.written]
    rw [Unexposed, hsplit, Nesting.cut_append_eq_none, hname.1.after]
    exact ⟨hname.2, h⟩
  have hitems : (Slice.ofString (option.word ++ "=" ++ text) 0).split '&' =
      [⟨option.written text.toList, 0⟩] := by
    rw [Slice.ofString, toList_option, Slice.split, Nesting.split_of_cut_eq_none hwhole]
    rfl
  rw [read_of_dollar hdollar, hitems,
    assignAll_of_unseen (assignment?_written_at option text.toList 0) List.lookup_nil]
  rfl

/-- A text with a count sets it or is rejected, from its first character to its last. -/
theorem IsCount.parse_iff (h : IsCount option set) {text : String}
    (ht : Unexposed '&' text.toList) :
    (∀ n, parse settings (option.word ++ "=" ++ text) = .query (Query.empty.assign (set n)) ↔
      Writes n text.toList ∧ n < 2 ^ 64) ∧
    (parse settings (option.word ++ "=" ++ text) =
        .rejected ⟨"invalid " ++ option.word ++ " parameter",
          ⟨0, byteLength (option.word ++ "=" ++ text).toList⟩⟩ ↔
      WritesNoCount text.toList) := by
  have hread := read_option settings option ht
  rw [topValue, h.optionValue_eq] at hread
  rw [WritesNoCount, ← unsigned?_eq_none_iff]
  simp only [← unsigned?_eq_some_iff]
  have hstop : (⟨text.toList, (⟨option.word.toList, 0⟩ : Slice).stop + '='.utf8Size⟩ : Slice).stop =
      byteLength (option.word ++ "=" ++ text).toList := by
    rw [toList_option, QueryOption.written, byteLength_append, byteLength_cons]
    simp only [Slice.stop]
    omega
  cases hn : unsigned? text.toList with
  | none =>
    simp only [hn, hstop] at hread
    have hparse : parse settings (option.word ++ "=" ++ text) =
        .rejected ⟨"invalid " ++ option.word ++ " parameter",
          ⟨0, byteLength (option.word ++ "=" ++ text).toList⟩⟩ := by
      rw [parse, hread]
      rfl
    exact ⟨fun n => by simp [hparse], fun _ => rfl, fun _ => hparse⟩
  | some m =>
    simp only [hn] at hread
    have hparse : parse settings (option.word ++ "=" ++ text) =
        .query (Query.empty.assign (set m)) := parse_eq_query.2 hread
    rw [hparse]
    refine ⟨fun n => ⟨fun he => ?_, fun he => ?_⟩, fun he => ?_, fun he => ?_⟩
    · rw [h.injective (Verdict.query.inj he)]
    · rw [Option.some.inj he]
    · cases he
    · cases he

end Counts

/-! ## Literals -/

section Literals
variable {ctx : Context} {s t : State} {text : String}

/-- The literal of an integer token is its value, or there is none. -/
theorem literal_of_integer (h : s.cursor.current.kind = .integer text) :
    literal ctx s =
      match signed? text.toList with
      | some v => .ok (.integer v) s.advanced
      | none => .error (.refused ⟨.integerOutOfRange text, s.cursor.current.span⟩) s := by
  have hne : ¬ s.cursor.current.kind = .word "null" := by
    rw [h]
    exact nofun
  rw [literal, current_bind, if_neg hne, h, tokenLiteral]
  cases signed? text.toList <;> rfl

/-- An integer token is read as the integer that it writes, and the cursor moves past it, or it
is refused where it stands and nothing moves. -/
theorem literal_integer_iff (h : s.cursor.current.kind = .integer text)
    (htext : IsNumber .integer text.toList) :
    (∀ v, literal ctx s = .ok (.integer v) t ↔
      (WritesSigned v text.toList ∧ -2 ^ 63 ≤ v ∧ v < 2 ^ 63) ∧ t = s.advanced) ∧
    ((∃ f, literal ctx s = .error (.refused f) s ∧
        f.refusal = .ofForm ("integer literal " ++ text ++ " is out of range")
          s.cursor.current.span) ↔
      ∃ v, WritesSigned v text.toList ∧ (v < -2 ^ 63 ∨ 2 ^ 63 ≤ v)) := by
  rw [literal_of_integer h]
  simp only [← signed?_eq_some_iff]
  obtain ⟨w, hw⟩ := exists_writesSigned htext
  cases hsigned : signed? text.toList with
  | none =>
    have hout : ¬ (-2 ^ 63 ≤ w ∧ w < 2 ^ 63) := by
      intro hin
      have hsome := signed?_eq_some_iff.2 ⟨hw, hin⟩
      rw [hsigned] at hsome
      cases hsome
    refine ⟨fun v => by simp, fun _ => ⟨w, hw, by omega⟩, fun _ => ⟨_, rfl, rfl⟩⟩
  | some v =>
    obtain ⟨hv, hl, hu⟩ := signed?_eq_some_iff.1 hsigned
    refine ⟨fun v' => ⟨?_, ?_⟩, ?_, ?_⟩
    · intro he
      cases he
      exact ⟨rfl, rfl⟩
    · rintro ⟨he, rfl⟩
      rw [Option.some.inj he]
    · rintro ⟨f, hf, -⟩
      cases hf
    · rintro ⟨v', hv', hout⟩
      rw [hv'.unique hv] at hout
      omega

end Literals

/-- **Integers are read exactly or refused.**  A count is the number below `2 ^ 64` that its text
writes, as the value of an option and in a text of its own; other texts are invalid.  The literal of
an integer token is the integer in its range that the token writes; other tokens are refused, with
the place of the token and the state as it was. -/
theorem integers_read_iff (settings : Settings) :
    (∀ option set, IsCount option set →
      (∀ depth nested name value,
        (∀ n, optionValue settings depth nested ⟨option, name, value⟩ = .ok (set n) ↔
          Writes n value.text ∧ n < 2 ^ 64) ∧
        ((∃ f, optionValue settings depth nested ⟨option, name, value⟩ = .error (.refused f) ∧
            f.refusal = .ofRule ("invalid " ++ option.word ++ " parameter")
              ⟨name.start, value.stop⟩ .invalidParameter) ↔
          WritesNoCount value.text)) ∧
      ∀ text : String, Unexposed '&' text.toList →
        (∀ n, parse settings (option.word ++ "=" ++ text) =
            .query (Query.empty.assign (set n)) ↔
          Writes n text.toList ∧ n < 2 ^ 64) ∧
        (parse settings (option.word ++ "=" ++ text) =
            .rejected ⟨"invalid " ++ option.word ++ " parameter",
              ⟨0, byteLength (option.word ++ "=" ++ text).toList⟩⟩ ↔
          WritesNoCount text.toList)) ∧
    ∀ (option : Option QueryOption) (s t : State) (text : String),
      s.cursor.current.kind = .integer text → IsNumber .integer text.toList →
        (∀ v, literal ⟨settings, option⟩ s = .ok (.integer v) t ↔
          (WritesSigned v text.toList ∧ -2 ^ 63 ≤ v ∧ v < 2 ^ 63) ∧ t = s.advanced) ∧
        ((∃ f, literal ⟨settings, option⟩ s = .error (.refused f) s ∧
            f.refusal = .ofForm ("integer literal " ++ text ++ " is out of range")
              s.cursor.current.span) ↔
          ∃ v, WritesSigned v text.toList ∧ (v < -2 ^ 63 ∨ 2 ^ 63 ≤ v)) :=
  ⟨fun _ _ h => ⟨h.optionValue_iff, fun _ => h.parse_iff⟩,
    fun _ _ _ _ => literal_integer_iff⟩

/-- The greatest count with zeros in front of it, the count after it, and the least integer. -/
theorem read_limits :
    parse Settings.standard "$top=0018446744073709551615" =
        .query (Query.empty.assign (.top 18446744073709551615)) ∧
      parse Settings.standard "$skip=18446744073709551616" =
        .rejected ⟨"invalid $skip parameter", ⟨0, 26⟩⟩ ∧
      ∀ t, literal ⟨Settings.standard, none⟩
          (State.start [⟨.integer "-9223372036854775808", ⟨4, 24⟩⟩, ⟨.eof, ⟨24, 24⟩⟩] 0) =
            .ok (.integer (-9223372036854775808)) t ↔
        t = ⟨⟨[⟨.integer "-9223372036854775808", ⟨4, 24⟩⟩], [⟨.eof, ⟨24, 24⟩⟩]⟩, 0, 0⟩ := by
  obtain ⟨hcount, hliteral⟩ := integers_read_iff Settings.standard
  refine ⟨?_, ?_, fun t => ?_⟩
  · have hwrites : Writes 18446744073709551615 "0018446744073709551615".toList := ⟨2, by cbv⟩
    exact (((hcount _ _ .top).2 "0018446744073709551615" (by unfold Unexposed; decide)).1 _).2
      ⟨hwrites, by decide⟩
  · have hwrites : Writes 18446744073709551616 "18446744073709551616".toList := ⟨0, by cbv⟩
    exact ((hcount _ _ .skip).2 "18446744073709551616" (by unfold Unexposed; decide)).2.2
      (.inr ⟨_, hwrites, by decide⟩)
  · have htext : "-9223372036854775808".toList = signed (-9223372036854775808) := by cbv
    have hnumber : IsNumber .integer "-9223372036854775808".toList := htext ▸ isNumber_signed _
    have hwrites : WritesSigned (-9223372036854775808) "-9223372036854775808".toList := by
      have hminus : "-9223372036854775808".toList = '-' :: "9223372036854775808".toList := by cbv
      have hdigits : Writes 9223372036854775808 "9223372036854775808".toList := ⟨0, by cbv⟩
      rw [hminus]
      exact WritesSigned.minus hdigits
    refine ((hliteral none _ t "-9223372036854775808" rfl hnumber).1 _).trans ?_
    exact and_iff_right ⟨hwrites, by decide, by decide⟩

end OData
