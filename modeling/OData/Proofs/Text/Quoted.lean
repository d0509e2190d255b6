import OData.Text.Quoted

/-!
# The end of a string

A string ends at the first quote that is not half of a pair.  `IsPaired` says of a text that
every quote in it is half of a pair, counted from the left, and reading agrees with it: what is
read after the opening quote is such a text, and a quote behind it that makes no pair
(`munch_eq_some_iff`).  The content is that text with every pair read as one quote.
-/
namespace OData.Text.Quoted
variable {c : Char} {s body content rest : List Char}

/-- **Text in which every quote is half of a pair**, from left to right. -/
inductive IsPaired : List Char → Prop
  | nil : IsPaired []
  | plain {c : Char} {s : List Char} : c ≠ mark → IsPaired s → IsPaired (c :: s)
  | pair {s : List Char} : IsPaired s → IsPaired (mark :: mark :: s)

/-- A string ends behind its opening quote: up to the closing quote every quote is half of a
pair, and the closing quote has none behind it that would make a pair with it. -/
structure Closes (s body rest : List Char) : Prop where
  text : s = body ++ mark :: rest
  isPaired : IsPaired body
  single : rest.head? ≠ some mark

/-! ## Pairs -/

theorem collapse_plain (hc : c ≠ mark) (s : List Char) : collapse (c :: s) = c :: collapse s := by
  cases s with
  | nil => rfl
  | cons d s => rw [collapse, if_neg fun h => hc h.1]

theorem collapse_pair (s : List Char) : collapse (mark :: mark :: s) = mark :: collapse s := by
  rw [collapse, if_pos ⟨rfl, rfl⟩]

theorem isPaired_encode (s : List Char) : IsPaired (encode s) := by
  induction s with
  | nil => exact .nil
  | cons c s ih =>
    by_cases hc : c = mark
    · rw [encode, if_pos hc]
      exact .pair ih
    · rw [encode, if_neg hc]
      exact .plain hc ih

/-- What is written with doubled quotes is read with single ones. -/
theorem collapse_encode (s : List Char) : collapse (encode s) = s := by
  induction s with
  | nil => rfl
  | cons c s ih =>
    by_cases hc : c = mark
    · rw [encode, if_pos hc, collapse_pair, ih, hc]
    · rw [encode, if_neg hc, collapse_plain hc, ih]

/-! ## Reading up to the end -/

theorem munch_plain (hc : c ≠ mark) (s : List Char) :
    munch (c :: s) = (munch s).map fun p => (c :: p.1, p.2) := by
  rw [munch.eq_def]
  exact if_neg hc

theorem munch_pair (s : List Char) :
    munch (mark :: mark :: s) = (munch s).map fun p => (mark :: p.1, p.2) := by
  rw [munch.eq_def]
  rfl

theorem munch_single (hr : rest.head? ≠ some mark) : munch (mark :: rest) = some ([], rest) := by
  cases rest with
  | nil => rfl
  | cons c rest =>
    have hc : c ≠ mark := fun hc => hr (congrArg some hc)
    rw [munch.eq_def]
    exact if_neg hc

/-- What ends is read. -/
theorem Closes.munch (h : Closes s body rest) : munch s = some (collapse body, rest) := by
  obtain ⟨rfl, hbody, hr⟩ := h
  induction hbody with
  | nil => exact munch_single hr
  | plain hc _ ih => rw [List.cons_append, munch_plain hc, ih, collapse_plain hc]; rfl
  | pair _ ih => rw [List.cons_append, List.cons_append, munch_pair, ih, collapse_pair]; rfl

/-- What is read ends. -/
theorem closes_of_munch (h : munch s = some (content, rest)) : Closes s (encode content) rest := by
  refine ⟨(encode_append_of_munch h).symm, isPaired_encode content, ?_⟩
  -- The text after the closing quote is the same at every step of the reading.
  fun_induction Quoted.munch s generalizing content with
  | case1 => cases h
  | case2 =>
    cases h
    intro hhead
    cases hhead
  | case3 t ih | case5 c r hc ih =>
    obtain ⟨⟨a, b⟩, hp, he⟩ := Option.map_eq_some_iff.1 h
    cases he
    exact ih hp
  | case4 d t hd =>
    cases h
    exact fun hhead => hd (Option.some.inj hhead)

/-- **A string is read up to the first quote that is not half of a pair.** -/
theorem munch_eq_some_iff :
    munch s = some (content, rest) ↔ ∃ body, Closes s body rest ∧ content = collapse body := by
  constructor
  · exact fun h => ⟨encode content, closes_of_munch h, (collapse_encode content).symm⟩
  · rintro ⟨body, h, rfl⟩
    exact h.munch

/-- There is no string where no quote closes it. -/
theorem munch_eq_none_iff : munch s = none ↔ ∀ body rest, ¬ Closes s body rest := by
  constructor
  · intro hnone body rest h
    rw [h.munch] at hnone
    cases hnone
  · intro hnot
    cases hm : munch s with
    | none => rfl
    | some p => exact absurd (closes_of_munch hm) (hnot _ _)

end OData.Text.Quoted
