import OData.Proofs.Query.Equality
import OData.Proofs.Query.Items
import OData.Proofs.Text.Quoted

/-!
# Search terms

The language quotes a search term in two ways (`IsTerm`): between double quotes, which know no
escape, so that none may stand in the term; and between single quotes, where every single quote of
the term is written twice.  Either way the term ends at the first quote that can end it.

The reader of the value takes the two quotes at its ends off and then reads what is between them
without a look at the quotes in it.  So it takes every quoted term for what it stands for, and
beyond those the texts whose term ends before they do (`Overruns`): `'it's'` is read as `it's`,
where the reader of strings would have stopped after `it`.  Nothing else is taken
(`search_reads_iff`).
-/
namespace OData.Text.Quoted
variable {q : Char} {s t u body : List Char}

/-- **A text quotes a term**, in one of the two ways. -/
inductive IsTerm (s : List Char) : List Char → Prop
  | double : '"' ∉ s → IsTerm s ('"' :: (s ++ ['"']))
  | single : IsTerm s (written s)

/-- The inside of a text is read from left to right: a pair of single quotes stands for one,
and so does a quote that has none behind it. -/
inductive Reads : List Char → List Char → Prop
  | nil : Reads [] []
  | plain {c : Char} {body s : List Char} : c ≠ mark → Reads body s → Reads (c :: body) (c :: s)
  | pair {body s : List Char} : Reads body s → Reads (mark :: mark :: body) (mark :: s)
  | lone {body s : List Char} :
    body.head? ≠ some mark → Reads body s → Reads (mark :: body) (mark :: s)

/-- **A text runs over the end of its term**: it has quotes at its ends, and between them one more
that could end the term. -/
inductive Overruns (s : List Char) : List Char → Prop
  | double : '"' ∈ s → Overruns s ('"' :: (s ++ ['"']))
  | single {body : List Char} :
    Reads body s → ¬ IsPaired body → Overruns s (mark :: (body ++ [mark]))

/-! ## The inside -/

theorem collapse_lone (h : body.head? ≠ some mark) :
    collapse (mark :: body) = mark :: collapse body := by
  cases body with
  | nil => rfl
  | cons d body => rw [collapse, if_neg fun hd => h (congrArg some hd.2)]

theorem Reads.collapse_eq (h : Reads body s) : collapse body = s := by
  induction h with
  | nil => rfl
  | plain hc _ ih => rw [collapse_plain hc, ih]
  | pair _ ih => rw [collapse_pair, ih]
  | lone hhead _ ih => rw [collapse_lone hhead, ih]

theorem reads_collapse (body : List Char) : Reads body (collapse body) := by
  fun_induction collapse body with
  | case1 => exact .nil
  | case2 c =>
    by_cases hc : c = mark
    · rw [hc]
      exact .lone (by simp) .nil
    · exact .plain hc .nil
  | case3 c d r h ih =>
    rw [h.1, h.2]
    exact .pair ih
  | case4 c d r h ih =>
    by_cases hc : c = mark
    · rw [hc] at h ⊢
      exact .lone (fun hd => h ⟨rfl, Option.some.inj hd⟩) ih
    · exact .plain hc ih

/-- What the inside of a text is read as is what its pairs collapse to. -/
theorem reads_iff : Reads body s ↔ collapse body = s :=
  ⟨Reads.collapse_eq, fun h => h ▸ reads_collapse body⟩

/-- Text in which every quote is half of a pair is written text. -/
theorem IsPaired.encode_collapse (h : IsPaired body) : encode (collapse body) = body := by
  induction h with
  | nil => rfl
  | plain hc _ ih => rw [collapse_plain hc, encode, if_neg hc, ih]
  | pair _ ih => rw [collapse_pair, encode, if_pos rfl, ih]

theorem collapse_ne_nil (h : body ≠ []) : collapse body ≠ [] := by
  intro hcollapse
  cases reads_iff.2 hcollapse
  exact h rfl

/-! ## The ends -/

theorem between_eq_some_iff : between q t = some body ↔ t = q :: (body ++ [q]) := by
  constructor
  · intro h
    cases t with
    | nil => cases h
    | cons c r =>
      by_cases hc : c = q
      · rw [between, if_pos hc] at h
        cases hlast : r.getLast? with
        | none => simp [hlast] at h
        | some d =>
          obtain ⟨ys, rfl⟩ := List.getLast?_eq_some_iff.1 hlast
          simp only [hlast, List.dropLast_concat, Option.ite_none_right_eq_some,
            Option.some.injEq] at h
          rw [hc, h.1, h.2]
      · rw [between, if_neg hc] at h
        cases h
  · rintro rfl
    simp [between]

theorem term_double : term ('"' :: (body ++ ['"'])) = if body = [] then none else some body := by
  rw [term, between_eq_some_iff.2 rfl]

theorem term_single :
    term (mark :: (body ++ [mark])) = if body = [] then none else some (collapse body) := by
  have hdouble : between '"' (mark :: (body ++ [mark])) = none := rfl
  rw [term, hdouble, between_eq_some_iff.2 rfl]

theorem ends_of_term (h : term t = some s) :
    t = '"' :: (s ++ ['"']) ∨ ∃ body, t = mark :: (body ++ [mark]) ∧ Reads body s := by
  unfold term at h
  split at h
  · next body hbody =>
    split at h
    · cases h
    · cases h
      exact .inl (between_eq_some_iff.1 hbody)
  · split at h
    · next body hbody =>
      split at h
      · cases h
      · cases h
        exact .inr ⟨body, between_eq_some_iff.1 hbody, reads_collapse body⟩
    · cases h

/-! ## Terms -/

/-- A term is read as what it stands for, and so is a text that runs over the end of one.
Nothing else is read. -/
theorem term_eq_some_iff : term t = some s ↔ s ≠ [] ∧ (IsTerm s t ∨ Overruns s t) := by
  constructor
  · intro h
    rcases ends_of_term h with rfl | ⟨body, rfl, hreads⟩
    · rw [term_double] at h
      have hs : s ≠ [] := by
        rintro rfl
        cases h
      refine ⟨hs, ?_⟩
      by_cases hs : '"' ∈ s
      · exact .inr (.double hs)
      · exact .inl (.double hs)
    · rw [term_single] at h
      refine ⟨?_, ?_⟩
      · split at h
        · cases h
        · next hbody => exact hreads.collapse_eq ▸ collapse_ne_nil hbody
      · by_cases hpaired : IsPaired body
        · rw [← hpaired.encode_collapse, hreads.collapse_eq]
          exact .inl .single
        · exact .inr (.single hreads hpaired)
  · rintro ⟨hs, hterm | hover⟩
    · cases hterm with
      | double => rw [term_double, if_neg hs]
      | single =>
        have hencode : encode s ≠ [] := fun he => hs (by rw [← collapse_encode s, he]; rfl)
        rw [written, term_single, if_neg hencode, collapse_encode]
    · cases hover with
      | double => rw [term_double, if_neg hs]
      | @single body hreads =>
        have hbody : body ≠ [] := fun he => hs (by rw [← hreads.collapse_eq, he]; rfl)
        rw [term_single, if_neg hbody, hreads.collapse_eq]

/-- No text is a term and runs over the end of one. -/
theorem IsTerm.not_overruns (h : IsTerm s t) : ¬ Overruns u t := by
  intro hover
  generalize ht : t = t' at hover
  cases hover with
  | double hmem =>
    cases h with
    | double hnot =>
      simp only [List.cons.injEq, true_and, List.append_cancel_right_eq] at ht
      exact hnot (ht ▸ hmem)
    | single => cases ht
  | single hreads hunpaired =>
    cases h with
    | double => cases ht
    | single =>
      simp only [written, List.cons.injEq, true_and, List.append_cancel_right_eq] at ht
      exact hunpaired (ht ▸ isPaired_encode s)

end OData.Text.Quoted

namespace OData.Options
open Grammar Text.Quoted

/-- **The value of a search option.**  It is read as a term that is not empty where it quotes that
term or runs over the end of it, and refused where it does neither. -/
theorem search_reads_iff (settings : Settings) (depth : Nat) (nested : Slice → Except Stop Query)
    (name : Span) (value : Slice) :
    (∀ term, optionValue settings depth nested ⟨.search, name, value⟩ = .ok (.search term) ↔
      term ≠ "" ∧ (IsTerm term.toList value.text ∨ Overruns term.toList value.text)) ∧
    ((∃ f, optionValue settings depth nested ⟨.search, name, value⟩ = .error (.refused f) ∧
        f.refusal = .ofRule "invalid $search parameter" ⟨name.start, value.stop⟩
          .invalidParameter) ↔
      ∀ s, s ≠ [] → ¬ IsTerm s value.text ∧ ¬ Overruns s value.text) := by
  refine ⟨fun term => ?_, ?_, ?_⟩
  · have hne : term ≠ "" ↔ term.toList ≠ [] := by simp
    rw [optionValue_eq_ok, hne, ← term_eq_some_iff]
    exact ⟨And.right, fun h => ⟨rfl, h⟩⟩
  · rintro ⟨f, hf, -⟩ s hs
    rw [← not_or]
    intro hterm
    have hread := term_eq_some_iff.2 ⟨hs, hterm⟩
    simp only [optionValue, hread] at hf
    cases hf
  · intro hnone
    have hread : term value.text = none := by
      rw [Option.eq_none_iff_forall_ne_some]
      intro s hs
      obtain ⟨hne, hterm⟩ := term_eq_some_iff.1 hs
      exact not_or.2 (hnone s hne) hterm
    refine ⟨⟨.invalidValue .search, ⟨name.start, value.stop⟩⟩, ?_, rfl⟩
    simp only [optionValue, hread, Assignment.span]

/-- A single quote that ends the term is read as a part of it. -/
theorem read_quote_within :
    Query.read Settings.standard "$search='it's'" = .ok { search := some "it's" } ∧
      ∀ s, ¬ IsTerm s "'it's'".toList := by
  refine ⟨by decide +kernel, fun s h => h.not_overruns (u := "it's".toList) ?_⟩
  have hunpaired : ¬ IsPaired "it's".toList := by
    intro h
    cases h with
    | plain _ h => cases h with
      | plain _ h => cases h with
        | plain hne => exact hne rfl
  exact .single (reads_collapse "it's".toList) hunpaired

end OData.Options
