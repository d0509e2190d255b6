import OData.Proofs.Query.OptionList

/-!
# A resource path and its options

A text with a path in front of its options is taken apart at a question mark.  It is
read as its two parts are read, each as a text of its own, the path first: if the path
fails the whole fails in the same way, and if only the options fail it fails as they do,
with the places moved to where they stand (`read_path_options`).

An ampersand does as well in place of the question mark.  It is looked for only if there
is no question mark, so this needs that neither part has one; and it is the first one
that counts, so the path must not have another.
-/
namespace OData
open Text Grammar Options

/-! ## The two parts -/

/-- **The text of a resource path**: not all blanks, not beginning with a dollar sign, leaving
no quote and no parenthesis open, and with no question mark outside of them. -/
structure IsPathText (p : String) : Prop where
  visible : isBlankText p = false
  dollar : p.toList.head? ≠ some '$'
  ends : Nesting.start.after p.toList = Nesting.start
  whole : Unexposed '?' p.toList

instance (p : String) : Decidable (IsPathText p) :=
  decidable_of_iff (isBlankText p = false ∧ p.toList.head? ≠ some '$' ∧
      Nesting.start.after p.toList = Nesting.start ∧
      Nesting.cut '?' Nesting.start p.toList = none)
    ⟨fun ⟨hv, hd, he, hw⟩ => ⟨hv, hd, he, hw⟩, fun h => ⟨h.visible, h.dollar, h.ends, h.whole⟩⟩

/-- If nothing is left of a slice without the blanks at its ends, then it is all blank. -/
theorem Slice.isBlank_of_trim {s : Slice} (h : s.trim.text = []) :
    ∀ c ∈ s.text, isBlank c = true := by
  obtain ⟨b, hb, hleading⟩ := exists_trimStart s.text
  obtain ⟨t, ht, htrailing⟩ := exists_append_of_trimEnd s.trimStart.text
  have hnone : Text.trimEnd s.trimStart.text = [] := h
  rw [hnone, List.nil_append] at ht
  have ht : Text.trimStart s.text = t := ht
  rw [hb, ht, List.forall_mem_append]
  exact ⟨hleading, htrailing⟩

/-- The two slices around a separator that stands between two texts. -/
theorem Slice.cut_append_cons {c : Char} (hsep : Nesting.IsSeparator c) {s : List Char}
    (hs : Whole c s) (t : List Char) (pos : Nat) :
    (Slice.mk (s ++ c :: t) pos).cut c =
      some (⟨s, pos⟩, ⟨t, pos + byteLength s + c.utf8Size⟩) := by
  unfold Slice.cut
  rw [Nesting.cut_append_cons hsep hs.2 hs.1]
  rfl

variable {settings : Settings} {p o : String}

namespace IsPathText

/-- With more text after it a path does not begin with a dollar sign either. -/
theorem head?_append (h : IsPathText p) (t : List Char) :
    (p.toList ++ t).head? ≠ some '$' := by
  have hdollar := h.dollar
  have hvisible := h.visible
  unfold isBlankText at hvisible
  cases hp : p.toList with
  | nil =>
    rw [hp] at hvisible
    cases hvisible
  | cons c r =>
    rw [hp] at hdollar
    exact hdollar

theorem trim_ne_nil (h : IsPathText p) (pos : Nat) : (Slice.ofString p pos).trim.text ≠ [] := by
  intro hnone
  have hblank : isBlankText p = true := List.all_eq_true.2 (Slice.isBlank_of_trim hnone)
  rw [h.visible] at hblank
  cases hblank

/-- The halves of a text with a question mark. -/
theorem halves_question (h : IsPathText p) (o : String) :
    Halves.ofSlice (Slice.ofString (p ++ "?" ++ o) 0) =
      ⟨Slice.ofString p 0, some ⟨o.toList, byteLength p.toList + 1⟩⟩ := by
  have htext : (p ++ "?" ++ o).toList = p.toList ++ '?' :: o.toList := by simp
  have hcut := Slice.cut_append_cons Nesting.isSeparator_question ⟨h.ends, h.whole⟩ o.toList 0
  rw [Slice.ofString, htext, Halves.ofSlice, if_neg (h.head?_append _), hcut, Nat.zero_add]
  rfl

/-- The halves of a text with an ampersand are the same, if it is the first one and no
question mark goes before it. -/
theorem halves_ampersand (h : IsPathText p) (hp : Unexposed '&' p.toList)
    (ho : Unexposed '?' o.toList) :
    Halves.ofSlice (Slice.ofString (p ++ "&" ++ o) 0) =
      ⟨Slice.ofString p 0, some ⟨o.toList, byteLength p.toList + 1⟩⟩ := by
  have htext : (p ++ "&" ++ o).toList = p.toList ++ '&' :: o.toList := by simp
  have hrest : Nesting.cut '?' Nesting.start ('&' :: o.toList) = none := by
    have hmark : Nesting.start.next '&' = Nesting.start := rfl
    have ho : Nesting.cut '?' Nesting.start o.toList = none := ho
    rw [Nesting.cut, if_neg (by simp), hmark, ho]
    rfl
  have hquestion : (Slice.mk (p.toList ++ '&' :: o.toList) 0).cut '?' = none := by
    unfold Slice.cut
    rw [Nesting.cut_append_eq_none.2 ⟨h.whole, by rw [h.ends, hrest]⟩]
    rfl
  have hcut := Slice.cut_append_cons Nesting.isSeparator_ampersand ⟨h.ends, hp⟩ o.toList 0
  rw [Slice.ofString, htext, Halves.ofSlice, if_neg (h.head?_append _), hquestion, hcut,
    Nat.zero_add]
  rfl

end IsPathText

/-! ## The parts together -/

/-- **Reads a resource path** that is a text of its own. -/
def readSegments (settings : Settings) (p : String) : Except Stop (List PathSegment) :=
  run (resourcePath ⟨settings, none⟩) 0 (Slice.ofString p 0)

/-- An option list that is read as a text of its own. -/
theorem readOptions_of_dollar (ho : o.toList.head? = some '$') (k : Nat) :
    Query.readOptions settings (some ⟨o.toList, k⟩) =
      (Query.read settings o).mapError (Stop.shift k) := by
  have hread : Query.read settings o = Query.readOptions settings (some (Slice.ofString o 0)) := by
    rw [read_of_dollar ho, Query.readOptions, optionList_eq, listWith]
    rfl
  rw [hread, ← ofString_shift]
  exact optionList_shift k settings (Nat.le_refl _) '&' (Slice.ofString o 0)

/-- A text is read as its halves are, if these are a path and an option list. -/
theorem read_of_halves (settings : Settings) {text : String} {k : Nat} (hp : IsPathText p)
    (ho : o.toList.head? = some '$')
    (h : Halves.ofSlice (Slice.ofString text 0) = ⟨Slice.ofString p 0, some ⟨o.toList, k⟩⟩) :
    Query.read settings text = (do
      let segments ← readSegments settings p
      let q ← (Query.read settings o).mapError (Stop.shift k)
      pure { q with path := some segments }) := by
  rw [Query.read_eq, h, readOptions_of_dollar ho, Query.readPath, if_neg (hp.trim_ne_nil 0)]
  show some <$> readSegments settings p >>= _ = _
  cases readSegments settings p <;> rfl

/-- **A path and its options make the query that they make apart.**  The failure of the path
comes first; that of the options has its places moved to where they stand.  Between the two an
ampersand does as well as a question mark, if neither part has one that would be taken for it. -/
theorem read_path_options (settings : Settings) (hp : IsPathText p)
    (ho : o.toList.head? = some '$') :
    Query.read settings (p ++ "?" ++ o) = (do
      let segments ← readSegments settings p
      let q ← (Query.read settings o).mapError (Stop.shift (byteLength p.toList + 1))
      pure { q with path := some segments }) ∧
    (∀ f, readSegments settings p = .error (.refused f) →
      parse settings (p ++ "?" ++ o) = .ofRefusal (p ++ "?" ++ o) f.refusal) ∧
    (∀ segments, readSegments settings p = .ok segments →
      (∀ q, parse settings o = .query q →
        parse settings (p ++ "?" ++ o) = .query { q with path := some segments }) ∧
      ((∀ q, parse settings o ≠ .query q) →
        parse settings (p ++ "?" ++ o) =
          (parse settings o).shift (byteLength p.toList + 1) (p ++ "?" ++ o))) ∧
    (Unexposed '&' p.toList → Unexposed '?' o.toList →
      Query.read settings (p ++ "&" ++ o) = Query.read settings (p ++ "?" ++ o)) := by
  have hread := read_of_halves settings hp ho (hp.halves_question o)
  refine ⟨hread, ?_, ?_, ?_⟩
  · intro f hf
    rw [hf] at hread
    rw [parse, hread]
    rfl
  · intro segments hsegments
    rw [hsegments] at hread
    refine ⟨fun q hq => ?_, fun hfails => ?_⟩
    · rw [parse_eq_query.1 hq] at hread
      exact parse_eq_query.2 hread
    · obtain ⟨e, he⟩ := fails_of_not_query hfails
      rw [he] at hread
      exact parse_shift he hread
  · intro hamp hquestion
    rw [hread]
    exact read_of_halves settings hp ho (hp.halves_ampersand hamp hquestion)

/-- A key with both marks in it, with an option behind it that is read and one that fails. -/
theorem parse_keyAndTop :
    IsPathText "Orders('a?&b')" ∧
      parse Settings.standard "Orders('a?&b')?$top=1" =
        .query { path := some [⟨"Orders", some [.positional (.string "a?&b")]⟩], top := some 1 } ∧
      parse Settings.standard "Orders('a?&b')?$top=x" =
        .rejected ⟨"invalid $top parameter", ⟨15, 21⟩⟩ ∧
      Query.read Settings.standard "Orders('a?&b')&$top=x" =
        Query.read Settings.standard "Orders('a?&b')?$top=x" := by
  have hp : IsPathText "Orders('a?&b')" := by decide
  have hread := read_path_options Settings.standard (o := "$top=1") hp (by decide)
  have hcompose := read_path_options Settings.standard (o := "$top=x") hp (by decide)
  have hsegments : readSegments Settings.standard "Orders('a?&b')" =
      .ok [⟨"Orders", some [.positional (.string "a?&b")]⟩] := by decide +kernel
  have hone : parse Settings.standard "$top=1" = .query { top := some 1 } := by decide +kernel
  have htop : parse Settings.standard "$top=x" =
      .rejected ⟨"invalid $top parameter", ⟨0, 6⟩⟩ := by
    have hread : Query.read Settings.standard "$top=x" =
        .error (.refused ⟨.invalidValue .top, ⟨0, 6⟩⟩) := by decide +kernel
    rw [parse, hread]
    rfl
  refine ⟨hp, ?_, ?_, ?_⟩
  · exact (hread.2.2.1 _ hsegments).1 _ hone
  · have := (hcompose.2.2.1 _ hsegments).2
    rw [htop] at this
    exact this (by simp)
  · exact hcompose.2.2.2 (by unfold Unexposed; decide) (by unfold Unexposed; decide)

end OData
