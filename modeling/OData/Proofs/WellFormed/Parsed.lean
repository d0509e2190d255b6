import OData.Proofs.Query.Items
import OData.Proofs.Query.SearchTerm
import OData.Proofs.Query.Values
import OData.Proofs.WellFormed.Derived

/-!
# Whatever is parsed is well formed

Option lists keep a query well formed item by item: the value of an option is well
formed by itself (`optionValue_wellFormed`), setting an option that is not set yet
changes nothing else (`Query.WellFormed.assign`), and the lists inside of expand items
are the same again, one bracket deeper.  So the induction is on the room for brackets.
-/
namespace OData
open Grammar Options Text

namespace Query

/-! ## Setting options -/

theorem FlatWellFormed.empty (settings : Settings) (sep : Char) :
    Query.empty.FlatWellFormed settings sep := by
  constructor <;> rintro _ ⟨⟩

theorem WellFormed.empty (settings : Settings) (sep : Char) :
    Query.empty.WellFormed settings sep :=
  .mk (.empty settings sep) (by rintro _ ⟨⟩) (by rintro _ ⟨⟩) (by rintro _ ⟨⟩)

theorem WellFormed.flat {settings : Settings} {sep : Char} {q : Query}
    (h : q.WellFormed settings sep) : q.FlatWellFormed settings sep := by
  cases h
  assumption

/-- **Setting an option keeps a query well formed**, if the query of that option alone is. -/
theorem WellFormed.assign {settings : Settings} {sep : Char} {q : Query} {v : OptionValue}
    (h : q.WellFormed settings sep) (hv : (Query.empty.assign v).WellFormed settings sep) :
    (q.assign v).WellFormed settings sep := by
  obtain ⟨hq, hlist, hpath, hnested⟩ := h
  obtain ⟨hf, hlist', hpath', hnested'⟩ := hv
  cases v with
  | select => exact .mk { hq with select := hf.select } hlist hpath hnested
  | expand => exact .mk { hq with } hlist' hpath' hnested'
  | filter => exact .mk { hq with filter := hf.filter } hlist hpath hnested
  | orderBy => exact .mk { hq with orderBy := hf.orderBy } hlist hpath hnested
  | callback => exact .mk { hq with callback := hf.callback } hlist hpath hnested
  | format => exact .mk { hq with format := hf.format } hlist hpath hnested
  | search => exact .mk { hq with search := hf.search } hlist hpath hnested
  | count => exact .mk { hq with } hlist hpath hnested
  | skip => exact .mk { hq with skip := hf.skip } hlist hpath hnested
  | top => exact .mk { hq with top := hf.top } hlist hpath hnested
  | apply => exact .mk { hq with apply := hf.apply } hlist hpath hnested

end Query

namespace Options
variable {settings : Settings} {depth : Nat} {nested : Slice → Except Stop Query} {sep : Char}

/-! ## Expand items -/

theorem isExpandName_of_run {path : Slice} {name : String}
    (h : run expandPath depth path = .ok name) : IsExpandName name := by
  obtain ⟨w, hw, hD⟩ := exists_of_run sound_expandPath h
  exact hD.isExpandName hw

/-- The paths of expand items are none of those before, and the options of each are none or
read by `nested`. -/
theorem of_expandItems : ∀ {slices : List Slice} {seen : List (String × Span)}
    {items : List ExpandItem}, expandItems settings depth nested seen slices = .ok items →
      items.length = slices.length ∧ (items.map ExpandItem.path).Nodup ∧
        ∀ i ∈ items, IsExpandName i.path ∧ seen.lookup i.path = none ∧
          (i.options = Query.empty ∨ ∃ inside, nested inside = .ok i.options)
  | [], _, _, h => by
    cases h
    simp
  | slice :: slices, seen, items, h => by
    rw [expandItems_cons] at h
    split at h
    · cases h
    · next parts hparts =>
      obtain ⟨path, hpath, h⟩ := Options.bind_eq_ok.1 h
      split at h
      · cases h
      · next hseen =>
        obtain ⟨options, hoptions, h⟩ := Options.bind_eq_ok.1 h
        obtain ⟨others, hothers, h⟩ := Options.bind_eq_ok.1 h
        cases h
        obtain ⟨hlength, hnodup, hall⟩ := of_expandItems hothers
        refine ⟨by simp [hlength], List.nodup_cons.2 ⟨?_, hnodup⟩,
          List.forall_mem_cons.2 ⟨⟨isExpandName_of_run hpath, hseen, ?_⟩, ?_⟩⟩
        -- A later item with this path would have been found among those seen.
        · intro hmem
          obtain ⟨i, hi, hp⟩ := List.mem_map.1 hmem
          have := (hall i hi).2.1
          simp [hp] at this
        · unfold itemOptions at hoptions
          split at hoptions
          · exact .inr ⟨_, hoptions⟩
          · cases hoptions
            exact .inl rfl
        · intro i hi
          obtain ⟨hname, hlookup, ho⟩ := hall i hi
          refine ⟨hname, ?_, ho⟩
          rw [List.lookup_cons] at hlookup
          split at hlookup
          · cases hlookup
          · exact hlookup

/-- No text is split into no parts. -/
theorem split_ne_nil (sep : Char) (s : Slice) : s.split sep ≠ [] := by
  simp [Slice.split, Nesting.split, Slice.place]

theorem expand_wellFormed {slices : List Slice} {items : List ExpandItem} (hne : slices ≠ [])
    (hnested : ∀ inside q, nested inside = .ok q → q.path = none ∧ q.WellFormed settings ';')
    (h : expandItems settings depth nested [] slices = .ok items) :
    (Query.empty.assign (.expand items)).WellFormed settings sep := by
  obtain ⟨hlength, hnodup, hall⟩ := of_expandItems h
  have hoptions : ∀ i ∈ items, i.options.path = none ∧ i.options.WellFormed settings ';' := by
    intro i hi
    obtain ⟨-, -, ho | ⟨inside, ho⟩⟩ := hall i hi
    · rw [ho]
      exact ⟨rfl, .empty settings ';'⟩
    · exact hnested inside _ ho
  have hitems : items ≠ [] := by
    rintro rfl
    exact hne (List.length_eq_zero_iff.1 hlength.symm)
  refine .mk { Query.FlatWellFormed.empty settings sep with } ?_ ?_ ?_
  · rintro _ ⟨⟩
    exact ⟨hitems, hnodup, fun i hi => (hall i hi).1⟩
  · rintro _ ⟨⟩
    exact fun i hi => (hoptions i hi).1
  · rintro _ ⟨⟩
    exact fun i hi => (hoptions i hi).2

/-! ## Values -/

theorem unsigned?_lt {s : List Char} {n : Nat} (h : Text.Numeral.unsigned? s = some n) :
    n < 2 ^ 64 := by
  unfold Text.Numeral.unsigned? at h
  split at h
  · next hn =>
    cases h
    exact hn.2.2
  · cases h

/-- The value of an option is well formed, if the lists inside of it are. -/
theorem optionValue_wellFormed {a : Assignment} {v : OptionValue}
    (hnested : ∀ inside q, nested inside = .ok q → q.path = none ∧ q.WellFormed settings ';')
    (ha : Text.Unexposed sep a.value.text)
    (h : optionValue settings depth nested a = .ok v) :
    (Query.empty.assign v).WellFormed settings sep := by
  have hempty := Query.FlatWellFormed.empty settings sep
  -- Only `$expand` holds lists; for the others the query is as flat as its value.
  have hflat : ∀ v, (Query.empty.assign v).FlatWellFormed settings sep →
      (Query.empty.assign v).expand = none → (Query.empty.assign v).WellFormed settings sep := by
    intro v hv he
    refine .mk hv ?_ ?_ ?_ <;>
    · intro _ hi
      rw [he] at hi
      cases hi
  have htext {text : String} (hne : a.value.text ≠ []) (ht : a.value.toString = text) :
      text ≠ "" ∧ Text.Unexposed sep text.toList := by
    subst ht
    simpa [Slice.toString] using ⟨hne, ha⟩
  obtain ⟨-, hread⟩ := optionValue_eq_ok.1 h
  cases v with
  | top n => exact hflat _ { hempty with top := by rintro _ ⟨⟩; exact unsigned?_lt hread } rfl
  | skip n => exact hflat _ { hempty with skip := by rintro _ ⟨⟩; exact unsigned?_lt hread } rfl
  | count wanted => exact hflat _ { hempty with } rfl
  | format text =>
    obtain ⟨hne, ht⟩ := hread
    exact hflat _ { hempty with format := by rintro _ ⟨⟩; exact htext hne ht } rfl
  | callback text =>
    obtain ⟨hne, ht⟩ := hread
    exact hflat _ { hempty with callback := by rintro _ ⟨⟩; exact htext hne ht } rfl
  | search term =>
    have hterm : term ≠ "" := by
      simpa using (Text.Quoted.term_eq_some_iff.1 hread).1
    exact hflat _ { hempty with search := by rintro _ ⟨⟩; exact hterm } rfl
  | select items =>
    obtain ⟨w, hw, hD⟩ := exists_of_run (sound_separated (by simp) sound_selectItem) hread
    have hitems := hD.forall hw fun _ _ hv hD => hD.isSelectName hv
    exact hflat _ { hempty with select := by rintro _ ⟨⟩; exact hitems } rfl
  | orderBy items =>
    obtain ⟨w, hw, hD⟩ := exists_of_run (sound_separated (by simp) sound_orderByItem) hread
    have hitems := hD.forall hw fun _ _ hv hD => hD.isPathName hv
    exact hflat _ { hempty with orderBy := by rintro _ ⟨⟩; exact hitems } rfl
  | expand items => exact expand_wellFormed (split_ne_nil ',' a.value) hnested hread
  | filter e =>
    obtain ⟨w, hw, hD, hb⟩ := exists_of_run (sound_boolean _) hread
    exact hflat _ { hempty with filter := by rintro _ ⟨⟩; exact ⟨hD.wellFormed hw, hb⟩ } rfl
  | apply stages =>
    obtain ⟨w, hw, hD⟩ := exists_of_run (sound_separated (by simp) (sound_stage _)) hread
    have hstages := DerivesPipeline.wellFormed hD hw
    exact hflat _ { hempty with apply := by rintro _ ⟨⟩; exact hstages } rfl

/-! ## Lists -/

theorem assignAll_wellFormed {value : Assignment → Except Stop OptionValue}
    (hvalue : ∀ {a v}, Text.Unexposed sep a.value.text → value a = .ok v →
      (Query.empty.assign v).WellFormed settings sep) :
    ∀ {items : List Slice} {seen : List (QueryOption × Span)} {q q' : Query},
      (∀ i ∈ items, Text.Unexposed sep i.text) → q.path = none → q.WellFormed settings sep →
      assignAll value seen q items = .ok q' → q'.path = none ∧ q'.WellFormed settings sep
  | [], _, _, _, _, hp, hq, h => by
    cases h
    exact ⟨hp, hq⟩
  | item :: items, seen, q, q', hi, hp, hq, h => by
    obtain ⟨hitem, hi⟩ := List.forall_mem_cons.1 hi
    rw [assignAll] at h
    split at h
    · cases h
    · exact assignAll_wellFormed hvalue hi hp hq h
    · next a ha =>
      split at h
      · cases h
      · obtain ⟨v, hv, h⟩ := bind_eq_ok.1 h
        exact assignAll_wellFormed hvalue hi (by rw [Query.path_assign, hp])
          (hq.assign (hvalue (cut_value_eq_none ha hitem) hv)) h

theorem mem_place {sep : Char} : ∀ {pos : Nat} {texts : List (List Char)} {s : Slice},
    s ∈ Slice.place sep pos texts → s.text ∈ texts
  | _, [], _, h => by cases h
  | _, _ :: _, _, h => by
    rcases List.mem_cons.1 h with rfl | h
    · exact List.mem_cons_self ..
    · exact List.mem_cons_of_mem _ (mem_place h)

theorem listWith_wellFormed {list : Slice} {q : Query} (hsep : Nesting.IsSeparator sep)
    (hnested : ∀ inside q, nested inside = .ok q → q.path = none ∧ q.WellFormed settings ';')
    (h : listWith settings depth nested sep list = .ok q) :
    q.path = none ∧ q.WellFormed settings sep :=
  assignAll_wellFormed (optionValue_wellFormed hnested)
    (fun _ hi => Nesting.unexposed_of_mem_split hsep (mem_place hi)) rfl (.empty settings sep) h

/-- An option list that is read is well formed, with as much room as there may be. -/
theorem optionList_wellFormed {room : Nat} : ∀ {sep : Char} {list : Slice} {q : Query},
    Nesting.IsSeparator sep → optionList settings room sep list = .ok q →
      q.path = none ∧ q.WellFormed settings sep := by
  induction room with
  | zero =>
    intro sep list q hsep h
    exact listWith_wellFormed hsep (fun _ _ h => by cases h) h
  | succ room ih =>
    intro sep list q hsep h
    exact listWith_wellFormed hsep (fun _ _ h => ih Nesting.isSeparator_semicolon h) h

end Options

/-! ## Queries -/

/-- **Every query that a text is parsed to is well formed**, at all its levels, whatever the
settings are. -/
theorem parse_wellFormed {settings : Settings} {text : String} {q : Query}
    (h : parse settings text = .query q) : q.WellFormed settings '&' := by
  rw [parse_eq_query, Query.read_eq] at h
  obtain ⟨path, hpath, h⟩ := bind_eq_ok.1 h
  obtain ⟨options, hoptions, h⟩ := bind_eq_ok.1 h
  cases h
  have hoptions : options.WellFormed settings '&' := by
    unfold Query.readOptions at hoptions
    split at hoptions
    · exact (optionList_wellFormed Nesting.isSeparator_ampersand hoptions).2
    · cases hoptions
      exact .empty settings '&'
  obtain ⟨hflat, hlist, hitem, hnested⟩ := hoptions
  refine .mk { hflat with path := ?_ } hlist hitem hnested
  rintro segments ⟨⟩
  unfold Query.readPath at hpath
  split at hpath
  · cases hpath
  · obtain ⟨segments, hs, ⟨⟩⟩ := map_eq_ok.1 hpath
    obtain ⟨w, hw, hD⟩ := exists_of_run (sound_resourcePath _) hs
    exact hD.wellFormed hw

/-- The query of `$expand=C($top=3)&$apply=filter(A eq 1)/compute(A as B)`. -/
def expandAndApply : Query where
  expand := some [⟨"C", { top := some 3 }⟩]
  apply := some
    [⟨.filter, [.expr (.comparison .eq (.property ⟨"A", none⟩) (.literal (.integer 1)))]⟩,
     ⟨.compute, [.named "B" (.expr (.property ⟨"A", none⟩))]⟩]

set_option maxRecDepth 4000 in
theorem expandAndApply_wellFormed :
    parse Settings.standard "$expand=C($top=3)&$apply=filter(A eq 1)/compute(A as B)" =
        .query expandAndApply ∧
      expandAndApply.WellFormed Settings.standard '&' := by
  have h : parse Settings.standard "$expand=C($top=3)&$apply=filter(A eq 1)/compute(A as B)" =
      .query expandAndApply := by
    decide +kernel
  exact ⟨h, parse_wellFormed h⟩

end OData
