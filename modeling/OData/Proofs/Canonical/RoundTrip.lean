import OData.Proofs.Canonical.Reading
import OData.Proofs.Grammar.Listing
import OData.Proofs.WellFormed.Parsed

/-!
# Canonical text is read back

Reading undoes writing one layer at a time.  A list of options is taken apart where its separators
were put, since no option exposes one; an option is broken at its equals sign, since no name has
one; and its value is read by the grammar that its text was printed for.

Only the items of `$expand` lead back to lists of options.  Their options are shorter than the text
that they are in, so the induction is on the room that there is for brackets, and as much room as
the whole text has characters is enough (`optionList_optionsText`).  What is read at each layer is
said of any reader for the layer inside (`listWith_of_nested`), so the induction is one step.

The path is the only part without an option in front of it.  It is told from the options by what it
begins with, which is no dollar sign, and ends at a question mark that it does not expose itself.
-/
namespace OData
open Grammar Text Options

/-! ## Items -/

theorem trimStart_cons {c : Char} (h : isBlank c = false) (s : List Char) :
    Text.trimStart (c :: s) = c :: s := by
  simp [Text.trimStart, h]

theorem trimEnd_concat {c : Char} (h : isBlank c = false) (s : List Char) :
    Text.trimEnd (s ++ [c]) = s ++ [c] := by
  induction s with
  | nil => simp [Text.trimEnd, h]
  | cons d s ih =>
    rw [List.cons_append, Text.trimEnd, ih]
    cases s <;> rfl

theorem trimEnd_of_forall {s : List Char} (h : ∀ c ∈ s, isBlank c = false) : trimEnd s = s := by
  rcases s.eq_nil_or_concat' with rfl | ⟨s, d, rfl⟩
  · rfl
  · exact trimEnd_concat (h d (by simp)) s

/-- A text is broken at the mark that was put into it, if there was none in front. -/
theorem Slice.breakAt_append {c : Char} {before : List Char} (h : c ∉ before) (after : List Char)
    (pos : Nat) :
    (⟨before ++ c :: after, pos⟩ : Slice).breakAt c =
      some (⟨before, pos⟩, ⟨after, (⟨before, pos⟩ : Slice).stop + c.utf8Size⟩) := by
  have hbefore : ∀ d ∈ before, (d != c) = true := fun d hd =>
    bne_iff_ne.2 fun he => h (he ▸ hd)
  obtain ⟨htake, hdrop⟩ := span_append (r := c :: after) hbefore (by rintro _ ⟨⟩; simp)
  unfold Slice.breakAt
  simp only [htake, hdrop]

/-- An option that is written is taken apart into its name and its value, where they stand. -/
theorem assignment?_written_at (option : QueryOption) (value : List Char) (pos : Nat) :
    assignment? ⟨option.written value, pos⟩ =
      .ok (some ⟨option, (⟨option.word.toList, pos⟩ : Slice).span,
        ⟨value, (⟨option.word.toList, pos⟩ : Slice).stop + '='.utf8Size⟩⟩) := by
  have hchars : ∀ c ∈ option.word.toList, IsPathChar c := isPathChar_of_mem_word option
  have hstart : (⟨option.written value, pos⟩ : Slice).trimStart =
      ⟨option.written value, pos⟩ := by
    obtain ⟨c, r, hword⟩ : ∃ c r, option.word.toList = c :: r := by
      cases option <;> exact ⟨_, _, rfl⟩
    have hc := (hchars c (by rw [hword]; exact List.mem_cons_self ..)).isBlank
    simp [Slice.trimStart, QueryOption.written, hword, trimStart_cons hc, hc]
  have hbreak : (⟨option.written value, pos⟩ : Slice).breakAt '=' =
      some (⟨option.word.toList, pos⟩,
        ⟨value, (⟨option.word.toList, pos⟩ : Slice).stop + '='.utf8Size⟩) :=
    Slice.breakAt_append (fun h => (hchars _ h).ne (by decide) (by decide) rfl) value pos
  have hend : Text.trimEnd option.word.toList = option.word.toList :=
    trimEnd_of_forall fun c hc => (hchars c hc).isBlank
  have hfind : (Keyword.find? option.word : Option QueryOption) = some option :=
    Keyword.find?_word option
  have hne : (⟨option.written value, pos⟩ : Slice).text ≠ [] := by simp [QueryOption.written]
  unfold assignment?
  rw [hstart]
  simp only [if_neg hne, hbreak]
  simp only [Slice.trimEnd, Slice.toString, hend, String.ofList_toList, hfind]

theorem assignment?_written (option : QueryOption) (value : List Char) (pos : Nat) :
    ∃ name start, assignment? ⟨option.written value, pos⟩ =
      .ok (some ⟨option, name, ⟨value, start⟩⟩) :=
  ⟨_, _, assignment?_written_at option value pos⟩

/-! ## Expand items -/

theorem Slice.trim_eq {text : List Char} {pos : Nat} (hne : text ≠ [])
    (hfirst : ∀ c r, text = c :: r → isBlank c = false)
    (hlast : ∀ s c, text = s ++ [c] → isBlank c = false) :
    (⟨text, pos⟩ : Slice).trim = ⟨text, pos⟩ := by
  obtain ⟨c, r, rfl⟩ := List.exists_cons_of_ne_nil hne
  have hc := hfirst c r rfl
  have hstart : (⟨c :: r, pos⟩ : Slice).trimStart = ⟨c :: r, pos⟩ := by
    simp [Slice.trimStart, trimStart_cons hc, hc]
  rcases (c :: r).eq_nil_or_concat' with hnil | ⟨s, d, hs⟩
  · cases hnil
  · rw [Slice.trim, hstart, Slice.trimEnd, hs, trimEnd_concat (hlast s d hs)]

section ExpandItems
variable {path : String} {options : List Char} {pos : Nat}

theorem render_expandPathKinds_ne_nil (h : IsExpandName path) :
    render (expandPathKinds path) ≠ [] := by
  have hne : expandPathKinds path ≠ [] := by
    unfold expandPathKinds
    split
    · simp
    · next hstar =>
      obtain ⟨names, hs, rfl⟩ := h.resolve_left hstar
      obtain ⟨n, ns, rfl⟩ := List.exists_cons_of_ne_nil hs.1
      rw [nameKinds, partsOf_path hs, listed]
      simp
  have hlength := (prints_expandPath h).length_le
  have hpos := List.length_pos_iff.2 hne
  exact List.length_pos_iff.1 (by omega)

/-- There are no blanks around an expand item with its options in parentheses. -/
theorem trim_group (h : IsExpandName path) :
    (⟨render (expandPathKinds path) ++ '(' :: (options ++ [')']), pos⟩ : Slice).trim =
      ⟨render (expandPathKinds path) ++ '(' :: (options ++ [')']), pos⟩ := by
  have hchars := isPathChar_of_isExpandName h
  obtain ⟨c, r, hpath⟩ := List.exists_cons_of_ne_nil (render_expandPathKinds_ne_nil h)
  refine Slice.trim_eq (by simp [hpath]) ?_ ?_
  · intro d t hd
    rw [hpath, List.cons_append] at hd
    obtain ⟨rfl, -⟩ := List.cons.inj hd
    exact (hchars c (by simp [hpath])).isBlank
  · intro s d hd
    rw [← List.cons_append, ← List.append_assoc] at hd
    obtain ⟨-, hd⟩ := List.append_inj' hd rfl
    rw [← (List.cons.inj hd).1]
    decide

/-- There are no blanks around an expand item. -/
theorem trim_itemText (h : IsExpandName path) :
    (⟨itemText path options, pos⟩ : Slice).trim = ⟨itemText path options, pos⟩ := by
  have hchars := isPathChar_of_isExpandName h
  unfold itemText
  split
  · rw [List.append_nil]
    refine Slice.trim_eq (render_expandPathKinds_ne_nil h) ?_ ?_
    · intro c r hc
      exact (hchars c (by simp [hc])).isBlank
    · intro s c hc
      exact (hchars c (by simp [hc])).isBlank
  · exact trim_group h

/-- An expand item with its options in parentheses is taken apart into its path and them. -/
theorem expandParts_group (h : IsExpandName path) (hoptions : IsClosed options) (pos : Nat) :
    ∃ start, expandParts ⟨render (expandPathKinds path) ++ '(' :: (options ++ [')']), pos⟩ =
      .ok ⟨⟨render (expandPathKinds path), pos⟩, some ⟨options, start⟩⟩ := by
  have hchars := isPathChar_of_isExpandName h
  have hcut : Nesting.cut '(' Nesting.start (render (expandPathKinds path)) = none :=
    Nesting.cut_of_notMem fun hc => (hchars _ hc).ne (by decide) (by decide) rfl
  have hafter : Nesting.start.after (render (expandPathKinds path)) = Nesting.start :=
    Nesting.after_of_isPlain (fun c hc => (hchars c hc).isPlain) rfl
  have hopen : Nesting.cut '(' Nesting.start ('(' :: (options ++ [')'])) =
      some ([], options ++ [')']) := rfl
  unfold expandParts
  rw [if_neg (by simp)]
  simp only [Slice.cut, Nesting.cut_append hcut, hafter, hopen, Option.map_some,
    close_append hoptions, List.append_nil]
  exact ⟨_, rfl⟩

/-- An expand item is taken apart into its path and its options. -/
theorem expandParts_itemText (h : IsExpandName path) (hoptions : IsClosed options) (pos : Nat) :
    ∃ start, expandParts ⟨itemText path options, pos⟩ =
      .ok ⟨⟨render (expandPathKinds path), pos⟩,
        if options = [] then none else some ⟨options, start⟩⟩ := by
  by_cases ho : options = []
  · have hchars := isPathChar_of_isExpandName h
    have hcut : Nesting.cut '(' Nesting.start (render (expandPathKinds path)) = none :=
      Nesting.cut_of_notMem fun hc => (hchars _ hc).ne (by decide) (by decide) rfl
    simp only [itemText, if_pos ho, List.append_nil, expandParts,
      if_neg (render_expandPathKinds_ne_nil h), Slice.cut, hcut]
    exact ⟨0, rfl⟩
  · simp only [itemText, if_neg ho]
    exact expandParts_group h hoptions pos

/-- The path of an expand item is read in any number of brackets. -/
theorem run_expandPath (h : IsExpandName path) (depth pos : Nat) :
    run expandPath depth ⟨render (expandPathKinds path), pos⟩ = .ok path := by
  -- No limit is looked at, so the limits may as well be beyond what the text needs.
  have hcomplete : Complete
      ⟨[], depth + (render (expandPathKinds path)).length + 1,
        (render (expandPathKinds path)).length + 1⟩
      (do if ← consume .star then pure "*" else memberPath) (· = .eof) IsExpandPath :=
    complete_expandPath
  exact (prints_expandPath h).run hcomplete rfl (Nat.lt_succ_self _) (Nat.lt_succ_self _) pos

variable {settings : Settings} {depth : Nat} {nested : Slice → Except Stop Query}

/-- An expand item that can be read back: its path is one, there is room to read it, and
its options are closed and are read back, if there are any. -/
structure Rereads (settings : Settings) (depth : Nat) (nested : Slice → Except Stop Query)
    (item : ExpandItem) : Prop where
  path : IsExpandName item.path
  depth : depth + (render (expandPathKinds item.path)).length < settings.maxDepth
  operators : (render (expandPathKinds item.path)).length < settings.maxOperatorDepth
  closed : IsClosed (item.options.optionsText ';')
  empty : item.options.optionsText ';' = [] → item.options = Query.empty
  nested : item.options.optionsText ';' ≠ [] →
    ∀ pos, nested ⟨item.options.optionsText ';', pos⟩ = .ok item.options

/-- Expand items are read back, one by one. -/
theorem expandItems_texts {items : List ExpandItem} {seen : List (String × Span)}
    (h : ∀ i ∈ items, Rereads settings depth nested i)
    (hseen : ∀ i ∈ items, seen.lookup i.path = none)
    (hnodup : (items.map ExpandItem.path).Nodup) (pos : Nat) :
    expandItems settings depth nested seen
      (Slice.place ',' pos (items.map ExpandItem.text)) = .ok items := by
  induction items generalizing seen pos with
  | nil => rfl
  | cons item items ih =>
    obtain ⟨hi, hrest⟩ := List.forall_mem_cons.1 h
    obtain ⟨hnew, hold⟩ := List.forall_mem_cons.1 hseen
    obtain ⟨hfirst, hnodup⟩ := List.nodup_cons.1 hnodup
    obtain ⟨start, hparts⟩ := expandParts_itemText hi.path hi.closed pos
    have hread : run expandPath depth ⟨render (expandPathKinds item.path), pos⟩ =
        .ok item.path :=
      (prints_expandPath hi.path).run complete_expandPath rfl hi.depth hi.operators pos
    have hoptions : itemOptions nested ⟨⟨render (expandPathKinds item.path), pos⟩,
        if item.options.optionsText ';' = [] then none
        else some ⟨item.options.optionsText ';', start⟩⟩ = .ok item.options := by
      unfold itemOptions
      by_cases ho : item.options.optionsText ';' = []
      · simp only [if_pos ho]
        rw [hi.empty ho]
      · simp only [if_neg ho]
        exact hi.nested ho start
    have htext : item.text = itemText item.path (item.options.optionsText ';') := rfl
    rw [List.map_cons, Slice.place, expandItems_cons, htext, trim_itemText hi.path, hparts]
    refine bind_eq_ok.2 ⟨item.path, hread, ?_⟩
    rw [hnew]
    -- Its path was not seen, and the paths of the items after it differ from it.
    have hself : (⟨item.path, item.options⟩ : ExpandItem) = item := by cases item; rfl
    refine bind_eq_ok.2 ⟨item.options, hoptions, bind_eq_ok.2
      ⟨items, ih hrest (fun i hmem => ?_) hnodup _, by rw [hself]⟩⟩
    have hne : i.path ≠ item.path := fun he => hfirst (he ▸ List.mem_map_of_mem hmem)
    rw [List.lookup_cons, beq_false_of_ne hne]
    exact hold i hmem

end ExpandItems

/-! ## Values -/

section Values
variable {settings : Settings} {depth : Nat} {nested : Slice → Except Stop Query} {sep : Char}
  {q : Query}

/-- The text of a value is read as the value, if there is room for it and the expand items
are read back. -/
theorem optionValue_text (h : q.FlatWellFormed settings sep)
    (hexpand : ∀ items, q.expand = some items → items ≠ [] ∧ (items.map ExpandItem.path).Nodup ∧
      ∀ i ∈ items, Rereads settings depth nested i)
    {v : OptionValue} (hv : v ∈ q.values) (hd : depth + v.text.length < settings.maxDepth)
    (ho : v.text.length < settings.maxOperatorDepth) (name : Span) (pos : Nat) :
    optionValue settings depth nested ⟨v.option, name, ⟨v.text, pos⟩⟩ = .ok v := by
  rw [Query.mem_values] at hv
  refine optionValue_eq_ok.2 ⟨rfl, ?_⟩
  cases v with
  | select items =>
    obtain ⟨_, he, ⟨⟩⟩ := Option.map_eq_some_iff.1 hv
    obtain ⟨hne, hitems⟩ := h.select items he
    have hlist := Prints.separated (.inl rfl) hne fun i hi => prints_selectItem (hitems i hi)
    exact hlist.run complete_selection rfl hd ho pos
  | expand items =>
    obtain ⟨_, he, ⟨⟩⟩ := Option.map_eq_some_iff.1 hv
    obtain ⟨hne, hnodup, hitems⟩ := hexpand items he
    have hfits : ∀ t ∈ items.map ExpandItem.text, Fits ',' t := by
      intro t ht
      obtain ⟨i, hi, rfl⟩ := List.mem_map.1 ht
      exact fits_itemText (hitems i hi).path (hitems i hi).closed
        (fun c hc => hc.ne (by decide) (by decide)) (by decide)
    have hsplit : (⟨(OptionValue.expand items).text, pos⟩ : Slice).split ',' =
        Slice.place ',' pos (items.map ExpandItem.text) := by
      show Slice.place ',' pos (Nesting.split ',' (joined ',' (ExpandItem.texts items))) = _
      rw [ExpandItem.texts_eq, split_joined Nesting.isSeparator_comma (by simpa using hne)
        fun t ht => (hfits t ht).whole]
    show expandItems settings depth nested [] (Slice.split ',' _) = _
    rw [hsplit]
    exact expandItems_texts hitems (fun _ _ => rfl) hnodup pos
  | filter e =>
    obtain ⟨_, he, ⟨⟩⟩ := Option.map_eq_some_iff.1 hv
    obtain ⟨hwf, hb⟩ := h.filter e he
    have hcondition : Prints (DerivesCondition settings .disjunction)
        (e.kinds false .disjunction) e :=
      (prints_expr hwf false .disjunction).map fun w hw => ⟨hw, hb⟩
    exact hcondition.run (complete_boolean ⟨settings, some .filter⟩) trivial hd ho pos
  | orderBy items =>
    obtain ⟨_, he, ⟨⟩⟩ := Option.map_eq_some_iff.1 hv
    obtain ⟨hne, hitems⟩ := h.orderBy items he
    have hlist := Prints.separated (.inl rfl) hne fun i hi => prints_orderByItem (hitems i hi)
    exact hlist.run complete_ordering rfl hd ho pos
  | callback text =>
    obtain ⟨_, he, ⟨⟩⟩ := Option.map_eq_some_iff.1 hv
    have hne : text.toList ≠ [] := by simpa using (h.callback text he).1
    exact ⟨hne, String.ofList_toList⟩
  | format text =>
    obtain ⟨_, he, ⟨⟩⟩ := Option.map_eq_some_iff.1 hv
    have hne : text.toList ≠ [] := by simpa using (h.format text he).1
    exact ⟨hne, String.ofList_toList⟩
  | search term =>
    obtain ⟨_, he, ⟨⟩⟩ := Option.map_eq_some_iff.1 hv
    exact Quoted.term_eq_some_iff.2 ⟨by simpa using h.search term he, .inl .single⟩
  | count wanted =>
    cases wanted with
    | true => exact String.ofList_toList
    | false => exact String.ofList_toList
  | skip n =>
    obtain ⟨_, he, ⟨⟩⟩ := Option.map_eq_some_iff.1 hv
    exact Numeral.unsigned?_toDigits (h.skip n he)
  | top n =>
    obtain ⟨_, he, ⟨⟩⟩ := Option.map_eq_some_iff.1 hv
    exact Numeral.unsigned?_toDigits (h.top n he)
  | apply stages =>
    obtain ⟨_, he, ⟨⟩⟩ := Option.map_eq_some_iff.1 hv
    obtain ⟨hne, hstages⟩ := h.apply stages he
    exact (prints_pipeline hne hstages).run (complete_stages ⟨settings, some .apply⟩) rfl hd ho pos

end Values

/-! ## Lists -/

section Lists
variable {settings : Settings} {sep : Char} {q : Query}

/-- Options that are written are assigned one after the other. -/
theorem assignAll_written {value : Assignment → Except Stop OptionValue} {vs : List OptionValue}
    {seen : List (QueryOption × Span)}
    (hvalue : ∀ v ∈ vs, ∀ name pos, value ⟨v.option, name, ⟨v.text, pos⟩⟩ = .ok v)
    (hseen : ∀ v ∈ vs, seen.lookup v.option = none)
    (hnodup : (vs.map OptionValue.option).Nodup) (pos : Nat) :
    assignAll value seen q (Slice.place sep pos (vs.map OptionValue.written)) =
      .ok (vs.foldl Query.assign q) := by
  induction vs generalizing seen q pos with
  | nil => rfl
  | cons v vs ih =>
    obtain ⟨hv, hvalue⟩ := List.forall_mem_cons.1 hvalue
    obtain ⟨hnew, hseen⟩ := List.forall_mem_cons.1 hseen
    obtain ⟨hfirst, hnodup⟩ := List.nodup_cons.1 hnodup
    obtain ⟨name, start, hassign⟩ := assignment?_written v.option v.text pos
    have hitem : assignment? ⟨v.written, pos⟩ = .ok (some ⟨v.option, name, ⟨v.text, start⟩⟩) :=
      hassign
    rw [List.map_cons, Slice.place, assignAll_of_unseen hitem hnew]
    refine bind_eq_ok.2 ⟨v, hv name start, ih hvalue (fun u hu => ?_) hnodup _⟩
    have hne : u.option ≠ v.option := fun he => hfirst (he ▸ List.mem_map_of_mem hu)
    rw [List.lookup_cons, beq_false_of_ne hne]
    exact hseen u hu

theorem written_ne_nil (v : OptionValue) : v.written ≠ [] := by
  simp [OptionValue.written, QueryOption.written]

/-- Only a query without options has no text. -/
theorem values_eq_nil (h : q.optionsText sep = []) : q.values = [] := by
  cases hv : q.values with
  | nil => rfl
  | cons v vs =>
    have hmem : v.written ∈ q.written := by
      rw [Query.written_eq, hv]
      exact List.mem_cons_self ..
    have hle : v.written.length ≤ (joined sep q.written).length := length_le_joined hmem
    have hpos := List.length_pos_iff.2 (written_ne_nil v)
    rw [show joined sep q.written = [] from h] at hle
    exact absurd hle (by simpa using written_ne_nil v)

theorem eq_empty (hp : q.path = none) (h : q.optionsText sep = []) : q = Query.empty := by
  have hq := Query.ofValues_values q
  rw [values_eq_nil h] at hq
  obtain ⟨path⟩ := q
  obtain rfl : path = none := hp
  exact hq.symm

/-- The options of a query are read back, where all their values are. -/
theorem listWith_optionsText {depth : Nat} {nested : Slice → Except Stop Query}
    (hsep : IsOptionMark sep) (hfits : ∀ t ∈ q.written, Fits sep t)
    (hvalue : ∀ v ∈ q.values, ∀ name pos,
      optionValue settings depth nested ⟨v.option, name, ⟨v.text, pos⟩⟩ = .ok v) (pos : Nat) :
    listWith settings depth nested sep ⟨q.optionsText sep, pos⟩ =
      .ok (Query.ofValues q.values) := by
  unfold listWith Slice.split
  by_cases hne : q.written = []
  · have htext : q.optionsText sep = [] := by rw [Query.optionsText, hne]; rfl
    rw [htext, values_eq_nil htext]
    rfl
  · have hsplit : Nesting.split sep (q.optionsText sep) = q.written :=
      split_joined hsep.isSeparator hne fun t ht => (hfits t ht).whole
    show assignAll _ _ _ (Slice.place sep pos (Nesting.split sep (q.optionsText sep))) = _
    rw [hsplit, Query.written_eq]
    exact assignAll_written hvalue (fun _ _ => rfl) (Query.nodup_values q) pos

/-- The text of a value is shorter than that of the options that it is one of. -/
theorem length_text_lt {v : OptionValue} (hv : v ∈ q.values) :
    v.text.length < (q.optionsText sep).length := by
  have hmem : v.written ∈ q.written := by
    rw [Query.written_eq]
    exact List.mem_map_of_mem hv
  have hle : v.written.length ≤ (joined sep q.written).length := length_le_joined hmem
  have hlength : v.written.length = v.option.word.toList.length + (v.text.length + 1) := by
    simp [OptionValue.written, QueryOption.written]
  show _ < (joined sep q.written).length
  omega

/-- The path and the options of an expand item are shorter than the options that it is in. -/
theorem length_item_lt {items : List ExpandItem} (he : q.expand = some items) {i : ExpandItem}
    (hi : i ∈ items) :
    (render (expandPathKinds i.path)).length < (q.optionsText sep).length ∧
      (i.options.optionsText ';').length < (q.optionsText sep).length := by
  have hv : OptionValue.expand items ∈ q.values :=
    Query.mem_values.2 (by simp [OptionValue.option, Query.value?, he])
  have hlt : (OptionValue.expand items).text.length < (q.optionsText sep).length :=
    length_text_lt hv
  have hmem : i.text ∈ ExpandItem.texts items := by
    rw [ExpandItem.texts_eq]
    exact List.mem_map_of_mem hi
  have hle : i.text.length ≤ (OptionValue.expand items).text.length := length_le_joined hmem
  have hitem : (render (expandPathKinds i.path)).length + (i.options.optionsText ';').length ≤
      i.text.length := by
    show _ ≤ (itemText i.path (i.options.optionsText ';')).length
    unfold itemText
    split
    · next hnil => simp [hnil]
    · simp
      omega
  omega

/-- **One level of options is read back**, if the levels in it are. -/
theorem listWith_of_nested {depth : Nat} {nested : Slice → Except Stop Query}
    (hsep : IsOptionMark sep) (h : q.WellFormed settings sep) (hq : q.ClosedTexts)
    (hd : depth + (q.optionsText sep).length ≤ settings.maxDepth)
    (ho : (q.optionsText sep).length ≤ settings.maxOperatorDepth)
    (hnested : ∀ items, q.expand = some items → ∀ i ∈ items,
      i.options.optionsText ';' ≠ [] → ∀ pos,
        nested ⟨i.options.optionsText ';', pos⟩ = .ok (Query.ofValues i.options.values))
    (pos : Nat) :
    listWith settings depth nested sep ⟨q.optionsText sep, pos⟩ =
      .ok (Query.ofValues q.values) := by
  have hfits := fits_of_mem_written hsep h hq
  obtain ⟨hflat, hlist, hpath, hwf⟩ := h
  obtain ⟨-, -, hclosed⟩ := hq
  have hitems : ∀ items, q.expand = some items → ∀ i ∈ items,
      Rereads settings depth nested i := by
    intro items he i hi
    have hlength : (render (expandPathKinds i.path)).length < (q.optionsText sep).length :=
      (length_item_lt he hi).1
    have hsemi : IsOptionMark ';' := .inr (.inl rfl)
    have hinner := fits_of_mem_written hsemi (hwf items he i hi) (hclosed items he i hi)
    refine ⟨(hlist items he).2.2 i hi, by omega, by omega, ?_, ?_, ?_⟩
    · exact .joined hsemi.isPlain fun t ht => (hinner t ht).1
    · exact eq_empty (hpath items he i hi)
    · intro hne pos
      -- Options in brackets have no path, so they are all there is.
      have hself : ({ i.options with path := none } : Query) = i.options := by
        have hnone := hpath items he i hi
        cases ho : i.options
        rw [ho] at hnone
        cases hnone
        rfl
      rw [hnested items he i hi hne pos, Query.ofValues_values, hself]
  refine listWith_optionsText hsep hfits (fun v hv name pos => ?_) pos
  have hlength : v.text.length < (q.optionsText sep).length := length_text_lt hv
  refine optionValue_text hflat (fun items he => ?_) hv (by omega) (by omega) name pos
  exact ⟨(hlist items he).1, (hlist items he).2.1, hitems items he⟩

/-- **The text of the options of a well-formed query is read back**, if its raw texts are closed
and there is room for as many brackets and operators as the text has characters. -/
theorem optionList_optionsText {room : Nat} (hroom : room ≤ settings.maxDepth) :
    ∀ {sep : Char} {q : Query}, IsOptionMark sep → q.WellFormed settings sep → q.ClosedTexts →
      (q.optionsText sep).length ≤ room →
      (q.optionsText sep).length ≤ settings.maxOperatorDepth → ∀ pos,
        optionList settings room sep ⟨q.optionsText sep, pos⟩ = .ok (Query.ofValues q.values) := by
  have hsemi : IsOptionMark ';' := .inr (.inl rfl)
  induction room with
  | zero =>
    intro sep q hsep h hq hd ho pos
    refine listWith_of_nested hsep h hq (by omega) ho (fun items he i hi hne => ?_) pos
    -- Without room there is no text, and no item with options in it.
    have hlength : (i.options.optionsText ';').length < (q.optionsText sep).length :=
      (length_item_lt he hi).2
    omega
  | succ room ih =>
    intro sep q hsep h hq hd ho pos
    refine listWith_of_nested hsep h hq (by omega) ho (fun items he i hi hne pos => ?_) pos
    have hlength : (i.options.optionsText ';').length < (q.optionsText sep).length :=
      (length_item_lt he hi).2
    obtain ⟨-, -, -, hwf⟩ := h
    obtain ⟨-, -, hclosed⟩ := hq
    exact ih (by omega) hsemi (hwf items he i hi) (hclosed items he i hi) (by omega) (by omega) pos

end Lists

/-! ## Queries -/

section Queries
variable {settings : Settings} {q : Query}

/-- Every option begins with a dollar sign. -/
theorem exists_written (v : OptionValue) : ∃ r, v.written = '$' :: r := by
  obtain ⟨r, hr⟩ : ∃ r, v.option.word.toList = '$' :: r := by
    cases v.option <;> exact ⟨_, rfl⟩
  exact ⟨r ++ '=' :: v.text, by rw [OptionValue.written, QueryOption.written, hr, List.cons_append]⟩

theorem head?_optionsText {sep : Char} (hne : q.optionsText sep ≠ []) :
    (q.optionsText sep).head? = some '$' := by
  unfold Query.optionsText at *
  rw [Query.written_eq] at *
  cases hv : q.values with
  | nil =>
    rw [hv] at hne
    exact absurd rfl hne
  | cons v vs =>
    obtain ⟨r, hr⟩ := exists_written v
    cases vs with
    | nil => simp [joined, hr]
    | cons u vs => simp [joined, hr]

theorem trimEnd_cons_ne_nil {c : Char} (h : isBlank c = false) (s : List Char) :
    Text.trimEnd (c :: s) ≠ [] := by
  rw [Text.trimEnd]
  split
  · simp [h]
  · simp

/-- A query without a path is read back. -/
theorem read_optionsText (h : q.WellFormed settings '&') (hq : q.ClosedTexts) (hp : q.path = none)
    (hd : (q.optionsText '&').length ≤ settings.maxDepth)
    (ho : (q.optionsText '&').length ≤ settings.maxOperatorDepth) :
    Query.read settings (String.ofList (q.optionsText '&')) = .ok q := by
  have hself : { Query.ofValues q.values with path := none } = q := by
    rw [Query.ofValues_values]
    obtain ⟨path⟩ := q
    obtain rfl : path = none := hp
    rfl
  rw [Query.read_eq, Slice.ofString, String.toList_ofList]
  by_cases hne : q.optionsText '&' = []
  · rw [hne, eq_empty hp hne]
    rfl
  · have hhalves : Halves.ofSlice ⟨q.optionsText '&', 0⟩ =
        ⟨⟨[], 0⟩, some ⟨q.optionsText '&', 0⟩⟩ := if_pos (head?_optionsText hne)
    have hread := optionList_optionsText (Nat.le_refl _) (.inl rfl) h hq hd ho 0
    rw [hhalves]
    exact bind_eq_ok.2 ⟨none, rfl, bind_eq_ok.2 ⟨_, hread, congrArg Except.ok hself⟩⟩

/-- A query with a path is read back. -/
theorem read_pathText (h : q.WellFormed settings '&') (hq : q.ClosedTexts)
    {segments : List PathSegment} (hp : q.path = some segments)
    (hd : (render (pathKinds segments) ++ '?' :: q.optionsText '&').length ≤ settings.maxDepth)
    (ho : (render (pathKinds segments) ++ '?' :: q.optionsText '&').length ≤
      settings.maxOperatorDepth) :
    Query.read settings (String.ofList (render (pathKinds segments) ++ '?' :: q.optionsText '&')) =
      .ok q := by
  rw [List.length_append, List.length_cons] at hd ho
  -- The options make the query up to its path, which is read by itself.
  have hself : { Query.ofValues q.values with path := some segments } = q := by
    rw [Query.ofValues_values]
    obtain ⟨path⟩ := q
    obtain rfl : path = some segments := hp
    rfl
  obtain ⟨hne, hwf⟩ := h.flat.path segments hp
  have hprints := prints_resourcePath hne hwf
  obtain ⟨hclosed, hunexposed⟩ : Fits '?' (render (pathKinds segments)) :=
    hprints.fits (.inr (.inr rfl))
  obtain ⟨r, hr⟩ : ∃ r, render (pathKinds segments) = '/' :: r := ⟨_, rfl⟩
  have hhalves : Halves.ofSlice ⟨render (pathKinds segments) ++ '?' :: q.optionsText '&', 0⟩ =
      ⟨⟨render (pathKinds segments), 0⟩, some ⟨q.optionsText '&',
        (⟨render (pathKinds segments), 0⟩ : Slice).stop + '?'.utf8Size⟩⟩ := by
    have hcut := Nesting.cut_append_cons (t := q.optionsText '&') Nesting.isSeparator_question
      hunexposed hclosed.after
    unfold Halves.ofSlice
    rw [if_neg (by simp [hr])]
    simp only [Slice.cut, hcut, Option.map_some]
  have hpath : Query.readPath settings ⟨render (pathKinds segments), 0⟩ = .ok (some segments) := by
    have hblank : (⟨render (pathKinds segments), 0⟩ : Slice).trim.text ≠ [] := by
      show Text.trimEnd (Text.trimStart (render (pathKinds segments))) ≠ []
      rw [hr, trimStart_cons (by decide)]
      exact trimEnd_cons_ne_nil (by decide) r
    have hread : run (resourcePath ⟨settings, none⟩) 0 ⟨render (pathKinds segments), 0⟩ =
        .ok segments :=
      hprints.run (@complete_resourcePath settings ⟨settings, none⟩) rfl (by omega) (by omega) 0
    rw [Query.readPath, if_neg hblank]
    exact map_eq_ok.2 ⟨segments, hread, rfl⟩
  have hoptions := optionList_optionsText (Nat.le_refl _) (.inl rfl) h hq (by omega) (by omega)
    ((⟨render (pathKinds segments), 0⟩ : Slice).stop + '?'.utf8Size)
  rw [Query.read_eq, Slice.ofString, String.toList_ofList, hhalves]
  exact bind_eq_ok.2 ⟨some segments, hpath,
    bind_eq_ok.2 ⟨_, hoptions, congrArg Except.ok hself⟩⟩

/-- The canonical text of a well-formed query is read back, if its raw texts are closed and
there is room for as many brackets and operators as the text has characters. -/
theorem read_canonical (h : q.WellFormed settings '&') (hq : q.ClosedTexts)
    (hd : q.canonical.length ≤ settings.maxDepth)
    (ho : q.canonical.length ≤ settings.maxOperatorDepth) :
    Query.read settings q.canonical = .ok q := by
  unfold Query.canonical at *
  rw [String.length_ofList] at hd ho
  cases hp : q.path with
  | none =>
    simp only [hp] at hd ho
    exact read_optionsText h hq hp hd ho
  | some segments =>
    simp only [hp] at hd ho
    exact read_pathText h hq hp hd ho

end Queries

/-- **Every query that a text is parsed to is parsed again from its canonical text**, under the
same parameters, if the raw texts in it are closed and there is room for as many brackets and
operators as the canonical text has characters. -/
theorem parse_canonical {settings settings' : Settings} {text : String} {q : Query}
    (h : parse settings text = .query q) (hclosed : q.ClosedTexts)
    (hparameters : settings'.parameters = settings.parameters)
    (hd : q.canonical.length ≤ settings'.maxDepth)
    (ho : q.canonical.length ≤ settings'.maxOperatorDepth) :
    parse settings' q.canonical = .query q := by
  have hknows : ∀ name, settings.knows name = true → settings'.knows name = true := by
    intro name hname
    rw [Settings.knows, hparameters]
    exact hname
  exact parse_eq_query.2 (read_canonical ((parse_wellFormed h).of_knows hknows) hclosed hd ho)

/-- The query of `$filter=(B) eq null'it''s'&$expand=C($top=03)&$format=x`. -/
def formatAndExpand : Query where
  expand := some [⟨"C", { top := some 3 }⟩]
  filter := some
    (.comparison .eq (.property ⟨"B", none⟩) (.literal (.null (some "it's"))))
  format := some "x"

set_option maxRecDepth 4000 in
theorem parse_formatAndExpand :
    parse Settings.standard "$filter=(B) eq null'it''s'&$expand=C($top=03)&$format=x" =
        .query formatAndExpand ∧
      formatAndExpand.canonical = "$expand=C($top=3)&$filter=B eq null'it''s'&$format=x" ∧
      parse Settings.standard formatAndExpand.canonical = .query formatAndExpand := by
  have h : parse Settings.standard "$filter=(B) eq null'it''s'&$expand=C($top=03)&$format=x" =
      .query formatAndExpand := by
    decide +kernel
  have hcanonical : formatAndExpand.canonical =
      "$expand=C($top=3)&$filter=B eq null'it''s'&$format=x" := by
    decide +kernel
  have hclosed : formatAndExpand.ClosedTexts := by
    refine .mk (by rintro _ ⟨⟩) ?_ ?_
    · rintro _ ⟨⟩
      rfl
    · rintro _ ⟨⟩ i hi
      rw [List.mem_singleton.1 hi]
      exact .mk (by rintro _ ⟨⟩) (by rintro _ ⟨⟩) (by rintro _ ⟨⟩)
  have hlength : formatAndExpand.canonical.length ≤ 128 := by
    rw [hcanonical]
    decide
  exact ⟨h, hcanonical, parse_canonical h hclosed rfl hlength (Nat.le_trans hlength (by decide))⟩

end OData
