import OData.Proofs.Canonical.Texts
import OData.Proofs.Query.Items

/-!
# Reading canonical text

That what is written is read, from single values to whole option lists.  The texts of
values are closed and expose no separator, so that a list of them is taken apart where
it was put together; and each of them is read as the value that it is the text of.
-/
namespace OData
open Grammar Text

/-! ## Paths of expand items -/

section Paths

/-- The characters of paths. -/
def IsPathChar (c : Char) : Prop := isWordPart c = true ∨ c = '$' ∨ c = '/' ∨ c = '*'

theorem IsPathChar.isPlain {c : Char} (h : IsPathChar c) : Nesting.IsPlain c := by
  rcases h with h | rfl | rfl | rfl
  · exact isPlain_of_isWordPart h
  all_goals exact ⟨by decide, by decide, by decide⟩

theorem isBlank_of_isWordPart {c : Char} (h : isWordPart c = true) : isBlank c = false := by
  simp only [isWordPart, isWordStart, isDigit, Bool.or_eq_true, Bool.and_eq_true,
    decide_eq_true_eq, beq_iff_eq, Char.le_def, UInt32.le_iff_toNat_le, Char.reduceVal,
    UInt32.reduceToNat, Char.toNat_val] at h
  simp only [isBlank, blankRanges, List.any_cons, List.any_nil, Bool.or_false,
    Bool.or_eq_false_iff, Bool.and_eq_false_iff, decide_eq_false_iff_not]
  rcases h with ((h | h) | rfl) | h
  · omega
  · omega
  · decide
  · omega

theorem IsPathChar.isBlank {c : Char} (h : IsPathChar c) : isBlank c = false := by
  rcases h with h | rfl | rfl | rfl
  · exact isBlank_of_isWordPart h
  all_goals decide

theorem IsPathChar.ne {c d : Char} (h : IsPathChar c) (hd : isWordPart d = false)
    (hd' : d ∉ ['$', '/', '*']) : c ≠ d := by
  rintro rfl
  rcases h with h | rfl | rfl | rfl
  · rw [hd] at h
    cases h
  all_goals simp at hd'

theorem isPathChar_of_isWord {name : String} (h : IsWord name) :
    ∀ c ∈ name.toList, IsPathChar c := by
  have hname {s : List Char} (hs : IsNameText s) : ∀ c ∈ s, IsPathChar c :=
    fun c hc => .inl (isWordPart_of_isNameText hs c hc)
  rcases h with h | ⟨s, hs, h⟩
  · exact hname h
  · rw [hs]
    exact List.forall_mem_cons.2 ⟨.inr (.inl rfl), hname h⟩

/-- A path is written as it is: there are no spaces in its text. -/
theorem render_nameKinds {names : List String} (h : AreSegments names) :
    render (nameKinds ("/".intercalate names)) = ("/".intercalate names).toList := by
  -- No space stands between a name and a slash, on either side.
  have hslash : ∀ (n : String) (ks : List Kind), gapBefore .slash (.word n :: ks) = [] := by
    intro n ks
    simp [gapBefore, Kind.spaced, Kind.isSolid, Kind.isLiteral, Kind.word?, Kind.isNumber]
  have hword : ∀ (n : String) (ns : List String),
      gapBefore (.word n) (ns.flatMap fun n => .slash :: [.word n]) = [] := by
    rintro n (_ | ⟨m, ns⟩)
    · rfl
    · simp [gapBefore, Kind.spaced, Kind.isSolid, Kind.isLiteral, Kind.word?, Kind.isNumber]
  have key : ∀ (n : String) (ns : List String),
      render (listed .slash (fun n => [.word n]) (n :: ns)) =
        joined '/' ((n :: ns).map String.toList) := by
    intro n ns
    induction ns generalizing n with
    | nil => simp [listed, joined, render, gapBefore, Kind.written]
    | cons m ns ih =>
      have htext : render (listed .slash (fun n => [.word n]) (n :: m :: ns)) =
          n.toList ++ '/' :: render (listed .slash (fun n => [.word n]) (m :: ns)) := by
        show (Kind.word n).written ++ (gapBefore (.word n)
          ((m :: ns).flatMap fun n => .slash :: [.word n]) ++ (Kind.slash.written ++
            (gapBefore .slash (.word m :: _) ++ render _))) = _
        rw [hword, hslash]
        rfl
      rw [htext, ih]
      rfl
  rw [nameKinds, partsOf_path h, toList_intercalate rfl]
  obtain ⟨n, ns, rfl⟩ := List.exists_cons_of_ne_nil h.1
  exact key n ns

/-- The path of an expand item is written as it is. -/
theorem render_expandPathKinds {path : String} (h : IsExpandName path) :
    render (expandPathKinds path) = path.toList := by
  unfold expandPathKinds
  split
  · next hstar =>
    rw [hstar]
    rfl
  · next hstar =>
    obtain ⟨names, hs, rfl⟩ := h.resolve_left hstar
    exact render_nameKinds hs

theorem isPathChar_of_isExpandName {path : String} (h : IsExpandName path) :
    ∀ c ∈ render (expandPathKinds path), IsPathChar c := by
  rw [render_expandPathKinds h]
  rcases h with rfl | ⟨names, hs, rfl⟩
  · exact List.forall_mem_singleton.2 (.inr (.inr (.inr rfl)))
  · rw [toList_intercalate rfl]
    refine joined_induction (P := fun s => ∀ c ∈ s, IsPathChar c) (fun _ h => nomatch h) ?_
      (fun hs ht => List.forall_mem_append.2 ⟨hs, ht⟩) ?_
    · exact List.forall_mem_singleton.2 (.inr (.inr (.inl rfl)))
    · exact List.forall_mem_map.2 fun name hname => isPathChar_of_isWord (hs.2 name hname).1

end Paths

/-! ## Printed values -/

section Printed
variable {α : Type} {D : List Token → α → Prop} {ks : List Kind} {a : α} {sep : Char}

/-- The separators of lists of options, and the mark after the resource path. -/
def IsOptionMark (c : Char) : Prop := c = '&' ∨ c = ';' ∨ c = '?'

theorem IsOptionMark.isSeparator (h : IsOptionMark sep) : Nesting.IsSeparator sep := by
  rcases h with rfl | rfl | rfl
  · exact Nesting.isSeparator_ampersand
  · exact Nesting.isSeparator_semicolon
  · exact Nesting.isSeparator_question

theorem IsOptionMark.isPlain (h : IsOptionMark sep) : Nesting.IsPlain sep := by
  rcases h with rfl | rfl | rfl <;> exact ⟨by decide, by decide, by decide⟩

theorem IsPathChar.ne_mark {c : Char} (h : IsPathChar c) (hsep : IsOptionMark sep) : c ≠ sep := by
  rcases hsep with rfl | rfl | rfl <;> exact h.ne (by decide) (by decide)

/-- **What is printed can stand in an option list.** -/
theorem Prints.fits (h : Prints D ks a) (hsep : IsOptionMark sep) : Fits sep (render ks) := by
  refine h.balanced.fits (fun k hk => (h.spelled k hk).1) ⟨?_, ?_, fun k hk => ?_, ?_, ?_⟩
  · rcases hsep with rfl | rfl | rfl <;> decide
  · rcases hsep with rfl | rfl | rfl <;> decide
  · rcases hsep with rfl | rfl | rfl
    · nofun
    · intro he
      exact (h.spelled k hk).2 (Option.some.inj he).symm
    · nofun
  · rcases hsep with rfl | rfl | rfl <;> decide
  · rcases hsep with rfl | rfl | rfl <;> decide

theorem Prints.length_le (h : Prints D ks a) : ks.length ≤ (render ks).length :=
  length_le_render fun k hk => (h.spelled k hk).1

/-- **What is printed is read.** -/
theorem Prints.run {limits : Settings} {p : Parse α} {stops : Kind → Prop}
    (hp : Complete limits p stops D) (hstop : stops .eof) (h : Prints D ks a) {depth : Nat}
    (hd : depth + (render ks).length < limits.maxDepth)
    (ho : (render ks).length < limits.maxOperatorDepth) (pos : Nat) :
    run (complete p) depth ⟨render ks, pos⟩ = .ok a := by
  obtain ⟨w, stop, htokens, hkinds, htight⟩ :=
    tokens_render (fun k hk => (h.spelled k hk).1) pos
  have hlength : w.length = ks.length := by rw [← hkinds, List.length_map]
  have hle := h.length_le
  have hD : D (w ++ [(⟨.eof, Span.point stop⟩ : Token)]).dropLast a := by
    rw [List.dropLast_concat]
    exact h.derived w hkinds htight
  obtain ⟨t, ht⟩ := hp.complete hstop (Slice.ends_of_tokens htokens) hD
    (s := State.start _ depth) rfl (by
      simp only [State.Room, State.start, List.length_append, List.length_singleton]
      omega)
  exact Grammar.run_eq_ok.2 ⟨_, t, htokens, ht⟩

end Printed

/-! ## Options can stand in their list -/

section Fitting
variable {settings : Settings} {sep : Char} {q : Query}

/-- An expand item can stand in a list with any separator that is in no path. -/
theorem fits_itemText {path : String} {options : List Char} (hpath : IsExpandName path)
    (hoptions : IsClosed options) (hsep : ∀ c, IsPathChar c → c ≠ sep) (hopen : sep ≠ '(') :
    Fits sep (itemText path options) := by
  have hchars := isPathChar_of_isExpandName hpath
  refine Fits.append (.of_isPlain fun c hc => ⟨(hchars c hc).isPlain, hsep c (hchars c hc)⟩) ?_
  split
  · exact .nil
  · exact .group hoptions hopen

theorem isPlain_comma : Nesting.IsPlain ',' := ⟨by decide, by decide, by decide⟩

/-- The text of an option fits between the separators of the list that it is in, if the
options in its expand items are closed. -/
theorem fits_text (hsep : IsOptionMark sep) (h : q.WellFormed settings sep) (hq : q.ClosedTexts)
    (hnested : ∀ items, q.expand = some items → ∀ i ∈ items,
      IsClosed (i.options.optionsText ';')) {v : OptionValue} (hv : v ∈ q.values) :
    Fits sep v.text := by
  obtain ⟨hflat, hlist, -, -⟩ := h
  obtain ⟨hcallback, hformat, -⟩ := hq
  rw [Query.mem_values] at hv
  -- Raw texts are closed by assumption, all other values by how they are written.
  have hraw : ∀ text : String, IsClosed text.toList → Unexposed sep text.toList →
      Fits sep text.toList := fun text hc hu => ⟨hc, hu⟩
  have hdigits : ∀ n, Fits sep (Nat.toDigits 10 n) := by
    refine fun n => .of_isPlain fun c hc => ?_
    have hpart := Numeral.isWordPart_of_isDigit ((Numeral.isDigits_toDigits n).2 c hc)
    exact ⟨isPlain_of_isWordPart hpart, IsPathChar.ne_mark (.inl hpart) hsep⟩
  cases v with
  | select items =>
    obtain ⟨_, he, ⟨⟩⟩ := Option.map_eq_some_iff.1 hv
    obtain ⟨hne, hitems⟩ := hflat.select items he
    exact (Prints.separated (.inl rfl) hne fun i hi => prints_selectItem (hitems i hi)).fits hsep
  | expand items =>
    obtain ⟨_, he, ⟨⟩⟩ := Option.map_eq_some_iff.1 hv
    have hcomma : ',' ≠ sep := by rcases hsep with rfl | rfl | rfl <;> decide
    refine Fits.joined isPlain_comma hcomma ?_
    rw [ExpandItem.texts_eq]
    rintro _ ht
    obtain ⟨i, hi, rfl⟩ := List.mem_map.1 ht
    refine fits_itemText ((hlist items he).2.2 i hi) (hnested items he i hi)
      (fun c hc => hc.ne_mark hsep) ?_
    rcases hsep with rfl | rfl | rfl <;> decide
  | filter e =>
    obtain ⟨_, he, ⟨⟩⟩ := Option.map_eq_some_iff.1 hv
    exact (prints_expr (hflat.filter e he).1 false .disjunction).fits hsep
  | orderBy items =>
    obtain ⟨_, he, ⟨⟩⟩ := Option.map_eq_some_iff.1 hv
    obtain ⟨hne, hitems⟩ := hflat.orderBy items he
    exact (Prints.separated (.inl rfl) hne fun i hi => prints_orderByItem (hitems i hi)).fits hsep
  | callback text =>
    obtain ⟨_, he, ⟨⟩⟩ := Option.map_eq_some_iff.1 hv
    exact hraw text (hcallback text he) (hflat.callback text he).2
  | format text =>
    obtain ⟨_, he, ⟨⟩⟩ := Option.map_eq_some_iff.1 hv
    exact hraw text (hformat text he) (hflat.format text he).2
  | search term => exact .written term.toList
  | count wanted =>
    have hplain (wanted : Bool) :
        (if wanted then "true".toList else "false".toList).all isWordPart = true := by
      cases wanted <;> decide
    refine .of_isPlain fun c hc => ?_
    have hpart : isWordPart c = true := by
      refine List.all_eq_true.1 (hplain wanted) c ?_
      cases wanted <;> exact hc
    exact ⟨isPlain_of_isWordPart hpart, IsPathChar.ne_mark (.inl hpart) hsep⟩
  | skip n | top n => exact hdigits n
  | apply stages =>
    obtain ⟨_, he, ⟨⟩⟩ := Option.map_eq_some_iff.1 hv
    obtain ⟨hne, hstages⟩ := hflat.apply stages he
    exact (prints_pipeline hne hstages).fits hsep

theorem isPathChar_of_mem_word (option : QueryOption) :
    ∀ c ∈ option.word.toList, IsPathChar c := by
  have hall : option.word.toList.all (fun c => isWordPart c || c == '$') = true := by
    cases option <;> decide
  intro c hc
  have h := List.all_eq_true.1 hall c hc
  rw [Bool.or_eq_true, beq_iff_eq] at h
  exact h.imp_right .inl

/-- An option with its value fits where the value does. -/
theorem fits_written (hsep : IsOptionMark sep) {option : QueryOption} {value : List Char}
    (h : Fits sep value) : Fits sep (option.written value) := by
  have hequals : '=' ≠ sep := by rcases hsep with rfl | rfl | rfl <;> decide
  have hchars : ∀ c ∈ option.word.toList ++ ['='], Nesting.IsPlain c ∧ c ≠ sep := by
    simp only [List.forall_mem_append, List.forall_mem_singleton]
    refine ⟨fun c hc => ?_, ⟨by decide, by decide, by decide⟩, hequals⟩
    have hpath := isPathChar_of_mem_word option c hc
    exact ⟨hpath.isPlain, hpath.ne_mark hsep⟩
  have hfits := (Fits.of_isPlain hchars).append h
  rwa [List.append_assoc] at hfits

/-- The options of a well-formed query fit between the separators of their list, if its raw
texts are closed. -/
theorem fits_of_mem_written (hsep : IsOptionMark sep) (h : q.WellFormed settings sep)
    (hq : q.ClosedTexts) : ∀ t ∈ q.written, Fits sep t := by
  induction h with
  | @mk sep q hflat hlist hpath hnested ih =>
    rw [Query.written_eq]
    rintro _ ht
    obtain ⟨v, hv, rfl⟩ := List.mem_map.1 ht
    refine fits_written hsep (fits_text hsep (.mk hflat hlist hpath hnested) hq ?_ hv)
    obtain ⟨-, -, hclosed⟩ := hq
    intro items he i hi
    have hsemi : IsOptionMark ';' := .inr (.inl rfl)
    exact .joined hsemi.isPlain fun t ht => (ih items he i hi hsemi (hclosed items he i hi) t ht).1

end Fitting

end OData
