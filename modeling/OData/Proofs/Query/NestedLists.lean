import OData.Proofs.Canonical.RoundTrip
import OData.Proofs.Query.OptionList

/-!
# Option lists in brackets

The options of an expand item mean what the same options mean at the top.  A list in
brackets has semicolons where one at the top has ampersands, it stands somewhere else, and
one bracket around it is taken off the room that it has; so it is read as the list at the
top is with one bracket less allowed (`nestedList_eq_ok_iff`).  What is left is to take the
value of `$expand` apart: items are joined with commas, each is a path and a list in
parentheses, and `expandItems` reads just those paths and lists (`expandItems_groups`).
-/
namespace OData
open Text Grammar Options

/-! ## One bracket less -/

/-- **The settings with one bracket less allowed.** -/
def Settings.inBracket (s : Settings) : Settings := { s with maxDepth := s.maxDepth - 1 }

/-- The comparison of a text at the top with the same text in a bracket, where one bracket
less is allowed at the top.  Only what is read is compared, not how it fails. -/
def Grammar.Comparison.bracket (settings : Settings) : Comparison where
  left := ⟨settings.inBracket, none⟩
  right := ⟨settings, none⟩
  place _ _ := True
  cause _ _ := True
  excused _ := False
  even := True
  option := rfl
  parameters := rfl
  operators := Nat.le_refl _
  join _ _ := trivial
  refl _ := trivial
  tooDeep := .inr ⟨trivial, trivial⟩
  tooManyOperators := .inr rfl

/-- An item of an option list in brackets: a text that begins with a dollar sign, is closed,
and has neither a semicolon nor an ampersand outside of quotes and parentheses. -/
structure IsNestedItem (t : String) : Prop where
  dollar : t.toList.head? = some '$'
  closed : IsClosed t.toList
  semicolon : Unexposed ';' t.toList
  ampersand : Unexposed '&' t.toList

instance (t : String) : Decidable (IsNestedItem t) :=
  decidable_of_iff (t.toList.head? = some '$' ∧
      Nesting.start.scan? t.toList = some Nesting.start ∧
      Nesting.cut ';' Nesting.start t.toList = none ∧
      Nesting.cut '&' Nesting.start t.toList = none)
    ⟨fun ⟨hd, hc, hs, ha⟩ => ⟨hd, hc, hs, ha⟩,
      fun h => ⟨h.dollar, h.closed, h.semicolon, h.ampersand⟩⟩

theorem IsNestedItem.isItem {t : String} (h : IsNestedItem t) : IsItem t :=
  ⟨h.dollar, h.closed.after, h.ampersand⟩

section Nested
variable {settings : Settings} {items : List String}

/-- The two separators are of the same size, so the items stand at the same distances. -/
theorem place_semicolon (pos : Nat) (ts : List (List Char)) :
    Slice.place ';' pos ts = (Slice.place '&' 0 ts).map (Slice.shift pos) := by
  have hsame (pos : Nat) : Slice.place ';' pos ts = Slice.place '&' pos ts := by
    induction ts generalizing pos with
    | nil => rfl
    | cons t ts ih => exact congrArg (_ :: ·) (ih _)
  rw [hsame, ← Slice.place_shift, Nat.zero_add]

/-- **A list in brackets is read as the list at the top is** with one bracket less allowed. -/
theorem nestedList_eq_ok_iff (hdepth : 1 ≤ settings.maxDepth) (hi : ∀ t ∈ items, IsNestedItem t)
    (pos : Nat) (q : Query) :
    nestedList settings settings.maxDepth ⟨joined ';' (items.map String.toList), pos⟩ = .ok q ↔
      parse settings.inBracket ("&".intercalate items) = .query q := by
  obtain ⟨room, hroom⟩ := Nat.exists_eq_add_of_le' hdepth
  have hinner : settings.inBracket.maxDepth = room := by
    rw [Settings.inBracket, hroom, Nat.add_sub_cancel]
  have hlist (inside : Slice) : nestedList settings settings.maxDepth inside =
      assignAll (optionValue settings (settings.maxDepth - room) (nestedList settings room)) []
        Query.empty (inside.split ';') := by
    rw [hroom]
    show optionList settings room ';' inside = _
    rw [optionList_eq, listWith, hroom]
  rw [hlist, parse_eq_query]
  cases items with
  | nil =>
    -- Nothing in the brackets is one blank item, and no text at all is the empty query.
    have hempty : Query.read settings.inBracket ("&".intercalate []) = .ok Query.empty := rfl
    rw [hempty]
    rfl
  | cons first rest =>
    have hsplit : Slice.split ';' ⟨joined ';' ((first :: rest).map String.toList), pos⟩ =
        (placed 0 (first :: rest)).map (Slice.shift pos) := by
      show Slice.place ';' pos (Nesting.split ';' _) = _
      rw [split_joined Nesting.isSeparator_semicolon (by simp), place_semicolon]
      · rfl
      · exact List.forall_mem_map.2 fun t ht => ⟨(hi t ht).closed.after, (hi t ht).semicolon⟩
    have hcovers (s : Slice) : (Comparison.bracket settings).Covers pos s := fun _ _ => trivial
    have hrepeats : (Comparison.bracket settings).Repeats pos :=
      ⟨fun _ => trivial, fun _ => trivial⟩
    have hnested : (Comparison.bracket settings).Nests pos
        (nestedList settings.inBracket settings.inBracket.maxDepth) (nestedList settings room) := by
      refine Comparison.nestedList hrepeats (Nat.le_refl _) ?_ ?_ fun _ => hinner
      · show room ≤ settings.maxDepth
        omega
      · exact Nat.le_of_eq hinner
    have hrooms : (Comparison.bracket settings).Rooms
        (settings.inBracket.maxDepth - settings.inBracket.maxDepth)
        (settings.maxDepth - room) := by
      have hroom : settings.maxDepth - room + settings.inBracket.maxDepth =
          settings.inBracket.maxDepth - settings.inBracket.maxDepth + settings.maxDepth := by
        rw [hinner]
        omega
      exact ⟨Nat.le_of_eq hroom, fun _ => hroom⟩
    have hagree := Comparison.assignAll hrepeats
      (fun a hvalue hplace => Comparison.optionValue hrepeats hrooms hnested hvalue hplace)
      (.nil) Query.empty fun t (_ : t ∈ placed 0 (first :: rest)) => hcovers t
    rw [hsplit, read_items (by simp) fun t ht => (hi t ht).isItem]
    exact (hagree.eq_ok_iff (fun _ h => h) q).symm

end Nested

/-! ## Expand items -/

/-- **An expand item as it is written**: a path, and items of an option list. -/
structure ExpandText where
  /-- The path. -/
  path : String
  /-- The items of the option list, which need not be any. -/
  items : List String
  isPath : IsExpandName path
  isItem : ∀ t ∈ items, IsNestedItem t

namespace ExpandText

/-- The text of an expand item: its path, and its options in parentheses. -/
def text (e : ExpandText) : String := e.path ++ "(" ++ ";".intercalate e.items ++ ")"

/-- The text of the option that expands some items. -/
def optionText (es : List ExpandText) : String :=
  "$expand=" ++ ",".intercalate (es.map text)

variable {settings : Settings} {e : ExpandText} {es : List ExpandText}

theorem toList_text (e : ExpandText) :
    e.text.toList = render (expandPathKinds e.path) ++
      '(' :: (joined ';' (e.items.map String.toList) ++ [')']) := by
  simp [text, render_expandPathKinds e.isPath, joined_eq_intercalate]

theorem isClosed_options (e : ExpandText) : IsClosed (joined ';' (e.items.map String.toList)) :=
  .joined ⟨by decide, by decide, by decide⟩
    (List.forall_mem_map.2 fun t ht => (e.isItem t ht).closed)

/-- An expand item stays whole between separators that are in no path. -/
theorem fits_text {sep : Char} (hsep : ∀ c, IsPathChar c → c ≠ sep) (hopen : sep ≠ '(')
    (e : ExpandText) : Fits sep e.text.toList := by
  have hchars := isPathChar_of_isExpandName e.isPath
  rw [toList_text]
  exact .append (.of_isPlain fun c hc => ⟨(hchars c hc).isPlain, hsep c (hchars c hc)⟩)
    (.group e.isClosed_options hopen)

/-- The item is read as its path and what its options are read as. -/
structure Reads (settings : Settings) (e : ExpandText) (item : ExpandItem) : Prop where
  path : item.path = e.path
  options : parse settings.inBracket ("&".intercalate e.items) = .query item.options

/-- **Expand items are read one by one**, if their paths differ. -/
theorem expandItems_groups (hdepth : 1 ≤ settings.maxDepth) (depth : Nat)
    (seen : List (String × Span)) (hseen : ∀ e ∈ es, seen.lookup e.path = none)
    (hnodup : (es.map path).Nodup) (pos : Nat) (items : List ExpandItem) :
    expandItems settings depth (nestedList settings settings.maxDepth) seen
        (Slice.place ',' pos (es.map fun e => e.text.toList)) = .ok items ↔
      List.Forall₂ (Reads settings) es items := by
  induction es generalizing seen pos items with
  | nil =>
    rw [List.forall₂_nil_left_iff]
    exact ⟨fun h => (Except.ok.inj h).symm, fun h => h ▸ rfl⟩
  | cons e es ih =>
    obtain ⟨hnew, hold⟩ := List.forall_mem_cons.1 hseen
    obtain ⟨hfirst, hnodup⟩ := List.nodup_cons.1 hnodup
    obtain ⟨start, hparts⟩ := expandParts_group e.isPath e.isClosed_options pos
    have hothers : ∀ next, ∀ i ∈ es, ((e.path, next) :: seen).lookup i.path = none := by
      intro next i hmem
      have hne : i.path ≠ e.path := fun he => hfirst (he ▸ List.mem_map_of_mem hmem)
      rw [List.lookup_cons, beq_false_of_ne hne]
      exact hold i hmem
    have hrest := fun next => ih _ (hothers next) hnodup
      (pos + byteLength e.text.toList + ','.utf8Size)
    rw [List.map_cons, Slice.place, expandItems_cons, toList_text, trim_group e.isPath, hparts]
    simp only [run_expandPath e.isPath, List.forall₂_cons_left_iff]
    dsimp only [bind, Except.bind]
    simp only [hnew]
    constructor
    · intro h
      obtain ⟨options, hoptions, h⟩ := bind_eq_ok.1 h
      obtain ⟨others, hothers, h⟩ := bind_eq_ok.1 h
      cases h
      rw [← toList_text] at hothers
      exact ⟨_, others, ⟨rfl, (nestedList_eq_ok_iff hdepth e.isItem start options).1 hoptions⟩,
        (hrest _ others).1 hothers, rfl⟩
    · rintro ⟨⟨path, options⟩, others, ⟨hpath, hoptions⟩, hothers, rfl⟩
      obtain rfl : path = e.path := hpath
      refine bind_eq_ok.2 ⟨options, (nestedList_eq_ok_iff hdepth e.isItem start _).2 hoptions,
        bind_eq_ok.2 ⟨others, ?_, rfl⟩⟩
      rw [← toList_text]
      exact (hrest _ others).2 hothers

theorem exists_reads_iff : (∃ items, List.Forall₂ (Reads settings) es items) ↔
    ∀ e ∈ es, ∃ q, parse settings.inBracket ("&".intercalate e.items) = .query q := by
  induction es with
  | nil => exact ⟨fun _ _ h => absurd h List.not_mem_nil, fun _ => ⟨[], .nil⟩⟩
  | cons e es ih =>
    rw [List.forall_mem_cons, ← ih]
    constructor
    · rintro ⟨_, hall⟩
      obtain ⟨item, items, hitem, hitems, rfl⟩ := List.forall₂_cons_left_iff.1 hall
      exact ⟨⟨item.options, hitem.options⟩, items, hitems⟩
    · rintro ⟨⟨q, hq⟩, items, hitems⟩
      exact ⟨⟨e.path, q⟩ :: items, .cons ⟨rfl, hq⟩ hitems⟩

/-! ## The option that expands them -/

theorem toList_optionText (es : List ExpandText) :
    (optionText es).toList = QueryOption.written .expand
      (joined ',' (es.map fun e => e.text.toList)) := by
  have hvalue : (",".intercalate (es.map text)).toList =
      joined ',' (es.map fun e => e.text.toList) := by
    rw [toList_intercalate rfl, List.map_map]
    rfl
  rw [optionText, String.toList_append, hvalue]
  rfl

theorem isItem_optionText (es : List ExpandText) : IsItem (optionText es) := by
  have hfits : Fits '&' (optionText es).toList := by
    rw [toList_optionText]
    refine fits_written (.inl rfl) (.joined isPlain_comma (by decide) ?_)
    exact List.forall_mem_map.2 fun e _ =>
      fits_text (fun c hc => hc.ne_mark (.inl rfl)) (by decide) e
  exact ⟨by rw [toList_optionText]; rfl, hfits.1.after, hfits.2⟩

/-- The option is read as its expand items are, and nothing else is set. -/
theorem parse_optionText_iff (hdepth : 1 ≤ settings.maxDepth) (hne : es ≠ [])
    (hnodup : (es.map path).Nodup) (q : Query) : parse settings (optionText es) = .query q ↔
      ∃ items, List.Forall₂ (Reads settings) es items ∧ q = { expand := some items } := by
  obtain ⟨name, start, hassign⟩ :=
    assignment?_written .expand (joined ',' (es.map fun e => e.text.toList)) 0
  rw [← toList_optionText] at hassign
  have hsplit : Slice.split ',' ⟨joined ',' (es.map fun e => e.text.toList), start⟩ =
      Slice.place ',' start (es.map fun e => e.text.toList) := by
    show Slice.place ',' start (Nesting.split ',' _) = _
    rw [split_joined Nesting.isSeparator_comma (by simpa using hne)]
    refine List.forall_mem_map.2 fun e _ => ?_
    exact (fits_text (fun c hc => hc.ne (by decide) (by decide)) (by decide) e).whole
  have hvalue : topValue settings
      ⟨.expand, name, ⟨joined ',' (es.map fun e => e.text.toList), start⟩⟩ =
        OptionValue.expand <$> expandItems settings (settings.maxDepth - settings.maxDepth)
          (nestedList settings settings.maxDepth) []
          (Slice.place ',' start (es.map fun e => e.text.toList)) := by
    rw [← hsplit]
    rfl
  have hitems := expandItems_groups hdepth (settings.maxDepth - settings.maxDepth) []
    (fun e (_ : e ∈ es) => List.lookup_nil) hnodup start
  rw [parse_item (isItem_optionText es)]
  constructor
  · rintro ⟨a, v, hset, rfl⟩
    obtain ⟨ha, hv⟩ := setting?_eq_some.1 hset
    have ha := Option.some.inj (Except.ok.inj (hassign.symm.trans ha))
    rw [← ha, hvalue] at hv
    obtain ⟨items, hread, rfl⟩ := map_eq_ok.1 hv
    exact ⟨items, (hitems items).1 hread, rfl⟩
  · rintro ⟨items, hread, rfl⟩
    refine ⟨_, .expand items, setting?_eq_some.2 ⟨hassign, ?_⟩, rfl⟩
    rw [hvalue]
    exact map_eq_ok.2 ⟨items, (hitems items).2 hread, rfl⟩

/-- **Nested option lists mean what the same options mean at the top.**  Items with different
paths are expanded just if the options of each make a query at the top, with one bracket less
allowed; and then these paths and queries are what is expanded, in order, and nothing else is
set. -/
theorem parse_nested (settings : Settings) (es : List ExpandText)
    (hdepth : 1 ≤ settings.maxDepth) (hne : es ≠ []) (hnodup : (es.map path).Nodup) :
    ((∃ q, parse settings (optionText es) = .query q) ↔
      ∀ e ∈ es, ∃ q, parse settings.inBracket ("&".intercalate e.items) = .query q) ∧
    ∀ q, parse settings (optionText es) = .query q →
      ∃ items : List ExpandItem, q = { expand := some items } ∧
        List.Forall₂ (fun e i => i.path = e.path ∧
          parse settings.inBracket ("&".intercalate e.items) = .query i.options) es items := by
  have hiff := parse_optionText_iff hdepth hne hnodup
  refine ⟨?_, fun q hq => ?_⟩
  · rw [← exists_reads_iff]
    constructor
    · rintro ⟨q, hq⟩
      obtain ⟨items, hread, -⟩ := (hiff q).1 hq
      exact ⟨items, hread⟩
    · rintro ⟨items, hread⟩
      exact ⟨_, (hiff _).2 ⟨items, hread, rfl⟩⟩
  · obtain ⟨items, hread, rfl⟩ := (hiff q).1 hq
    exact ⟨items, rfl, hread.imp fun e i h => ⟨h.path, h.options⟩⟩

/-- With one bracket allowed there are lists in brackets, but none of them may hold another. -/
theorem parse_oneBracket :
    (∃ q, parse { Settings.standard with maxDepth := 1 }
      "$expand=Orders($top=1;$search='a;b)'),*()" = .query q) ∧
    ¬ ∃ q, parse { Settings.standard with maxDepth := 1 }
      "$expand=Orders($expand=Lines($top=1))" = .query q := by
  have horders : IsExpandName "Orders" :=
    .inr ⟨["Orders"], ⟨by simp, List.forall_mem_singleton.2
      ⟨isWord_of_isNameText (by decide), by decide⟩⟩, by rfl⟩
  constructor
  · refine (parse_nested { Settings.standard with maxDepth := 1 }
      [⟨"Orders", ["$top=1", "$search='a;b)'"], horders, by decide⟩,
        ⟨"*", [], .inl rfl, by decide⟩] (Nat.le_refl 1) (by simp) (by simp)).1.2 ?_
    simp only [List.forall_mem_cons]
    exact ⟨⟨{ top := some 1, search := some "a;b)" }, by decide +kernel⟩,
      ⟨Query.empty, by decide +kernel⟩, fun _ h => absurd h List.not_mem_nil⟩
  · intro h
    have hinner := (parse_nested { Settings.standard with maxDepth := 1 }
      [⟨"Orders", ["$expand=Lines($top=1)"], horders, by decide⟩]
      (Nat.le_refl 1) (by simp) (by simp)).1.1 h
    obtain ⟨q, hq⟩ := List.forall_mem_singleton.1 hinner
    have hfails : Query.read { Settings.standard with maxDepth := 0 } "$expand=Lines($top=1)" =
        .error (.refused ⟨.tooDeep 0, ⟨14, 14⟩⟩) := by decide +kernel
    exact not_query_of_error hfails hq

end ExpandText

end OData
