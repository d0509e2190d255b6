import Mathlib.Algebra.GroupWithZero.Nat
import Mathlib.Data.List.Induction
import Mathlib.Data.List.TakeWhile
import OData.Proofs.Query.Assembly
import OData.Proofs.Query.Equality
import OData.Proofs.Query.ListShift
import OData.Proofs.Text.Joined

/-!
# Option lists, item by item

A text that begins with a dollar sign is an option list.  If it was joined from items,
each of which stays whole between ampersands, then it is read as its items are read, each
as a text of its own: it makes a query just if every item does and no two items name the
same option (`Accepted`), and the query has what the items set and nothing else.  If
not, there is a first item that offends, and the outcome is the failure of that item with
its places moved to where the item stands.
-/
namespace OData
open Text Grammar Options

/-! ## Items -/

/-- **An item of an option list**: a text that begins with a dollar sign, leaves no quote and
no parenthesis open and has no ampersand outside of them. -/
structure IsItem (t : String) : Prop where
  dollar : t.toList.head? = some '$'
  ends : Nesting.start.after t.toList = Nesting.start
  whole : Unexposed '&' t.toList

instance (t : String) : Decidable (IsItem t) :=
  decidable_of_iff (t.toList.head? = some '$' ∧ Nesting.start.after t.toList = Nesting.start ∧
      Nesting.cut '&' Nesting.start t.toList = none)
    ⟨fun ⟨hd, he, hw⟩ => ⟨hd, he, hw⟩, fun h => ⟨h.dollar, h.ends, h.whole⟩⟩

/-- A text of blanks, or of nothing at all. -/
def isBlankText (t : String) : Bool := t.toList.all isBlank

/-- **The option that an item names** and the place of its name in the item, if it can be
taken apart. -/
def naming? (t : String) : Option (QueryOption × Span) :=
  match assignment? (Slice.ofString t 0) with
  | .ok (some a) => some (a.option, a.name)
  | _ => none

/-- **Two items name the same option.** -/
def SameOption (s t : String) : Prop :=
  ∃ o p p', naming? s = some (o, p) ∧ naming? t = some (o, p')

/-- **Items that are accepted together**: each makes a query by itself, and no two name the
same option. -/
structure Accepted (settings : Settings) (items : List String) : Prop where
  each : ∀ t ∈ items, ∃ q, parse settings t = .query q
  distinct : items.Pairwise fun s t => ¬ SameOption s t

/-- **An item that offends** after some others: it names an option that one of them names, or
makes no query by itself. -/
def Offends (settings : Settings) (before : List String) (t : String) : Prop :=
  (∃ s ∈ before, SameOption s t) ∨ ∀ q, parse settings t ≠ .query q

/-- The byte position of what follows some items, each with an ampersand after it. -/
def offset (before : List String) : Nat :=
  (before.map fun t => byteLength t.toList + 1).sum

/-- **The verdict on an item, moved** to where the item stands in the text. -/
def Verdict.shift (k : Nat) (source : String) : Verdict → Verdict
  | .query q => .query q
  | .rejected r => .rejected ⟨r.message, r.span.shift k⟩
  | .malformed m => .malformed ⟨m.diagnostic.shift k, source⟩
  | .undecided => .undecided

variable {settings : Settings}

/-- Items are accepted, or there is a first one that offends. -/
theorem accepted_or_offends (settings : Settings) (items : List String) :
    Accepted settings items ∨ ∃ before t after, items = before ++ t :: after ∧
      Accepted settings before ∧ Offends settings before t := by
  -- Items are added at the end, where the new one is the first to offend if none before it does.
  induction items using List.reverseRecOn with
  | nil => exact .inl ⟨fun _ h => (nomatch h), .nil⟩
  | append_singleton items t ih =>
    rcases ih with hacc | ⟨before, u, after, rfl, hacc, hoff⟩
    · by_cases hoff : Offends settings items t
      · exact .inr ⟨items, t, [], rfl, hacc, hoff⟩
      · obtain ⟨hnew, hparse⟩ := not_or.1 hoff
        simp only [not_forall, not_not] at hparse
        refine .inl ⟨?_, ?_⟩
        · rw [List.forall_mem_append]
          exact ⟨hacc.each, List.forall_mem_singleton.2 hparse⟩
        · refine List.pairwise_append.2 ⟨hacc.distinct, List.pairwise_singleton .., ?_⟩
          intro s hs u hu hsame
          rw [List.mem_singleton.1 hu] at hsame
          exact hnew ⟨s, hs, hsame⟩
    · refine .inr ⟨before, u, after ++ [t], ?_, hacc, hoff⟩
      simp

/-! ## Values -/

namespace Options

/-- Reads the value of an option that is in no brackets. -/
def topValue (settings : Settings) (a : Assignment) : Except Stop OptionValue :=
  optionValue settings (settings.maxDepth - settings.maxDepth)
    (nestedList settings settings.maxDepth) a

theorem topValue_shift (settings : Settings) (k : Nat) (a : Assignment) :
    topValue settings (a.shift k) = (topValue settings a).mapError (Stop.shift k) :=
  optionValue_shift (nestedList_shift k (Nat.le_refl _)) a

theorem setting?_shift (k : Nat) (item : Slice) :
    setting? (topValue settings) (item.shift k) =
      (setting? (topValue settings) item).map fun s => (s.1.shift k, s.2) := by
  have hshift := assignment?_shift k item
  cases h : assignment? item with
  | error f =>
    rw [h] at hshift
    rw [setting?, setting?, h, hshift]
    rfl
  | ok a? =>
    rw [h] at hshift
    cases a? with
    | none =>
      rw [setting?_eq_none _ h, setting?_eq_none _ hshift]
      rfl
    | some a =>
      rw [setting?_of_some h, setting?_of_some hshift, topValue_shift]
      cases topValue settings a <;> rfl

theorem option_of_settingsOf (items : List Slice) :
    (settingsOf (topValue settings) items).map (fun s => s.1.option) =
      ((settingsOf (topValue settings) items).map Prod.snd).map OptionValue.option := by
  rw [List.map_map]
  refine List.map_congr_left fun s hs => ?_
  obtain ⟨item, -, hset⟩ := List.mem_filterMap.1 hs
  exact (optionValue_eq_ok.1 (setting?_eq_some.1 hset).2).1.symm

end Options

/-! ## Joined items -/

section Items
variable {s t first : String} {before after items rest : List String} {q : Query}
  {a : Assignment} {v : OptionValue} {o : QueryOption} {p : Span}

/-- Texts where they stand when an ampersand is put between each two. -/
def placed (pos : Nat) (ts : List String) : List Slice := Slice.place '&' pos (ts.map String.toList)

theorem placed_append (pos : Nat) (before after : List String) :
    placed pos (before ++ after) = placed pos before ++ placed (pos + offset before) after := by
  induction before generalizing pos with
  | nil => rfl
  | cons t before ih =>
    have hpos : pos + byteLength t.toList + '&'.utf8Size + offset before =
        pos + offset (t :: before) := by
      have hsize : '&'.utf8Size = 1 := rfl
      rw [hsize, offset, offset, List.map_cons, List.sum_cons]
      omega
    show _ :: placed _ (before ++ after) = _ :: (placed _ before ++ _)
    rw [ih, hpos]

/-- A text that stands somewhere is the text at the beginning, shifted. -/
theorem ofString_shift (t : String) (pos : Nat) :
    (Slice.ofString t 0).shift pos = ⟨t.toList, pos⟩ := by
  rw [Slice.shift, Slice.ofString, Nat.zero_add]

/-- What a text sets is the same wherever it stands. -/
theorem setting?_placed (settings : Settings) (pos : Nat) (t : String) :
    setting? (topValue settings) ⟨t.toList, pos⟩ =
      (setting? (topValue settings) (Slice.ofString t 0)).map fun s => (s.1.shift pos, s.2) := by
  rw [← ofString_shift, setting?_shift]

theorem IsItem.stays (h : IsItem t) : Whole '&' t.toList := ⟨h.ends, h.whole⟩

theorem IsItem.assignment?_ne_none (h : IsItem t) (pos : Nat) :
    assignment? ⟨t.toList, pos⟩ ≠ .ok none := by
  have hdollar := h.dollar
  cases ht : t.toList with
  | nil =>
    rw [ht] at hdollar
    cases hdollar
  | cons c r =>
    rw [ht] at hdollar
    obtain rfl : c = '$' := Option.some.inj hdollar
    have htrim : (Slice.mk ('$' :: r) pos).trimStart.text = '$' :: r := rfl
    intro hnone
    have htaken := takenApart ⟨'$' :: r, pos⟩
    rw [hnone] at htaken
    cases htaken with
    | blank hblank => cases htrim.symm.trans hblank

theorem IsItem.not_blank (h : IsItem t) : isBlankText t = false := by
  have hdollar := h.dollar
  unfold isBlankText
  cases ht : t.toList with
  | nil =>
    rw [ht] at hdollar
    cases hdollar
  | cons c r =>
    rw [ht] at hdollar
    obtain rfl : c = '$' := Option.some.inj hdollar
    rfl

theorem stays_of_isBlankText (h : isBlankText t = true) : Whole '&' t.toList := by
  refine (Fits.of_isPlain fun c hc => ?_).whole
  have hblank : isBlank c = true := List.all_eq_true.1 h c hc
  refine ⟨Nesting.isPlain_of_isBlank hblank, ?_⟩
  rintro rfl
  exact absurd hblank (by decide)

theorem assignment?_of_isBlankText (h : isBlankText t = true) (pos : Nat) :
    assignment? ⟨t.toList, pos⟩ = .ok none := by
  have htrim : (Slice.mk t.toList pos).trimStart.text = [] :=
    List.dropWhile_eq_nil_iff.2 (List.all_eq_true.1 h)
  unfold assignment?
  simp only [htrim, if_true]

/-- **A text that begins with a dollar sign is read as an option list.** -/
theorem read_of_dollar {text : String} (h : text.toList.head? = some '$') :
    Query.read settings text =
      assignAll (topValue settings) [] Query.empty ((Slice.ofString text 0).split '&') := by
  have hhalves : Halves.ofSlice (Slice.ofString text 0) =
      ⟨⟨[], 0⟩, some (Slice.ofString text 0)⟩ := if_pos h
  rw [Query.read_eq, hhalves]
  show Query.readOptions settings (some (Slice.ofString text 0)) >>= _ = _
  rw [Query.readOptions, optionList_eq, listWith]
  show assignAll (topValue settings) [] Query.empty _ >>= _ = _
  generalize (Slice.ofString text 0).split '&' = items
  cases hread : assignAll (topValue settings) [] Query.empty items with
  | error e => rfl
  | ok q =>
    have hpath : q.path = none := path_assignAll hread
    obtain @⟨path⟩ := q
    obtain rfl : path = none := hpath
    rfl

/-- Joined items are read one after the other, each where it stands. -/
theorem read_joined (hf : IsItem first) (hr : ∀ t ∈ rest, IsItem t ∨ isBlankText t = true) :
    Query.read settings ("&".intercalate (first :: rest)) =
      assignAll (topValue settings) [] Query.empty (placed 0 (first :: rest)) := by
  have htext : ("&".intercalate (first :: rest)).toList =
      joined '&' ((first :: rest).map String.toList) := toList_intercalate rfl _
  have hdollar : ("&".intercalate (first :: rest)).toList.head? = some '$' := by
    rw [htext, List.map_cons, head?_joined hf.dollar]
  have hwhole : ∀ w ∈ (first :: rest).map String.toList, Whole '&' w := by
    rw [List.forall_mem_map, List.forall_mem_cons]
    refine ⟨hf.stays, fun t ht => ?_⟩
    rcases hr t ht with hitem | hblank
    · exact hitem.stays
    · exact stays_of_isBlankText hblank
  rw [read_of_dollar hdollar]
  show assignAll _ _ _ (Slice.place '&' 0 (Nesting.split '&' ("&".intercalate _).toList)) = _
  rw [htext, split_joined Nesting.isSeparator_ampersand (by simp) hwhole]
  rfl

theorem read_item (h : IsItem t) :
    Query.read settings t = assignAll (topValue settings) [] Query.empty [Slice.ofString t 0] := by
  rw [← String.intercalate_singleton (s := "&") (t := t),
    read_joined h fun _ h => absurd h List.not_mem_nil, String.intercalate_singleton]
  rfl

/-! ## What items set -/

/-- An item makes a query by itself just if it sets something, and then it makes the query
with nothing else. -/
theorem parse_item (h : IsItem t) : parse settings t = .query q ↔
    ∃ a v, setting? (topValue settings) (Slice.ofString t 0) = some (a, v) ∧
      q = Query.ofValues [v] := by
  rw [parse_eq_query, read_item h]
  exact assignAll_singleton (h.assignment?_ne_none 0)

theorem naming?_of_setting? (h : setting? (topValue settings) (Slice.ofString t 0) = some (a, v)) :
    naming? t = some (a.option, a.name) := by
  rw [naming?, (setting?_eq_some.1 h).1]

/-- The values that texts set, each read as a text of its own. -/
def valuesOf (settings : Settings) (ts : List String) : List OptionValue :=
  ts.filterMap fun t => (setting? (topValue settings) (Slice.ofString t 0)).map Prod.snd

theorem mem_valuesOf : v ∈ valuesOf settings items ↔
    ∃ t ∈ items, ∃ a, setting? (topValue settings) (Slice.ofString t 0) = some (a, v) := by
  simp only [valuesOf, List.mem_filterMap, Option.map_eq_some_iff, Prod.exists]
  constructor
  · rintro ⟨t, ht, a, _, hset, rfl⟩
    exact ⟨t, ht, a, hset⟩
  · rintro ⟨t, ht, a, hset⟩
    exact ⟨t, ht, a, v, hset, rfl⟩

/-- Blank texts set nothing. -/
theorem valuesOf_filter (ts : List String) :
    valuesOf settings (ts.filter fun t => !isBlankText t) = valuesOf settings ts := by
  induction ts with
  | nil => rfl
  | cons t ts ih =>
    by_cases hblank : isBlankText t = true
    · have hnone : setting? (topValue settings) (Slice.ofString t 0) = none :=
        setting?_eq_none _ (assignment?_of_isBlankText hblank 0)
      rw [List.filter_cons_of_neg (by simp [hblank]), ih, valuesOf, valuesOf,
        List.filterMap_cons_none (by rw [hnone]; rfl)]
    · rw [List.filter_cons_of_pos (by simp [hblank])]
      simp only [valuesOf, List.filterMap_cons] at ih ⊢
      rw [ih]

theorem values_placed (pos : Nat) (ts : List String) :
    (settingsOf (topValue settings) (placed pos ts)).map Prod.snd = valuesOf settings ts := by
  induction ts generalizing pos with
  | nil => rfl
  | cons t ts ih =>
    have hplaced := setting?_placed settings pos t
    have ih := ih (pos + byteLength t.toList + '&'.utf8Size)
    show (settingsOf _ (⟨t.toList, pos⟩ :: placed _ ts)).map Prod.snd = _
    cases h : setting? (topValue settings) (Slice.ofString t 0) with
    | none =>
      rw [h] at hplaced
      rw [settingsOf_cons_of_none _ hplaced, ih, valuesOf, valuesOf,
        List.filterMap_cons_none (by rw [h]; rfl)]
    | some s =>
      rw [h] at hplaced
      rw [settingsOf_cons_of_some _ hplaced, List.map_cons, ih, valuesOf, valuesOf,
        List.filterMap_cons_some (by rw [h]; rfl)]

/-- Texts may stand together if each is blank or sets something and no option is set
twice. -/
theorem pass_placed (pos : Nat) {ts : List String}
    (he : ∀ t ∈ ts, isBlankText t = true ∨
      ∃ s, setting? (topValue settings) (Slice.ofString t 0) = some s)
    (hn : ((valuesOf settings ts).map OptionValue.option).Nodup) :
    Pass (topValue settings) (placed pos ts) := by
  refine ⟨?_, by rwa [option_of_settingsOf, values_placed]⟩
  clear hn
  induction ts generalizing pos with
  | nil => exact fun _ h => (nomatch h)
  | cons t ts ih =>
    obtain ⟨ht, he⟩ := List.forall_mem_cons.1 he
    refine List.forall_mem_cons.2 ⟨?_, ih _ he⟩
    rcases ht with hblank | ⟨s, hset⟩
    · exact .inl (assignment?_of_isBlankText hblank pos)
    · exact .inr ⟨_, by rw [setting?_placed, hset]; rfl⟩

/-! ## Accepted items -/

theorem Accepted.nodup (hacc : Accepted settings items) :
    ((valuesOf settings items).map OptionValue.option).Nodup := by
  rw [valuesOf, List.Nodup, List.pairwise_map, List.pairwise_filterMap]
  refine hacc.distinct.imp fun hne v hv v' hv' he => hne ?_
  obtain ⟨⟨a, v⟩, hset, rfl⟩ := Option.map_eq_some_iff.1 hv
  obtain ⟨⟨a', v'⟩, hset', rfl⟩ := Option.map_eq_some_iff.1 hv'
  have ho := (optionValue_eq_ok.1 (setting?_eq_some.1 hset).2).1
  have ho' := (optionValue_eq_ok.1 (setting?_eq_some.1 hset').2).1
  have hsame : a'.option = a.option := by rw [← ho', ← ho, he]
  exact ⟨a.option, a.name, a'.name, naming?_of_setting? hset, by
    rw [naming?_of_setting? hset', hsame]⟩

section Accepted
variable (hi : ∀ t ∈ items, IsItem t) (hacc : Accepted settings items)
include hi hacc

theorem Accepted.setting? (ht : t ∈ items) :
    ∃ s, Options.setting? (topValue settings) (Slice.ofString t 0) = some s := by
  obtain ⟨q, hq⟩ := hacc.each t ht
  obtain ⟨a, v, hset, -⟩ := (parse_item (hi t ht)).1 hq
  exact ⟨(a, v), hset⟩

theorem Accepted.pass (pos : Nat) : Pass (topValue settings) (placed pos items) :=
  pass_placed pos (fun _ ht => .inr (hacc.setting? hi ht)) hacc.nodup

/-- Accepted items make the query of what they set, in whatever order and with whatever
blanks between them, but for the first. -/
theorem parse_of_accepted (hf : first ∈ items)
    (hp : ((first :: rest).filter fun t => !isBlankText t).Perm items) :
    parse settings ("&".intercalate (first :: rest)) =
      .query (Query.ofValues (valuesOf settings items)) := by
  have hentry : ∀ t ∈ first :: rest, isBlankText t = true ∨ t ∈ items := by
    intro t ht
    by_cases hblank : isBlankText t = true
    · exact .inl hblank
    · exact .inr (hp.mem_iff.1 (List.mem_filter.2 ⟨ht, by simp [hblank]⟩))
  have hvalues : (valuesOf settings (first :: rest)).Perm (valuesOf settings items) := by
    rw [← valuesOf_filter]
    exact hp.filterMap _
  have hnodup := (hvalues.map OptionValue.option).nodup_iff.2 hacc.nodup
  have hpass : Pass (topValue settings) (placed 0 (first :: rest)) :=
    pass_placed 0 (fun t ht => (hentry t ht).imp_right (hacc.setting? hi)) hnodup
  rw [parse_eq_query, read_joined (hi first hf) fun t ht =>
    (hentry t (List.mem_cons_of_mem _ ht)).symm.imp_left (hi t), assignAll_of_pass hpass,
    values_placed, Query.ofValues_perm hnodup hvalues]

/-- What accepted items set is what each makes by itself. -/
theorem value?_of_accepted :
    (Query.ofValues (valuesOf settings items)).value? o = some v ↔
      ∃ t ∈ items, (∃ p, naming? t = some (o, p)) ∧
        ∃ q, parse settings t = .query q ∧ q.value? o = some v := by
  have hone (v : OptionValue) : ([v].map OptionValue.option).Nodup := List.nodup_singleton _
  rw [Query.value?_ofValues hacc.nodup, mem_valuesOf]
  constructor
  · rintro ⟨⟨t, ht, a, hset⟩, rfl⟩
    have ho := (optionValue_eq_ok.1 (setting?_eq_some.1 hset).2).1
    refine ⟨t, ht, ⟨a.name, by rw [naming?_of_setting? hset, ho]⟩, Query.ofValues [v],
      (parse_item (hi t ht)).2 ⟨a, v, hset, rfl⟩, ?_⟩
    exact (Query.value?_ofValues (hone v)).2 ⟨List.mem_singleton_self v, rfl⟩
  · rintro ⟨t, ht, -, q, hq, hv⟩
    obtain ⟨a, w, hset, rfl⟩ := (parse_item (hi t ht)).1 hq
    obtain ⟨hmem, ho⟩ := (Query.value?_ofValues (hone w)).1 hv
    rw [List.mem_singleton.1 hmem] at ho ⊢
    exact ⟨⟨t, ht, a, hset⟩, ho⟩

end Accepted

/-! ## The first item that offends -/

theorem exists_of_naming? (h : naming? t = some (o, p)) (pos : Nat) :
    ∃ a, assignment? ⟨t.toList, pos⟩ = .ok (some a) ∧ a.option = o ∧ a.name = p.shift pos := by
  have hshift := assignment?_shift pos (Slice.ofString t 0)
  rw [ofString_shift] at hshift
  unfold naming? at h
  split at h
  · next a ha =>
    rw [ha] at hshift
    cases h
    exact ⟨a.shift pos, hshift, rfl, rfl⟩
  · cases h

theorem naming?_of_assignment? {pos : Nat} (h : assignment? ⟨t.toList, pos⟩ = .ok (some a)) :
    ∃ p, naming? t = some (a.option, p) := by
  rw [← ofString_shift, assignment?_shift] at h
  unfold naming?
  cases ha : assignment? (Slice.ofString t 0) with
  | error f =>
    rw [ha] at h
    cases h
  | ok a? =>
    rw [ha] at h
    cases a? with
    | none => cases h
    | some b =>
      cases h
      exact ⟨b.name, rfl⟩

theorem mem_settingsOf_placed (before after : List String)
    (h : setting? (topValue settings) (Slice.ofString s 0) = some (a, v)) (pos : Nat) :
    (a.shift (pos + offset before), v) ∈
      settingsOf (topValue settings) (placed pos (before ++ s :: after)) := by
  refine List.mem_filterMap.2 ⟨⟨s.toList, pos + offset before⟩, ?_, ?_⟩
  · rw [placed_append]
    exact List.mem_append_right _ (List.mem_cons_self ..)
  · rw [setting?_placed, h]
    rfl

theorem read_items (hne : items ≠ []) (hi : ∀ t ∈ items, IsItem t) :
    Query.read settings ("&".intercalate items) =
      assignAll (topValue settings) [] Query.empty (placed 0 items) := by
  cases items with
  | nil => exact absurd rfl hne
  | cons first rest =>
    obtain ⟨hf, hr⟩ := List.forall_mem_cons.1 hi
    exact read_joined hf fun t ht => .inl (hr t ht)

section Offending
variable (hi : ∀ u ∈ before ++ t :: after, IsItem u) (hacc : Accepted settings before)
include hi hacc

/-- An item that names an option of an earlier one is refused, whatever its value is and
whatever items follow. -/
theorem read_of_sameOption {b b' : List String} {p' : Span} (hb : before = b ++ s :: b')
    (hs : naming? s = some (o, p)) (ht : naming? t = some (o, p')) :
    Query.read settings ("&".intercalate (before ++ t :: after)) =
      .error (.refused ⟨.repeatedOption o (p.shift (offset b)), p'.shift (offset before)⟩) := by
  have hbefore : ∀ u ∈ before, IsItem u := fun u hu => hi u (List.mem_append_left _ hu)
  obtain ⟨⟨a, v⟩, hset⟩ := hacc.setting? hbefore (hb ▸ by simp : s ∈ before)
  have hname := naming?_of_setting? hset
  rw [hs] at hname
  obtain ⟨rfl, rfl⟩ := Prod.mk.inj (Option.some.inj hname)
  obtain ⟨a', ha', ho', hp'⟩ := exists_of_naming? ht (0 + offset before)
  have hmem := mem_settingsOf_placed b b' hset 0
  rw [← hb] at hmem
  rw [read_items (by simp) hi, placed_append]
  show assignAll _ _ _ (_ ++ ⟨t.toList, 0 + offset before⟩ :: placed _ after) = _
  rw [assignAll_of_repeated (hacc.pass hbefore 0) ha' hmem ho'.symm, hp', ho', Nat.zero_add]
  simp only [Assignment.shift, Nat.zero_add]

/-- An item that fails by itself fails in the list, with its places moved to where it stands
and whatever items follow, if it names no option of an earlier one. -/
theorem read_of_failing {e : Stop} (hn : ∀ s ∈ before, ¬ SameOption s t)
    (he : Query.read settings t = .error e) :
    Query.read settings ("&".intercalate (before ++ t :: after)) =
      .error (e.shift (offset before)) := by
  have hbefore : ∀ u ∈ before, IsItem u := fun u hu => hi u (List.mem_append_left _ hu)
  have hone := assignAll_shift (topValue_shift settings (0 + offset before)) []
    Query.empty [Slice.ofString t 0]
  rw [← read_item (hi t (by simp)), he] at hone
  rw [List.map_cons, ofString_shift] at hone
  rw [read_items (by simp) hi, placed_append]
  show assignAll _ _ _ (_ ++ ⟨t.toList, 0 + offset before⟩ :: placed _ after) = _
  rw [assignAll_of_failing (hacc.pass hbefore 0) hone, Nat.zero_add]
  intro a ha x hx hsame
  obtain ⟨p', hp'⟩ := naming?_of_assignment? ha
  -- An item in front that sets the option of `t` would name it too.
  have hoption : x.1.option ∈ (valuesOf settings before).map OptionValue.option := by
    rw [← values_placed 0, ← option_of_settingsOf]
    exact List.mem_map.2 ⟨x, hx, rfl⟩
  obtain ⟨w, hw, hwo⟩ := List.mem_map.1 hoption
  obtain ⟨s, hs, a', hset⟩ := mem_valuesOf.1 hw
  have hname := naming?_of_setting? hset
  rw [← (optionValue_eq_ok.1 (setting?_eq_some.1 hset).2).1, hwo, hsame] at hname
  exact hn s hs ⟨a.option, a'.name, p', hname, hp'⟩

end Offending

theorem verdict_shift (source source' : String) (k : Nat) (f : Failure) :
    Verdict.ofRefusal source' (f.shift k).refusal =
      (Verdict.ofRefusal source f.refusal).shift k source' := by
  rw [Failure.refusal_shift, Failure.refusal]
  split <;> rfl

/-- The verdict on a text that is read with the failure of another, moved. -/
theorem parse_shift {text : String} {k : Nat} {e : Stop} (ht : Query.read settings t = .error e)
    (h : Query.read settings text = .error (e.shift k)) :
    parse settings text = (parse settings t).shift k text := by
  unfold parse
  rw [ht, h]
  cases e with
  | refused f => exact verdict_shift t text k f
  | exhausted | overdrawn => rfl

/-! ## The whole list -/

theorem fails_of_not_query (h : ∀ q, parse settings t ≠ .query q) :
    ∃ e, Query.read settings t = .error e := by
  cases hread : Query.read settings t with
  | ok q => exact absurd (parse_eq_query.2 hread) (h q)
  | error e => exact ⟨e, rfl⟩

theorem not_query_of_error {text : String} {e : Stop} (h : Query.read settings text = .error e) :
    parse settings text ≠ .query q := by
  intro hq
  rw [parse_eq_query.1 hq] at h
  cases h

/-- Items of which one offends make no query, whatever follows it. -/
theorem not_query_of_offends (hi : ∀ u ∈ before ++ t :: after, IsItem u)
    (hacc : Accepted settings before) (hoff : Offends settings before t) :
    parse settings ("&".intercalate (before ++ t :: after)) ≠ .query q := by
  by_cases hsame : ∃ s ∈ before, SameOption s t
  · obtain ⟨s, hs, o, p, p', hname, hname'⟩ := hsame
    obtain ⟨b, b', hb⟩ := List.append_of_mem hs
    exact not_query_of_error (read_of_sameOption hi hacc hb hname hname')
  · obtain ⟨e, he⟩ := fails_of_not_query (hoff.resolve_left hsame)
    exact not_query_of_error (read_of_failing hi hacc (fun s hs h => hsame ⟨s, hs, h⟩) he)

section List
variable (hne : items ≠ []) (hi : ∀ t ∈ items, IsItem t)
include hne hi

theorem parse_accepted (hacc : Accepted settings items) :
    parse settings ("&".intercalate items) =
      .query (Query.ofValues (valuesOf settings items)) := by
  obtain ⟨first, rest, rfl⟩ := List.exists_cons_of_ne_nil hne
  refine parse_of_accepted hi hacc (List.mem_cons_self ..) ?_
  rw [List.filter_eq_self.2 fun t ht => by rw [(hi t ht).not_blank]; rfl]

/-- Items make a query just if they are accepted. -/
theorem query_iff_accepted :
    (∃ q, parse settings ("&".intercalate items) = .query q) ↔ Accepted settings items := by
  constructor
  · rintro ⟨q, hq⟩
    rcases accepted_or_offends settings items with hacc | ⟨before, t, after, rfl, hacc, hoff⟩
    · exact hacc
    · exact absurd hq (not_query_of_offends hi hacc hoff)
  · exact fun hacc => ⟨_, parse_accepted hne hi hacc⟩

end List

end Items

/-- **An option list is assembled item by item.**  It makes a query just if its items are
accepted.  The query then has what each item sets by itself and nothing else, and so has every
list of the same items in another order and with blanks between them, as long as an item comes
first.  If the items are not accepted there is a first one that offends; it decides, by the
option that it repeats or else by its own failure, moved to where it stands. -/
theorem parse_items (settings : Settings) {items : List String} (hne : items ≠ [])
    (hi : ∀ t ∈ items, IsItem t) :
    ((∃ q, parse settings ("&".intercalate items) = .query q) ↔ Accepted settings items) ∧
    (∀ q, parse settings ("&".intercalate items) = .query q →
      q.path = none ∧
      (∀ o v, q.value? o = some v ↔ ∃ t ∈ items, (∃ p, naming? t = some (o, p)) ∧
        ∃ q', parse settings t = .query q' ∧ q'.value? o = some v) ∧
      ∀ first rest, first ∈ items → ((first :: rest).filter fun t => !isBlankText t).Perm items →
        parse settings ("&".intercalate (first :: rest)) = .query q) ∧
    (Accepted settings items ∨ ∃ before t after, items = before ++ t :: after ∧
      Accepted settings before ∧ Offends settings before t) ∧
    ∀ before t after, items = before ++ t :: after → Accepted settings before →
      (∀ b s b' o p p', before = b ++ s :: b' → naming? s = some (o, p) →
        naming? t = some (o, p') →
        Query.read settings ("&".intercalate items) =
          .error (.refused ⟨.repeatedOption o (p.shift (offset b)), p'.shift (offset before)⟩) ∧
        parse settings ("&".intercalate items) =
          .rejected ⟨(Cause.repeatedOption o (p.shift (offset b))).message,
            p'.shift (offset before)⟩) ∧
      ((∀ s ∈ before, ¬ SameOption s t) → (∀ q, parse settings t ≠ .query q) →
        (∃ e, Query.read settings t = .error e ∧
          Query.read settings ("&".intercalate items) = .error (e.shift (offset before))) ∧
        parse settings ("&".intercalate items) =
          (parse settings t).shift (offset before) ("&".intercalate items)) := by
  refine ⟨query_iff_accepted hne hi, ?_, accepted_or_offends settings items, ?_⟩
  · intro q hq
    have hacc := (query_iff_accepted hne hi).1 ⟨q, hq⟩
    obtain rfl : q = Query.ofValues (valuesOf settings items) := by
      rw [parse_accepted hne hi hacc] at hq
      exact (Verdict.query.inj hq).symm
    exact ⟨Query.path_foldl_assign .., fun o v => value?_of_accepted hi hacc,
      fun first rest hf hp => parse_of_accepted hi hacc hf hp⟩
  · rintro before t after rfl hacc
    refine ⟨?_, fun hn hfail => ?_⟩
    · intro b s b' o p p' hb hs ht
      have hread := read_of_sameOption hi hacc hb hs ht
      refine ⟨hread, ?_⟩
      rw [parse, hread]
      rfl
    · obtain ⟨e, he⟩ := fails_of_not_query hfail
      have hread := read_of_failing hi hacc hn he
      exact ⟨⟨e, he, hread⟩, parse_shift he hread⟩

/-- Two items make a query, in either order and with a blank between them.  A third one that repeats
the first is refused for that and not for its value, which is no number. -/
theorem parse_topTwice :
    (∃ q, parse Settings.standard "$top=1&$skip=2" = .query q ∧ q.path = none ∧
      q.value? .top = some (.top 1) ∧ q.value? .skip = some (.skip 2) ∧
      parse Settings.standard "$skip=2& &$top=1" = .query q) ∧
    parse Settings.standard "$top=1&$skip=2&$top=x" =
      .rejected ⟨"$top cannot exist more than once in query string", ⟨15, 19⟩⟩ := by
  have hitems : ∀ t ∈ ["$top=1", "$skip=2", "$top=x"], IsItem t := by decide
  have htop : naming? "$top=1" = some (.top, ⟨0, 4⟩) := by decide
  have hskip : naming? "$skip=2" = some (.skip, ⟨0, 5⟩) := by decide
  have hlast : naming? "$top=x" = some (.top, ⟨0, 4⟩) := by decide
  have hparseTop : parse Settings.standard "$top=1" = .query { top := some 1 } := by decide +kernel
  have hparseSkip : parse Settings.standard "$skip=2" = .query { skip := some 2 } := by
    decide +kernel
  have hacc : Accepted Settings.standard ["$top=1", "$skip=2"] := by
    refine ⟨?_, ?_⟩
    · simp only [List.forall_mem_cons]
      exact ⟨⟨_, hparseTop⟩, ⟨_, hparseSkip⟩, fun _ h => absurd h List.not_mem_nil⟩
    · refine List.pairwise_pair.2 ?_
      rintro ⟨o, p, p', h, h'⟩
      rw [htop] at h
      rw [hskip] at h'
      cases h
      cases h'
  constructor
  · obtain ⟨hquery, hset, -⟩ := parse_items Settings.standard
      (by simp : ["$top=1", "$skip=2"] ≠ []) (by decide)
    obtain ⟨q, hq⟩ := hquery.2 hacc
    obtain ⟨hpath, hvalue, hperm⟩ := hset q hq
    refine ⟨q, hq, hpath, ?_, ?_, ?_⟩
    · exact (hvalue _ _).2 ⟨_, List.mem_cons_self .., ⟨_, htop⟩, _, hparseTop, rfl⟩
    · exact (hvalue _ _).2 ⟨_, List.mem_cons_of_mem _ (List.mem_singleton_self _), ⟨_, hskip⟩, _,
        hparseSkip, rfl⟩
    · exact hperm "$skip=2" [" ", "$top=1"] (by simp) (by decide)
  · exact (((parse_items Settings.standard (by simp) hitems).2.2.2 _ _ [] rfl hacc).1
      [] _ _ _ _ _ rfl htop hlast).2

end OData
