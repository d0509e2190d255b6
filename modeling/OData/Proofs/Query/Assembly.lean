import Mathlib.Data.List.Nodup
import OData.Proofs.Query.Items
import OData.Proofs.Query.Values

/-!
# Assembling an option list

The items of an option list are read one after the other, and all that one of them
takes from those before it is which options they have set.  So the items in front can
be read for what each sets by itself (`setting?`): if they all pass and set different
options, the list goes on from what they have set (`assignAll_append`).  From there the
next item either passes too, or repeats an option and is refused for that whatever its
value is, or fails as it fails alone; the items after one that is refused are not
looked at.
-/
namespace OData.Options
open Grammar

section Assembly
variable {value : Assignment → Except Stop OptionValue} {seen : List (QueryOption × Span)}
  {q : Query} {item : Slice} {before items : List Slice} {a : Assignment} {v : OptionValue}

/-! ## Items by themselves -/

/-- **What an item sets by itself**: its assignment, and the value that is read from it. -/
def setting? (value : Assignment → Except Stop OptionValue) (item : Slice) :
    Option (Assignment × OptionValue) :=
  match assignment? item with
  | .ok (some a) => (value a).toOption.map fun v => (a, v)
  | _ => none

theorem setting?_of_some (h : assignment? item = .ok (some a)) :
    setting? value item = (value a).toOption.map fun v => (a, v) := by
  rw [setting?, h]

theorem setting?_eq_some :
    setting? value item = some (a, v) ↔ assignment? item = .ok (some a) ∧ value a = .ok v := by
  constructor
  · intro h
    unfold setting? at h
    split at h
    · next b hb =>
      cases hv : value b with
      | ok u =>
        rw [hv] at h
        cases h
        exact ⟨hb, hv⟩
      | error e =>
        rw [hv] at h
        cases h
    · cases h
  · rintro ⟨ha, hv⟩
    rw [setting?_of_some ha, hv]
    rfl

theorem setting?_eq_none (value : Assignment → Except Stop OptionValue)
    (h : assignment? item = .ok none) : setting? value item = none := by
  rw [setting?, h]

/-- An item that passes: it is blank, or sets something. -/
def Passes (value : Assignment → Except Stop OptionValue) (item : Slice) : Prop :=
  assignment? item = .ok none ∨ ∃ s, setting? value item = some s

/-- What some items set by themselves, in their order. -/
def settingsOf (value : Assignment → Except Stop OptionValue) (items : List Slice) :
    List (Assignment × OptionValue) := items.filterMap (setting? value)

/-- **Items that may stand together**: each passes, and no two set the same option. -/
structure Pass (value : Assignment → Except Stop OptionValue) (items : List Slice) : Prop where
  each : ∀ item ∈ items, Passes value item
  distinct : ((settingsOf value items).map fun s => s.1.option).Nodup

/-! ## Items together -/

/-- The options that are seen after some items, the last first. -/
def seenAfter (value : Assignment → Except Stop OptionValue) (items : List Slice) :
    List (QueryOption × Span) :=
  ((settingsOf value items).map fun s => (s.1.option, s.1.name)).reverse

theorem settingsOf_cons_of_none (items : List Slice) (h : setting? value item = none) :
    settingsOf value (item :: items) = settingsOf value items :=
  List.filterMap_cons_none h

theorem settingsOf_cons_of_some (items : List Slice) (h : setting? value item = some (a, v)) :
    settingsOf value (item :: items) = (a, v) :: settingsOf value items :=
  List.filterMap_cons_some h

/-- **The list goes on** from what the items in front have set. -/
theorem assignAll_append (hp : Pass value before)
    (hs : ∀ s ∈ settingsOf value before, seen.lookup s.1.option = none) :
    assignAll value seen q (before ++ items) =
      assignAll value (seenAfter value before ++ seen)
        (((settingsOf value before).map Prod.snd).foldl Query.assign q) items := by
  -- The options of the rest are not in `seen`, and stay out of it with each one added.
  induction before generalizing seen q with
  | nil => rfl
  | cons item before ih =>
    obtain ⟨hitem, heach⟩ := List.forall_mem_cons.1 hp.each
    have hdistinct := hp.distinct
    rcases hitem with hblank | ⟨⟨a, v⟩, hset⟩
    · have hcons := settingsOf_cons_of_none before (setting?_eq_none value hblank)
      rw [hcons] at hs hdistinct
      rw [List.cons_append, assignAll_of_none hblank, ih ⟨heach, hdistinct⟩ hs]
      simp only [seenAfter, hcons]
    · have hcons := settingsOf_cons_of_some before hset
      obtain ⟨ha, hv⟩ := setting?_eq_some.1 hset
      rw [hcons] at hs hdistinct
      obtain ⟨hnew, hs⟩ := List.forall_mem_cons.1 hs
      obtain ⟨hfirst, hdistinct⟩ := List.nodup_cons.1 hdistinct
      rw [List.cons_append, assignAll_of_unseen ha hnew, hv]
      show assignAll value ((a.option, a.name) :: seen) (q.assign v) (before ++ items) = _
      rw [ih ⟨heach, hdistinct⟩]
      · simp only [seenAfter, hcons, List.map_cons, List.reverse_cons, List.append_assoc,
          List.singleton_append, List.foldl_cons]
      · intro s hmem
        have hne : s.1.option ≠ a.option := fun he => hfirst (List.mem_map.2 ⟨s, hmem, he⟩)
        rw [List.lookup_cons, beq_false_of_ne hne]
        exact hs s hmem

theorem assignAll_of_append (hp : Pass value before) :
    assignAll value [] Query.empty (before ++ items) =
      assignAll value (seenAfter value before)
        (Query.ofValues ((settingsOf value before).map Prod.snd)) items := by
  rw [assignAll_append hp fun _ _ => List.lookup_nil, List.append_nil]
  rfl

/-- Items that may stand together make a query. -/
theorem assignAll_of_pass (hp : Pass value items) :
    assignAll value [] Query.empty items =
      .ok (Query.ofValues ((settingsOf value items).map Prod.snd)) := by
  rw [← List.append_nil items, assignAll_of_append hp, List.append_nil]
  rfl

/-! ## The first item that does not pass -/

theorem lookup_seenAfter_eq_none {o : QueryOption} :
    (seenAfter value before).lookup o = none ↔ ∀ s ∈ settingsOf value before, s.1.option ≠ o := by
  rw [List.lookup_eq_none_iff]
  constructor
  · intro h s hs he
    have := h (s.1.option, s.1.name) (List.mem_reverse.2 (List.mem_map.2 ⟨s, hs, rfl⟩))
    simp [he] at this
  · intro h p hp
    obtain ⟨s, hs, rfl⟩ := List.mem_map.1 (List.mem_reverse.1 hp)
    simpa using (h s hs).symm

/-- The place at which an option was seen is that of the only item that names it. -/
theorem lookup_seenAfter {s : Assignment × OptionValue} (hp : Pass value before)
    (hs : s ∈ settingsOf value before) :
    (seenAfter value before).lookup s.1.option = some s.1.name := by
  cases h : (seenAfter value before).lookup s.1.option with
  | none => exact absurd rfl (lookup_seenAfter_eq_none.1 h s hs)
  | some first =>
    -- Some item has that option at that place; as the options differ it is the same item.
    obtain ⟨l, l', hl, -⟩ := List.lookup_eq_some_iff.1 h
    have hmem : (s.1.option, first) ∈ seenAfter value before := hl ▸ by simp
    obtain ⟨s', hs', he⟩ := List.mem_map.1 (List.mem_reverse.1 hmem)
    obtain ⟨ho, rfl⟩ := Prod.mk.inj he
    rw [List.inj_on_of_nodup_map hp.distinct hs' hs ho]

/-- An item that repeats an option is refused, whatever its value is and whatever
follows. -/
theorem assignAll_of_repeated {s : Assignment × OptionValue} (hp : Pass value before)
    (ha : assignment? item = .ok (some a)) (hs : s ∈ settingsOf value before)
    (ho : s.1.option = a.option) :
    assignAll value [] Query.empty (before ++ item :: items) =
      .error (.refused ⟨.repeatedOption a.option s.1.name, a.name⟩) := by
  have hseen := lookup_seenAfter hp hs
  rw [ho] at hseen
  rw [assignAll_of_append hp, assignAll_of_seen ha hseen]

/-- An item that fails alone fails the same way in the list, whatever follows, if it
repeats no option. -/
theorem assignAll_of_failing {e : Stop} (hp : Pass value before)
    (he : assignAll value [] Query.empty [item] = .error e)
    (hn : ∀ a, assignment? item = .ok (some a) →
      ∀ s ∈ settingsOf value before, s.1.option ≠ a.option) :
    assignAll value [] Query.empty (before ++ item :: items) = .error e := by
  rw [assignAll_of_append hp]
  cases ha : assignment? item with
  | error f =>
    rw [assignAll_of_error ha] at he ⊢
    exact he
  | ok a? =>
    cases a? with
    | none =>
      rw [assignAll_of_none ha] at he
      cases he
    | some a =>
      -- Alone and in the list the option is new, so in both the value is read and fails.
      rw [assignAll_of_unseen ha List.lookup_nil] at he
      rw [assignAll_of_unseen ha (lookup_seenAfter_eq_none.2 (hn a ha))]
      cases hv : value a with
      | ok v =>
        rw [hv] at he
        cases he
      | error e' =>
        rw [hv] at he
        exact he

/-! ## One item -/

/-- One item makes a query just if it sets something. -/
theorem assignAll_singleton (hb : assignment? item ≠ .ok none) :
    assignAll value [] Query.empty [item] = .ok q ↔
      ∃ a v, setting? value item = some (a, v) ∧ q = Query.ofValues [v] := by
  constructor
  · intro h
    cases ha : assignment? item with
    | error f =>
      rw [assignAll_of_error ha] at h
      cases h
    | ok a? =>
      cases a? with
      | none => exact absurd ha hb
      | some a =>
        rw [assignAll_of_unseen ha List.lookup_nil] at h
        obtain ⟨v, hv, h⟩ := bind_eq_ok.1 h
        exact ⟨a, v, setting?_eq_some.2 ⟨ha, hv⟩, (Except.ok.inj h).symm⟩
  · rintro ⟨a, v, hset, rfl⟩
    obtain ⟨ha, hv⟩ := setting?_eq_some.1 hset
    rw [assignAll_of_unseen ha List.lookup_nil, hv]
    rfl

theorem path_assignAll {q' : Query} (h : assignAll value seen q items = .ok q') :
    q'.path = q.path := by
  induction items generalizing seen q with
  | nil =>
    cases h
    rfl
  | cons item items ih =>
    cases ha : assignment? item with
    | error f =>
      rw [assignAll_of_error ha] at h
      cases h
    | ok a? =>
      cases a? with
      | none => exact ih (assignAll_of_none ha ▸ h)
      | some a =>
        cases hs : seen.lookup a.option with
        | some first =>
          rw [assignAll_of_seen ha hs] at h
          cases h
        | none =>
          rw [assignAll_of_unseen ha hs] at h
          obtain ⟨v, -, h⟩ := bind_eq_ok.1 h
          rw [ih h, Query.path_assign]

end Assembly

end OData.Options
