import Mathlib.Data.List.Basic
import OData.Proofs.Json.Trees

/-!
# What the JSON of a query tells

The fields of a query are told by their names, and a field that is not there is an option that
is not there (`Json.eq_of_present_eq`).  So queries are told by their JSON as far as the values
of their options are (`toJson_eq_iff`).

The values of keys in a resource path are told where they stand by their place, as literals with
their types.  The value of a named key stands without its type, and there a string and a number
with the same text have the same JSON.
-/
namespace OData

/-! ## Hints written out -/

/-- A key predicate with the hint of its value written out. -/
def KeyPredicate.hinted : KeyPredicate → KeyPredicate
  | .positional value => .positional value.hinted
  | .named name value => .named name value.hinted

/-- A segment of a resource path with all hints written out. -/
def PathSegment.hinted (s : PathSegment) : PathSegment :=
  ⟨s.name, s.predicates.map (List.map KeyPredicate.hinted)⟩

mutual

/-- **A query with all hints written out.** -/
def Query.hinted : Query → Query
  | ⟨path, select, expand, filter, orderBy, callback, format, search, count, skip, top, apply⟩ =>
    { path := path.map (List.map PathSegment.hinted)
      select
      expand := match expand with
        | some items => some (ExpandItem.allHinted items)
        | none => none
      filter := filter.map Expr.hinted
      orderBy, callback, format, search, count, skip, top
      apply := apply.map (List.map Transformation.hinted) }

/-- An expand item with all hints written out. -/
def ExpandItem.hinted : ExpandItem → ExpandItem
  | ⟨path, options⟩ => ⟨path, Query.hinted options⟩

/-- Expand items with all hints written out. -/
def ExpandItem.allHinted : List ExpandItem → List ExpandItem
  | [] => []
  | i :: is => ExpandItem.hinted i :: ExpandItem.allHinted is

end

/-! ## Parts that are told apart -/

section Told
variable {α β γ : Type} {f : α → β} {g : α → γ}

/-- What is told of the members of two lists is told of the lists. -/
theorem map_eq_of_map_eq {l l' : List α} (hfg : ∀ a ∈ l, ∀ b ∈ l', f a = f b → g a = g b)
    (h : l.map f = l'.map f) : l.map g = l'.map g := by
  induction l generalizing l' with
  | nil =>
    rw [List.map_nil, eq_comm, List.map_eq_nil_iff] at h
    rw [h]
  | cons a l ih =>
    cases l' with
    | nil => cases h
    | cons b l' =>
      obtain ⟨hfirst, hothers⟩ := List.cons.inj h
      rw [List.map_cons, List.map_cons, hfg a (by simp) b (by simp) hfirst,
        ih (fun a ha b hb => hfg a (by simp [ha]) b (by simp [hb])) hothers]

/-- What is told of values is told of them where they may be absent. -/
theorem optionMap_eq_of_optionMap_eq {o o' : Option α}
    (hfg : ∀ a, o = some a → ∀ b, o' = some b → f a = f b → g a = g b)
    (h : o.map f = o'.map f) : o.map g = o'.map g := by
  cases o with
  | none => cases o' with
    | none => rfl
    | some b => cases h
  | some a => cases o' with
    | none => cases h
    | some b => exact congrArg some (hfg a rfl b rfl (Option.some.inj h))

end Told

namespace Json

/-- The fields that are there, of those that may be. -/
def present (fields : List (String × Option Json)) : List (String × Json) :=
  fields.flatMap fun f => field? f.1 f.2

theorem present_cons (name : String) (value : Option Json)
    (fields : List (String × Option Json)) :
    present ((name, value) :: fields) = field? name value ++ present fields :=
  List.flatMap_cons ..

/-- A field that is there is one of those that may be. -/
theorem name_mem_of_mem_present {fields : List (String × Option Json)} {f : String × Json}
    (h : f ∈ present fields) : f.1 ∈ fields.map Prod.fst := by
  obtain ⟨⟨name, value⟩, hmem, hf⟩ := List.mem_flatMap.1 h
  cases value with
  | none => cases hf
  | some v =>
    rw [List.mem_singleton.1 hf]
    exact List.mem_map_of_mem hmem

/-- **Fields that may be absent are told by their names**, all of which are different. -/
theorem eq_of_present_eq {fs gs : List (String × Option Json)}
    (hnames : fs.map Prod.fst = gs.map Prod.fst) (hnodup : (fs.map Prod.fst).Nodup)
    (h : present fs = present gs) : fs = gs := by
  induction fs generalizing gs with
  | nil => rw [List.map_eq_nil_iff.1 hnames.symm]
  | cons f fs ih =>
    cases gs with
    | nil => cases hnames
    | cons g gs =>
      obtain ⟨name, value⟩ := f
      obtain ⟨name', value'⟩ := g
      obtain ⟨hname, htail⟩ := List.cons.inj hnames
      obtain rfl : name = name' := hname
      obtain ⟨hnew, hothers⟩ := List.nodup_cons.1 hnodup
      rw [present_cons, present_cons] at h
      -- A field of this name that only one side has cannot be one of the later ones.
      cases value with
      | none =>
        cases value' with
        | none => rw [ih htail hothers h]
        | some v' =>
          have hmem : (name, v') ∈ present fs := by
            rw [show present fs = (name, v') :: present gs from h]
            exact List.mem_cons_self
          exact absurd (name_mem_of_mem_present hmem) hnew
      | some v =>
        cases value' with
        | none =>
          have hmem : (name, v) ∈ present gs := by
            rw [← show (name, v) :: present fs = present gs from h]
            exact List.mem_cons_self
          exact absurd (htail ▸ name_mem_of_mem_present hmem) hnew
        | some v' =>
          obtain ⟨hvalue, hrest⟩ := List.cons.inj h
          rw [ih htail hothers hrest, (Prod.mk.inj hvalue).2]

end Json

/-! ## Queries -/

theorem Json.strings_injective : Function.Injective Json.strings := fun _ _ h =>
  List.map_injective_iff.2 (fun _ _ => Json.string.inj) (Json.array.inj h)

/-- The fields of a query, each absent where the query has no such option. -/
def Query.fields (q : Query) : List (String × Option Json) :=
  [("$apply", q.apply.map fun ts => .array (ts.map Transformation.toJson)),
    ("$callback", q.callback.map .string),
    ("$count", q.count.map .bool),
    ("$expand", q.expand.map fun is => .array (is.map ExpandItem.toJson)),
    ("$filter", q.filter.map Expr.toJson),
    ("$format", q.format.map .string),
    ("$orderby", q.orderBy.map fun is => .array (is.map OrderByItem.toJson)),
    ("$path", q.path.map fun ss => .array (ss.map PathSegment.toJson)),
    ("$search", q.search.map .string),
    ("$select", q.select.map Json.strings),
    ("$skip", q.skip.map fun n : Nat => .int n),
    ("$top", q.top.map fun n : Nat => .int n)]

theorem ExpandItem.listToJson_eq (is : List ExpandItem) :
    ExpandItem.listToJson is = is.map ExpandItem.toJson := by
  induction is with
  | nil => rfl
  | cons i is ih => rw [ExpandItem.listToJson, ih, List.map_cons]

theorem ExpandItem.allHinted_eq (is : List ExpandItem) :
    ExpandItem.allHinted is = is.map ExpandItem.hinted := by
  induction is with
  | nil => rfl
  | cons i is ih => rw [ExpandItem.allHinted, ih, List.map_cons]

/-- A query is the object of those of its fields that are there. -/
theorem Query.toJson_eq (q : Query) : q.toJson = .object (Json.present q.fields) := by
  obtain ⟨_, _, expand, _, _, _, _, _, _, skip, top, _⟩ := q
  have hlist := fun items => congrArg Json.array (ExpandItem.listToJson_eq items)
  cases expand <;> cases skip <;> cases top <;>
    simp only [Query.toJson, Json.present, Query.fields, List.flatMap_cons, List.flatMap_nil,
      List.append_assoc, List.append_nil, hlist] <;>
    rfl

theorem Query.fields_names (q : Query) :
    q.fields.map Prod.fst =
      ["$apply", "$callback", "$count", "$expand", "$filter", "$format", "$orderby", "$path",
        "$search", "$select", "$skip", "$top"] := rfl

/-- Queries with the same JSON have the same fields. -/
theorem Query.fields_eq_of_toJson {q q' : Query} (h : q.toJson = q'.toJson) :
    q.fields = q'.fields := by
  rw [Query.toJson_eq, Query.toJson_eq, Json.object.injEq] at h
  exact Json.eq_of_present_eq rfl (by rw [Query.fields_names]; decide) h

/-- No query has the JSON of an error. -/
theorem Query.toJson_ne_rejected (q : Query) (r : RejectedQuery) : q.toJson ≠ r.toJson := by
  intro h
  rw [Query.toJson_eq, RejectedQuery.toJson, Json.object.injEq] at h
  have hmem : ("error", Json.string r.message) ∈ Json.present q.fields := by
    rw [h]
    exact List.mem_cons_self
  have hname : "error" ∈ q.fields.map Prod.fst := Json.name_mem_of_mem_present hmem
  rw [Query.fields_names] at hname
  exact absurd hname (by decide)

/-- **No key of a path is named**, in the query and in the options of all paths it expands. -/
inductive Query.Positional : Query → Prop
  | mk {q : Query} :
      (∀ segments, q.path = some segments → ∀ s ∈ segments, ∀ ps, s.predicates = some ps →
        ∀ p ∈ ps, ∃ value, p = .positional value) →
      (∀ items, q.expand = some items → ∀ i ∈ items, Positional i.options) → Positional q

theorem PathSegment.hinted_eq_of_toJson {s s' : PathSegment}
    (hs : ∀ ps, s.predicates = some ps → ∀ p ∈ ps, ∃ value, p = .positional value)
    (hs' : ∀ ps, s'.predicates = some ps → ∀ p ∈ ps, ∃ value, p = .positional value)
    (h : s.toJson = s'.toJson) : s.hinted = s'.hinted := by
  obtain ⟨name, predicates⟩ := s
  obtain ⟨name', predicates'⟩ := s'
  simp only [PathSegment.toJson, List.cons_append, List.nil_append, Json.object.injEq,
    List.cons.injEq, Prod.mk.injEq, Json.string.injEq, true_and] at h
  obtain ⟨hname, hfield⟩ := h
  have hpredicates : predicates.map (List.map KeyPredicate.hinted) =
      predicates'.map (List.map KeyPredicate.hinted) := by
    refine optionMap_eq_of_optionMap_eq (fun ps hps ps' hps' hmap => ?_) (Json.field?_inj hfield)
    refine map_eq_of_map_eq (fun p hp p' hp' hjson => ?_) (Json.array.inj hmap)
    obtain ⟨value, rfl⟩ := hs ps hps p hp
    obtain ⟨value', rfl⟩ := hs' ps' hps' p' hp'
    exact congrArg KeyPredicate.positional (Literal.hinted_eq_of_toJson hjson)
  rw [PathSegment.hinted, PathSegment.hinted, hname, hpredicates]

theorem OrderByItem.toJson_inj {i j : OrderByItem} (h : i.toJson = j.toJson) : i = j := by
  obtain ⟨path, direction⟩ := i
  obtain ⟨path', direction'⟩ := j
  simp only [OrderByItem.toJson, Json.object.injEq, List.cons.injEq, Prod.mk.injEq,
    Json.string.injEq, and_true] at h
  have hdirection : direction = direction' := Keyword.eq_of_word_eq h.2
  rw [h.1, hdirection]

theorem Query.hinted_eq (q : Query) :
    q.hinted =
      { q with
        path := q.path.map (List.map PathSegment.hinted)
        expand := q.expand.map (List.map ExpandItem.hinted)
        filter := q.filter.map Expr.hinted
        apply := q.apply.map (List.map Transformation.hinted) } := by
  obtain ⟨_, _, expand, _, _, _, _, _, _, _, _, _⟩ := q
  cases expand with
  | none => simp only [Query.hinted, Option.map_none]
  | some items => simp only [Query.hinted, ExpandItem.allHinted_eq, Option.map_some]

/-- A query is told by its JSON, but for empty hints, if no key is named. -/
theorem Query.Positional.hinted_eq_of_toJson {q q' : Query} (hq : q.Positional)
    (hq' : q'.Positional) (h : q.toJson = q'.toJson) : q.hinted = q'.hinted := by
  induction hq generalizing q' with
  | @mk q hpath _ ih =>
    obtain ⟨hpath', hexpand'⟩ := hq'
    have hfields := Query.fields_eq_of_toJson h
    simp only [Query.fields, List.cons.injEq, Prod.mk.injEq, true_and, and_true] at hfields
    obtain ⟨happly, hcallback, hcount, hexpand, hfilter, hformat, horderBy, hsegments, hsearch,
      hselect, hskip, htop⟩ := hfields
    have hpath : q.path.map (List.map PathSegment.hinted) =
        q'.path.map (List.map PathSegment.hinted) := by
      refine optionMap_eq_of_optionMap_eq (fun ss hss ss' hss' hmap => ?_) hsegments
      refine map_eq_of_map_eq (fun s hs s' hs' hjson => ?_) (Json.array.inj hmap)
      exact PathSegment.hinted_eq_of_toJson (hpath ss hss s hs) (hpath' ss' hss' s' hs') hjson
    have hexpand : q.expand.map (List.map ExpandItem.hinted) =
        q'.expand.map (List.map ExpandItem.hinted) := by
      refine optionMap_eq_of_optionMap_eq (fun is his is' his' hmap => ?_) hexpand
      refine map_eq_of_map_eq (fun i hi i' hi' hjson => ?_) (Json.array.inj hmap)
      obtain ⟨path, options⟩ := i
      obtain ⟨path', options'⟩ := i'
      simp only [ExpandItem.toJson, Json.object.injEq, List.cons.injEq, Prod.mk.injEq, true_and,
        and_true, Json.string.injEq] at hjson
      rw [ExpandItem.hinted, ExpandItem.hinted, hjson.2,
        ih is his _ hi (hexpand' is' his' _ hi') hjson.1]
    have hfilter : q.filter.map Expr.hinted = q'.filter.map Expr.hinted :=
      optionMap_eq_of_optionMap_eq (fun e _ e' _ => Expr.hinted_eq_of_toJson e e') hfilter
    have happly : q.apply.map (List.map Transformation.hinted) =
        q'.apply.map (List.map Transformation.hinted) := by
      refine optionMap_eq_of_optionMap_eq (fun ts _ ts' _ hmap => ?_) happly
      exact map_eq_of_map_eq (fun t _ t' _ => Transformation.hinted_eq_of_toJson)
        (Json.array.inj hmap)
    have horderBy : q.orderBy = q'.orderBy := by
      refine Option.map_injective (fun is is' hlist => ?_) horderBy
      exact List.map_injective_iff.2 (fun _ _ => OrderByItem.toJson_inj) (Json.array.inj hlist)
    have hselect : q.select = q'.select := Option.map_injective Json.strings_injective hselect
    have hstring : Function.Injective Json.string := fun _ _ => Json.string.inj
    have hnumber : Function.Injective fun n : Nat => Json.int n :=
      fun _ _ hint => Int.ofNat.inj (Json.int.inj hint)
    rw [Query.hinted_eq, Query.hinted_eq q', hpath, hexpand, hfilter, happly, horderBy, hselect,
      Option.map_injective hstring hcallback, Option.map_injective hstring hformat,
      Option.map_injective hstring hsearch, Option.map_injective (fun _ _ => Json.bool.inj) hcount,
      Option.map_injective hnumber hskip, Option.map_injective hnumber htop]

/-! ## Hints are not told -/

theorem KeyPredicate.toJson_hinted (p : KeyPredicate) : p.hinted.toJson = p.toJson := by
  cases p with
  | positional value => exact value.toJson_hinted
  | named name value => cases value <;> rfl

theorem PathSegment.toJson_hinted (s : PathSegment) : s.hinted.toJson = s.toJson := by
  simp only [PathSegment.hinted, PathSegment.toJson, Option.map_map, Function.comp_def,
    List.map_map, KeyPredicate.toJson_hinted]

theorem Query.toJson_hinted_and_items :
    (∀ q : Query, q.hinted.toJson = q.toJson) ∧
      (∀ is : List ExpandItem, (ExpandItem.allHinted is).map ExpandItem.toJson =
        is.map ExpandItem.toJson) ∧
      ∀ i : ExpandItem, i.hinted.toJson = i.toJson := by
  refine Query.hinted.mutual_induct _ _ _ ?query ?item ?nil ?cons
  case query =>
    intro path select expand filter orderBy callback format search count skip top apply ih
    have hexpand : (expand.map (List.map ExpandItem.hinted)).map
        (fun is => Json.array (is.map ExpandItem.toJson)) =
          expand.map fun is => Json.array (is.map ExpandItem.toJson) := by
      cases expand with
      | none => rfl
      | some items =>
        have hitems : (ExpandItem.allHinted items).map ExpandItem.toJson =
            items.map ExpandItem.toJson := ih
        rw [ExpandItem.allHinted_eq] at hitems
        exact congrArg (fun is => some (Json.array is)) hitems
    rw [Query.toJson_eq, Query.toJson_eq, Query.hinted_eq]
    simp only [Query.fields, hexpand]
    simp only [Option.map_map, Function.comp_def, List.map_map, PathSegment.toJson_hinted,
      Expr.toJson_hinted, Transformation.toJson_hinted]
  case item =>
    intro path options ih
    rw [ExpandItem.hinted, ExpandItem.toJson, ExpandItem.toJson, ih]
  case nil => rfl
  case cons =>
    intro i is hfirst hothers
    rw [ExpandItem.allHinted, List.map_cons, List.map_cons, hfirst, hothers]

theorem Query.toJson_hinted (q : Query) : q.hinted.toJson = q.toJson :=
  Query.toJson_hinted_and_items.1 q

/-! ## What is told -/

/-- **Expressions, pipelines and queries are told by their JSON**, but for empty hints and for the
types of named keys; and no query looks like an error. -/
theorem toJson_eq_iff :
    (∀ e e' : Expr, e.toJson = e'.toJson ↔ e.hinted = e'.hinted) ∧
      (∀ ts ts' : List Transformation,
        Json.array (ts.map Transformation.toJson) = .array (ts'.map Transformation.toJson) ↔
          ts.map Transformation.hinted = ts'.map Transformation.hinted) ∧
      (∀ q q' : Query, q.Positional → q'.Positional →
        (q.toJson = q'.toJson ↔ q.hinted = q'.hinted)) ∧
      ∀ (q : Query) (r : RejectedQuery), q.toJson ≠ r.toJson := by
  refine ⟨fun e e' => ⟨Expr.hinted_eq_of_toJson e e', fun h => ?_⟩,
    fun ts ts' => ⟨fun h => ?_, fun h => ?_⟩,
    fun q q' hq hq' => ⟨hq.hinted_eq_of_toJson hq', fun h => ?_⟩, Query.toJson_ne_rejected⟩
  · rw [← e.toJson_hinted, h, e'.toJson_hinted]
  · exact map_eq_of_map_eq (fun t _ t' _ => Transformation.hinted_eq_of_toJson)
      (Json.array.inj h)
  · have hts : ∀ ts : List Transformation,
        (ts.map Transformation.hinted).map Transformation.toJson =
          ts.map Transformation.toJson := by
      intro ts
      simp only [List.map_map, Function.comp_def, Transformation.toJson_hinted]
    rw [← hts ts, h, hts ts']
  · rw [← q.toJson_hinted, h, q'.toJson_hinted]

/-- The resource path with the key `l`. -/
def keyed (l : Literal) : Query := { path := some [⟨"C", some [.positional l]⟩] }

theorem keyed_positional (l : Literal) : (keyed l).Positional := by
  refine .mk (fun segments hpath s hs ps hps p hp => ?_) nofun
  cases hpath
  cases List.mem_singleton.1 hs
  cases hps
  exact ⟨l, List.mem_singleton.1 hp⟩

/-- An empty hint is not told from none, but a number is told from the text of it. -/
theorem keyed_toJson :
    (keyed (.null none)).toJson = (keyed (.null (some ""))).toJson ∧
      (keyed (.string "1")).toJson ≠ (keyed (.decimal "1")).toJson := by
  have htold := fun l m =>
    toJson_eq_iff.2.2.1 (keyed l) (keyed m) (keyed_positional l) (keyed_positional m)
  exact ⟨(htold _ _).2 rfl, fun h => by simpa [keyed, Query.hinted, PathSegment.hinted,
    KeyPredicate.hinted, Literal.hinted] using (htold _ _).1 h⟩

/-- The value of a named key is not told so. -/
example :
    (KeyPredicate.named "k" (.string "1")).toJson =
      (KeyPredicate.named "k" (.decimal "1")).toJson :=
  rfl

end OData
