import Mathlib.Data.List.Basic
import OData.Query

/-!
# Queries by their options

A query is its path and, for each option, the value of that option or none
(`Query.value?`).  Setting an option is seen by looking for that option and no other,
so a query that was built by setting different options one after the other is known by
what each of them was set to, in whatever order.
-/
namespace OData

namespace Query
variable {q q' : Query} {v : OptionValue} {vs : List OptionValue} {o : QueryOption}

/-- **The value of an option** in a query, if it is there. -/
def value? (q : Query) : QueryOption → Option OptionValue
  | .select => q.select.map .select
  | .expand => q.expand.map .expand
  | .filter => q.filter.map .filter
  | .orderBy => q.orderBy.map .orderBy
  | .callback => q.callback.map .callback
  | .format => q.format.map .format
  | .search => q.search.map .search
  | .count => q.count.map .count
  | .skip => q.skip.map .skip
  | .top => q.top.map .top
  | .apply => q.apply.map .apply

/-- A value belongs to its option. -/
theorem option_of_value? (h : q.value? o = some v) : v.option = o := by
  cases o <;>
  · obtain ⟨_, _, rfl⟩ := Option.map_eq_some_iff.1 h
    rfl

/-- Queries with the same path and the same values are the same. -/
theorem ext_value (hp : q.path = q'.path) (h : ∀ o, q.value? o = q'.value? o) : q = q' := by
  have hinj : ∀ {α : Type} {f : α → OptionValue}, (∀ a b, f a = f b → a = b) →
      ∀ {x y : Option α}, x.map f = y.map f → x = y :=
    fun hf _ _ he => Option.map_injective hf he
  obtain ⟨path, select, expand, filter, orderBy, callback, format, search, count, skip, top,
    apply⟩ := q
  obtain ⟨path', select', expand', filter', orderBy', callback', format', search', count', skip',
    top', apply'⟩ := q'
  obtain rfl : path = path' := hp
  obtain rfl : select = select' := hinj (by rintro _ _ ⟨⟩; rfl) (h .select)
  obtain rfl : expand = expand' := hinj (by rintro _ _ ⟨⟩; rfl) (h .expand)
  obtain rfl : filter = filter' := hinj (by rintro _ _ ⟨⟩; rfl) (h .filter)
  obtain rfl : orderBy = orderBy' := hinj (by rintro _ _ ⟨⟩; rfl) (h .orderBy)
  obtain rfl : callback = callback' := hinj (by rintro _ _ ⟨⟩; rfl) (h .callback)
  obtain rfl : format = format' := hinj (by rintro _ _ ⟨⟩; rfl) (h .format)
  obtain rfl : search = search' := hinj (by rintro _ _ ⟨⟩; rfl) (h .search)
  obtain rfl : count = count' := hinj (by rintro _ _ ⟨⟩; rfl) (h .count)
  obtain rfl : skip = skip' := hinj (by rintro _ _ ⟨⟩; rfl) (h .skip)
  obtain rfl : top = top' := hinj (by rintro _ _ ⟨⟩; rfl) (h .top)
  obtain rfl : apply = apply' := hinj (by rintro _ _ ⟨⟩; rfl) (h .apply)
  rfl

/-! ## Setting options -/

@[simp] theorem path_assign (q : Query) (v : OptionValue) : (q.assign v).path = q.path := by
  cases v <;> rfl

@[simp] theorem value?_empty (o : QueryOption) : Query.empty.value? o = none := by
  cases o <;> rfl

/-- Setting an option sets that option and no other. -/
theorem value?_assign (q : Query) (v : OptionValue) (o : QueryOption) :
    (q.assign v).value? o = if v.option = o then some v else q.value? o := by
  cases v <;> cases o <;> rfl

/-- Setting different options one after the other sets each of them. -/
theorem value?_foldl_assign (hn : (vs.map OptionValue.option).Nodup) :
    (vs.foldl Query.assign q).value? o = some v ↔
      (v ∈ vs ∧ v.option = o) ∨ (o ∉ vs.map OptionValue.option ∧ q.value? o = some v) := by
  induction vs generalizing q with
  | nil => simp
  | cons x vs ih =>
    obtain ⟨hx, hn⟩ := List.nodup_cons.1 hn
    rw [List.foldl_cons, ih hn, value?_assign]
    -- The first value sets its option, and no later one sets it again.
    by_cases ho : x.option = o
    · subst ho
      rw [if_pos rfl]
      constructor
      · rintro (⟨hv, hvo⟩ | ⟨-, ⟨⟩⟩)
        · exact absurd (hvo ▸ List.mem_map_of_mem hv) hx
        · exact .inl ⟨List.mem_cons_self .., rfl⟩
      · rintro (⟨hv, hvo⟩ | ⟨hno, -⟩)
        · rcases List.mem_cons.1 hv with rfl | hv
          · exact .inr ⟨hx, rfl⟩
          · exact absurd (hvo ▸ List.mem_map_of_mem hv) hx
        · exact absurd (List.mem_cons_self ..) hno
    · simp only [if_neg ho, List.map_cons, List.mem_cons, not_or]
      constructor
      · rintro (⟨hv, hvo⟩ | ⟨hno, hq⟩)
        · exact .inl ⟨.inr hv, hvo⟩
        · exact .inr ⟨⟨fun h => ho h.symm, hno⟩, hq⟩
      · rintro (⟨rfl | hv, hvo⟩ | ⟨⟨-, hno⟩, hq⟩)
        · exact absurd hvo ho
        · exact .inl ⟨hv, hvo⟩
        · exact .inr ⟨hno, hq⟩

theorem path_foldl_assign (q : Query) (vs : List OptionValue) :
    (vs.foldl Query.assign q).path = q.path := by
  induction vs generalizing q with
  | nil => rfl
  | cons v vs ih => rw [List.foldl_cons, ih, path_assign]

/-- The query that some values make, set one after the other. -/
def ofValues (vs : List OptionValue) : Query := vs.foldl Query.assign Query.empty

/-- The options of the query that some values make are those that the values set. -/
theorem value?_ofValues (hn : (vs.map OptionValue.option).Nodup) :
    (ofValues vs).value? o = some v ↔ v ∈ vs ∧ v.option = o := by
  rw [ofValues, value?_foldl_assign hn]
  simp

/-- The order of the values makes no difference. -/
theorem ofValues_perm {vs' : List OptionValue} (hn : (vs.map OptionValue.option).Nodup)
    (hp : vs.Perm vs') : ofValues vs = ofValues vs' := by
  refine ext_value (by rw [ofValues, ofValues, path_foldl_assign, path_foldl_assign]) fun o => ?_
  refine Option.ext fun v => ?_
  rw [value?_ofValues hn, value?_ofValues ((hp.map _).nodup_iff.1 hn), hp.mem_iff]

/-! ## All the values of a query -/

/-- The values of the options of a query, in the order of the options. -/
def values (q : Query) : List OptionValue := Keyword.all.filterMap q.value?

theorem mem_values : v ∈ q.values ↔ q.value? v.option = some v := by
  rw [values, List.mem_filterMap]
  constructor
  · rintro ⟨o, -, h⟩
    rwa [option_of_value? h]
  · exact fun h => ⟨v.option, Keyword.mem_all _, h⟩

theorem nodup_values (q : Query) : (q.values.map OptionValue.option).Nodup := by
  have hsub : ∀ os : List QueryOption,
      ((os.filterMap q.value?).map OptionValue.option).Sublist os := by
    intro os
    induction os with
    | nil => exact .slnil
    | cons o os ih =>
      rw [List.filterMap_cons]
      split
      · exact ih.cons o
      · next v hv =>
        rw [List.map_cons, option_of_value? hv]
        exact ih.cons_cons o
  have hall : (Keyword.all : List QueryOption).Nodup := by decide
  exact hall.sublist (hsub _)

/-- A query is made by its values, but for its path. -/
theorem ofValues_values (q : Query) : ofValues q.values = { q with path := none } := by
  refine ext_value (path_foldl_assign ..) fun o => ?_
  have hpath : ({ q with path := none } : Query).value? o = q.value? o := by cases o <;> rfl
  refine Option.ext fun v => ?_
  rw [value?_ofValues (nodup_values q), mem_values, hpath]
  constructor
  · rintro ⟨h, rfl⟩
    exact h
  · intro h
    obtain rfl := option_of_value? h
    exact ⟨h, rfl⟩

end Query

end OData
