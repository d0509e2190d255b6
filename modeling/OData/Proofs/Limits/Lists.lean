import OData.Proofs.Limits.Readers
import OData.Proofs.Query.Items
import OData.Proofs.Token.Lexing

/-!
# Every text is a query or is refused

The readers keep count, so that a slice is read or refused and never stops otherwise
(`Settles`).  Option lists are put together from such readings, and each list in brackets
has one bracket less room than the list around it.  Hence every text is a query that there
is room for within the limits, or is refused (`settles_read`).
-/
namespace OData.Options
open Grammar

/-- **A result is a value with a property or a refusal.** -/
inductive Settles {α : Type} (P : α → Prop) : Except Stop α → Prop
  | ok {a : α} : P a → Settles P (.ok a)
  | refused (f : Failure) : Settles P (.error (.refused f))

namespace Settles
variable {α β : Type} {P P' : α → Prop} {Q : β → Prop} {x : Except Stop α}

theorem bind {f : α → Except Stop β} (h : Settles P x) (hf : ∀ a, P a → Settles Q (f a)) :
    Settles Q (x >>= f) := by
  cases h with
  | ok ha => exact hf _ ha
  | refused f => exact .refused f

theorem map {f : α → β} (h : Settles P x) (hf : ∀ a, P a → Q (f a)) : Settles Q (f <$> x) := by
  cases h with
  | ok ha => exact .ok (hf _ ha)
  | refused f => exact .refused f

theorem imp (h : Settles P x) (hP : ∀ a, P a → P' a) : Settles P' x := by
  cases h with
  | ok ha => exact .ok (hP _ ha)
  | refused f => exact .refused f

end Settles

/-- A grammar that keeps count reads a slice or refuses it. -/
theorem settles_run {α : Type} {P : α → Prop} {p : Parse α} {depth : Nat}
    (h : ∀ n, Runs P n (n - 1) depth 0 p) (s : Slice) : Settles P (run p depth s) := by
  unfold run
  cases hts : s.tokens with
  | error f => exact .refused f
  | ok ts =>
    have hstart : (State.start ts depth).At ts.length depth 0 :=
      ⟨.of_ends (Slice.ends_of_tokens hts), Nat.le_refl _, rfl, rfl⟩
    have ho := h ts.length hstart
    simp only
    generalize p (State.start ts depth) = r at ho
    cases ho with
    | ok ha => exact .ok ha
    | refused => exact .refused _

/-! ## Items -/

section Lists
variable {settings : Settings} {depth : Nat} {nested : Slice → Except Stop Query}

/-- There is room for a list in brackets, and for the brackets. -/
def NestedWithin (settings : Settings) (depth : Nat) (q : Query) : Prop :=
  depth < settings.maxDepth ∧ q.Within settings (depth + 1)

/-- There is room for an expand item.  Its options need brackets only if there are any. -/
structure ItemWithin (settings : Settings) (depth : Nat) (item : ExpandItem) : Prop where
  room : item.options ≠ Query.empty → depth < settings.maxDepth
  options : item.options.Within settings (depth + 1)

theorem settles_itemOptions (hn : ∀ s, Settles (NestedWithin settings depth) (nested s))
    (path : String) (parts : ExpandParts) :
    Settles (fun q => ItemWithin settings depth ⟨path, q⟩) (itemOptions nested parts) := by
  unfold itemOptions
  cases parts.options with
  | none => exact .ok ⟨fun h => absurd rfl h, .empty settings (depth + 1)⟩
  | some inside => exact (hn inside).imp fun q hq => ⟨fun _ => hq.1, hq.2⟩

theorem settles_expandItems (hn : ∀ s, Settles (NestedWithin settings depth) (nested s))
    (seen : List (String × Span)) (items : List Slice) :
    Settles (fun is => ∀ i ∈ is, ItemWithin settings depth i)
      (expandItems settings depth nested seen items) := by
  induction items generalizing seen with
  | nil => exact .ok fun _ h => absurd h List.not_mem_nil
  | cons item items ih =>
    rw [expandItems_cons]
    cases expandParts item.trim with
    | error f => exact .refused f
    | ok parts =>
      refine (settles_run (fun _ => runs_expandPath) parts.path).bind fun path _ => ?_
      cases seen.lookup path with
      | some first => exact .refused _
      | none =>
        refine (settles_itemOptions hn path parts).bind fun options hoptions => ?_
        refine (ih _).bind fun others hothers => ?_
        exact .ok (List.forall_mem_cons.2 ⟨hoptions, hothers⟩)

/-! ## Values -/

/-- There is room for the value of an option. -/
theorem settles_optionValue (hn : ∀ s, Settles (NestedWithin settings depth) (nested s))
    (a : Assignment) :
    Settles (fun v => (Query.empty.assign v).Within settings depth)
      (optionValue settings depth nested a) := by
  have hread := valueRead settings depth nested a
  generalize optionValue settings depth nested a = x at hread
  cases hread with
  | filter =>
    refine (settles_run (fun _ => runs_filter) a.value).map fun e he => ?_
    exact .mk (by rintro _ ⟨⟩; exact he) nofun nofun nofun
  | apply =>
    refine (settles_run (fun _ => runs_pipeline) a.value).map fun ts hts => ?_
    exact .mk nofun (by rintro _ ⟨⟩; exact hts) nofun nofun
  | expand =>
    refine (settles_expandItems hn [] (a.value.split ',')).map fun items hitems => ?_
    refine .mk nofun nofun ?_ ?_
    · rintro _ ⟨⟩ i hi
      exact (hitems i hi).room
    · rintro _ ⟨⟩ i hi
      exact (hitems i hi).options
  | select =>
    exact (settles_run (fun _ => runs_selection) a.value).map fun _ _ => .of_flat rfl rfl rfl
  | orderBy =>
    exact (settles_run (fun _ => runs_ordering) a.value).map fun _ _ => .of_flat rfl rfl rfl
  | plain hfilter happly hexpand => exact .ok (.of_flat hfilter happly hexpand)
  | invalid => exact .refused _

/-! ## Lists -/

theorem settles_assignAll {value : Assignment → Except Stop OptionValue}
    (hv : ∀ a, Settles (fun v => (Query.empty.assign v).Within settings depth) (value a))
    (seen : List (QueryOption × Span)) {q : Query} (hq : q.Within settings depth)
    (items : List Slice) :
    Settles (Query.Within settings depth) (assignAll value seen q items) := by
  induction items generalizing seen q with
  | nil => exact .ok hq
  | cons item items ih =>
    cases h : assignment? item with
    | error f =>
      rw [assignAll_of_error h]
      exact .refused f
    | ok a? =>
      cases a? with
      | none =>
        rw [assignAll_of_none h]
        exact ih seen hq
      | some a =>
        cases hs : seen.lookup a.option with
        | some first =>
          rw [assignAll_of_seen h hs]
          exact .refused _
        | none =>
          rw [assignAll_of_unseen h hs]
          exact (hv a).bind fun v hv => ih _ (hq.assign hv)

theorem settles_listWith (hn : ∀ s, Settles (NestedWithin settings depth) (nested s)) (sep : Char)
    (list : Slice) :
    Settles (Query.Within settings depth) (listWith settings depth nested sep list) :=
  settles_assignAll (settles_optionValue hn) [] (.empty settings depth) (list.split sep)

/-- A list in brackets has room for as many brackets as are left. -/
theorem settles_nestedList {room : Nat} (hroom : room ≤ settings.maxDepth) (s : Slice) :
    Settles (NestedWithin settings (settings.maxDepth - room)) (nestedList settings room s) := by
  induction room generalizing s with
  | zero => exact .refused _
  | succ room ih =>
    have hdepth : settings.maxDepth - room = settings.maxDepth - (room + 1) + 1 := by omega
    have hlist := settles_listWith (ih (by omega)) ';' s
    rw [← optionList_eq, hdepth] at hlist
    exact hlist.imp fun q hq => ⟨by omega, hq⟩

theorem settles_optionList {room : Nat} (hroom : room ≤ settings.maxDepth) (sep : Char)
    (s : Slice) :
    Settles (Query.Within settings (settings.maxDepth - room))
      (optionList settings room sep s) := by
  rw [optionList_eq]
  exact settles_listWith (settles_nestedList hroom) sep s

end Lists

/-! ## Queries -/

/-- **Every text is a query that there is room for, or is refused.** -/
theorem settles_read (settings : Settings) (text : String) :
    Settles (Query.Within settings 0) (Query.read settings text) := by
  rw [Query.read_eq]
  generalize Halves.ofSlice (Slice.ofString text 0) = halves
  obtain ⟨path, options⟩ := halves
  have hpath : Settles (fun _ => True) (Query.readPath settings path) := by
    unfold Query.readPath
    split
    · exact .ok trivial
    · exact (settles_run (fun _ => runs_resourcePath) path).map fun _ _ => trivial
  have hoptions : Settles (Query.Within settings 0) (Query.readOptions settings options) := by
    cases options with
    | none => exact .ok (.empty settings 0)
    | some options =>
      have hlist := settles_optionList (Nat.le_refl settings.maxDepth) '&' options
      rwa [Nat.sub_self] at hlist
  refine hpath.bind fun segments _ => hoptions.bind fun q hq => ?_
  obtain ⟨hfilter, happly, hroom, hnested⟩ := hq
  exact .ok (.mk hfilter happly hroom hnested)

end OData.Options
