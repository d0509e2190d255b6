import OData.Proofs.Query.FlatLists
import OData.Proofs.Query.Located

/-!
# What is given twice

An option that is given again in its list is refused, and so is a path that is expanded again in
its list.  The diagnostic has two labels: the primary one where the option or the path is given
again, and the secondary one where it was given first.  The text under both is the same option's
name, or it reads as the same path, and the first of them ends before the other begins
(`read_repeated`).

A list is read from left to right, and what was seen is kept with its place.  The invariant is
that the entries are true (`Seen`): each is the place of a slice that stands in the text of the
list, is what the entry says, and ends before anything begins that is still to be read.  The
list of an expand item starts with nothing seen, so what it refuses is given twice in it, and it
stands in the text around it.  All other failures tell of one place only, those of grammars among
them (`Grammar.Comparison.earlier_of_run`).
-/
namespace OData
open Grammar Options

/-! ## Two slices of a text -/

/-- **A slice follows another in a text**: both stand in it, and the first ends before the other
begins. -/
structure Slice.Follows (again first s : Slice) : Prop where
  later : again.StandsIn s
  earlier : first.StandsIn s
  ordered : first.stop ≤ again.start

/-- **A slice is a path to expand**, in however many brackets it is read. -/
def Slice.Expands (s : Slice) (path : String) : Prop :=
  ∀ depth, run expandPath depth s = .ok path

/-- **A diagnostic points at two slices**, with the primary label at the later one. -/
def Diagnostic.PointsAt (d : Diagnostic) (again first : Slice) : Prop :=
  d.labels.map (fun l => (l.span, l.role)) = [(again.span, .primary), (first.span, .secondary)]

/-- What a failure says of a slice: it tells of one place only, or of two slices that are the
name of one option, or of two that are one path. -/
inductive Failure.ToldOf (s : Slice) : Failure → Prop
  | one {f : Failure} : f.cause.earlier = none → ToldOf s f
  | option {again first : Slice} {o : QueryOption} :
    again.Follows first s → again.toString = o.word → first.toString = o.word →
      ToldOf s ⟨.repeatedOption o first.span, again.span⟩
  | path {again first : Slice} {path : String} :
    again.Follows first s → again.Expands path → first.Expands path →
      ToldOf s ⟨.repeatedExpand first.span, again.span⟩

section Slices
variable {s t again first : Slice} {f : Failure} {path : String} {depth : Nat}

theorem Slice.Follows.inside (h : again.Follows first t) (ht : t.StandsIn s) :
    again.Follows first s :=
  ⟨h.later.trans ht, h.earlier.trans ht, h.ordered⟩

theorem Failure.ToldOf.inside (h : f.ToldOf t) (ht : t.StandsIn s) : f.ToldOf s := by
  cases h with
  | one h => exact .one h
  | option h hagain hfirst => exact .option (h.inside ht) hagain hfirst
  | path h hagain hfirst => exact .path (h.inside ht) hagain hfirst

/-- A path that is read in some brackets is read in any. -/
theorem Slice.expands_of_run (h : run expandPath depth s = .ok path) : s.Expands path := by
  obtain ⟨ts, _, hts, -⟩ := run_eq_ok.1 h
  have hpath := (run_expandPath_iff hts depth path).1 h
  exact fun depth' => (run_expandPath_iff hts depth' path).2 hpath

end Slices

/-! ## What was seen -/

/-- **What was seen is true**: each entry is the place of a slice in the text that is what the
entry says, and ends before each of the items begins that are still to be read. -/
def Seen {α : Type} (Is : Slice → α → Prop) (s : Slice) (items : List Slice)
    (seen : List (α × Span)) : Prop :=
  ∀ x ∈ seen, ∃ first : Slice, first.StandsIn s ∧ Is first x.1 ∧ x.2 = first.span ∧
    ∀ item ∈ items, first.stop ≤ item.start

namespace Seen
variable {α : Type} {Is : Slice → α → Prop} {s item again : Slice} {items : List Slice}
  {seen : List (α × Span)} {a : α} {p : Span}

theorem nil : Seen Is s items [] := nofun

/-- An item is passed over. -/
theorem tail (h : Seen Is s (item :: items) seen) : Seen Is s items seen := by
  intro x hx
  obtain ⟨first, hstands, his, hplace, hbefore⟩ := h x hx
  exact ⟨first, hstands, his, hplace, fun i hi => hbefore i (List.mem_cons_of_mem _ hi)⟩

/-- Something in an item is seen. -/
theorem cons (h : Seen Is s (item :: items) seen) (horder : Slice.InOrder (item :: items))
    (hitem : item.StandsIn s) (hagain : again.StandsIn item) (his : Is again a) :
    Seen Is s items ((a, again.span) :: seen) := by
  refine List.forall_mem_cons.2 ⟨⟨again, hagain.trans hitem, his, rfl, fun i hi => ?_⟩, h.tail⟩
  exact Nat.le_trans hagain.bounds.2 ((List.pairwise_cons.1 horder).1 i hi)

/-- **What is seen again in an item follows what was seen.** -/
theorem follows [BEq α] [LawfulBEq α] (h : Seen Is s (item :: items) seen)
    (hitem : item.StandsIn s) (hagain : again.StandsIn item) (hseen : seen.lookup a = some p) :
    ∃ first : Slice, again.Follows first s ∧ Is first a ∧ p = first.span := by
  obtain ⟨l, l', rfl, -⟩ := List.lookup_eq_some_iff.1 hseen
  obtain ⟨first, hstands, his, hplace, hbefore⟩ := h (a, p) (by simp)
  have hordered := Nat.le_trans (hbefore item List.mem_cons_self) hagain.bounds.1
  exact ⟨first, ⟨hagain.trans hitem, hstands, hordered⟩, his, hplace⟩

end Seen

/-! ## Results -/

/-- A result tells of a slice: if it is a refusal then the failure says of the slice what is
true. -/
def Tells {α : Type} (s : Slice) (x : Except Stop α) : Prop :=
  ∀ f, x = .error (.refused f) → f.ToldOf s

namespace Tells
variable {α β : Type} {s t : Slice} {x : Except Stop α} {f : Failure}

theorem ok (a : α) : Tells s (.ok a : Except Stop α) := nofun

theorem refuse (h : f.ToldOf s) : Tells s (.error (.refused f) : Except Stop α) := by
  rintro _ ⟨⟩
  exact h

theorem bind {g : α → Except Stop β} (h : Tells s x) (hg : ∀ a, x = .ok a → Tells s (g a)) :
    Tells s (x >>= g) := by
  cases x with
  | ok a => exact hg a rfl
  | error e =>
    intro f hf
    cases hf
    exact h f rfl

theorem map (g : α → β) (h : Tells s x) : Tells s (g <$> x) := by
  cases x with
  | ok a => exact .ok _
  | error e =>
    intro f hf
    cases hf
    exact h f rfl

theorem inside (h : Tells t x) (ht : t.StandsIn s) : Tells s x := fun f hf => (h f hf).inside ht

end Tells

/-! ## Grammars -/

section Readers
variable {settings : Settings} {depth : Nat} {nested : Slice → Except Stop Query} {s : Slice}

/-- A grammar tells of one place only. -/
theorem tells_run {α : Type} {p : Parse α} (settings : Settings) (o : Option QueryOption)
    (hp : ((Comparison.single settings).withOption o).Agree Eq p p) (depth : Nat) (t : Slice) :
    Tells s (run p depth t) :=
  fun _ hf => .one (Comparison.earlier_of_run hp hf)

/-! ## Expand items -/

theorem tells_itemOptions (hn : ∀ inside, Tells inside (nested inside)) {parts : ExpandParts}
    (hp : ∀ inside, parts.options = some inside → inside.StandsIn s) :
    Tells s (itemOptions nested parts) := by
  unfold itemOptions
  cases hoptions : parts.options with
  | none => exact .ok _
  | some inside => exact (hn inside).inside (hp inside hoptions)

/-- Expand items tell of the text that they stand in; the induction is along the items, with
whatever paths were seen before. -/
theorem tells_expandItems (hn : ∀ inside, Tells inside (nested inside)) {items : List Slice}
    (hitems : ∀ t ∈ items, t.StandsIn s) (horder : Slice.InOrder items)
    {seen : List (String × Span)} (hseen : Seen Slice.Expands s items seen) :
    Tells s (expandItems settings depth nested seen items) := by
  induction items generalizing seen with
  | nil => exact .ok _
  | cons item items ih =>
    obtain ⟨hitem, hitems⟩ := List.forall_mem_cons.1 hitems
    rw [expandItems_cons]
    cases hparts : expandParts item.trim with
    | error f => exact .refuse (.one (marks_of_expandParts_error hparts).earlier)
    | ok parts =>
      obtain ⟨hpath, hoptions⟩ := ExpandParts.standIn_of_expandParts hparts
      have hagain := hpath.trans item.standsIn_trim
      refine (tells_run settings none Comparison.expandPath depth parts.path).bind
        fun path hrun => ?_
      have hexpands := Slice.expands_of_run hrun
      cases hlookup : seen.lookup path with
      | some first =>
        obtain ⟨first, hfollows, hfirst, rfl⟩ := hseen.follows hitem hagain hlookup
        exact .refuse (.path hfollows hexpands hfirst)
      | none =>
        have hinside : ∀ inside, parts.options = some inside → inside.StandsIn s :=
          fun inside h => (hoptions inside h).trans (item.standsIn_trim.trans hitem)
        refine (tells_itemOptions hn hinside).bind fun options _ => ?_
        have hrest := hseen.cons horder hitem hagain hexpands
        exact (ih hitems (List.pairwise_cons.1 horder).2 hrest).bind fun others _ => .ok _

/-! ## Option lists -/

/-- The value of an option tells of its text. -/
theorem tells_optionValue (hn : ∀ inside, Tells inside (nested inside)) (a : Assignment) :
    Tells a.value (optionValue settings depth nested a) := by
  have hread := valueRead settings depth nested a
  generalize optionValue settings depth nested a = x at hread
  cases hread with
  | select => exact .map _ (tells_run settings none Comparison.selection depth a.value)
  | orderBy => exact .map _ (tells_run settings none Comparison.ordering depth a.value)
  | filter => exact .map _ (tells_run settings (some .filter) Comparison.filter depth a.value)
  | apply => exact .map _ (tells_run settings (some .apply) Comparison.pipeline depth a.value)
  | expand =>
    exact .map _ (tells_expandItems hn (fun _ ht => Slice.standsIn_of_mem_split ht)
      (Slice.inOrder_split ',' a.value) .nil)
  | plain => exact .ok _
  | invalid => exact .refuse (.one rfl)

/-- Option items tell of the text that they stand in, as expand items do. -/
theorem tells_assignAll {value : Assignment → Except Stop OptionValue}
    (hv : ∀ a, Tells a.value (value a)) (q : Query) {items : List Slice}
    (hitems : ∀ t ∈ items, t.StandsIn s) (horder : Slice.InOrder items)
    {seen : List (QueryOption × Span)}
    (hseen : Seen (fun word o => word.toString = o.word) s items seen) :
    Tells s (assignAll value seen q items) := by
  induction items generalizing seen q with
  | nil => exact .ok _
  | cons item items ih =>
    obtain ⟨hitem, hitems⟩ := List.forall_mem_cons.1 hitems
    have hrest := (List.pairwise_cons.1 horder).2
    cases h : assignment? item with
    | error f =>
      rw [assignAll_of_error h]
      exact .refuse (.one (marks_of_assignment?_error h).earlier)
    | ok a? =>
      cases a? with
      | none =>
        rw [assignAll_of_none h]
        exact ih q hitems hrest hseen.tail
      | some a =>
        obtain ⟨⟨word, hagain, hword, hname⟩, hvalue, -⟩ := Assignment.standsIn_of_assignment? h
        cases hs : seen.lookup a.option with
        | some first =>
          obtain ⟨first, hfollows, hfirst, rfl⟩ := hseen.follows hitem hagain hs
          rw [assignAll_of_seen h hs, hname]
          exact .refuse (.option hfollows hword hfirst)
        | none =>
          rw [assignAll_of_unseen h hs, hname]
          refine ((hv a).inside (hvalue.trans hitem)).bind fun v _ => ?_
          exact ih (q.assign v) hitems hrest (hseen.cons horder hitem hagain hword)

theorem tells_listWith (hn : ∀ inside, Tells inside (nested inside)) (sep : Char) (list : Slice) :
    Tells list (listWith settings depth nested sep list) :=
  tells_assignAll (tells_optionValue hn) Query.empty (fun _ ht => Slice.standsIn_of_mem_split ht)
    (Slice.inOrder_split sep list) .nil

/-- A list in brackets tells of its text, however much room there is. -/
theorem tells_nestedList (room : Nat) (inside : Slice) :
    Tells inside (nestedList settings room inside) := by
  induction room generalizing inside with
  | zero => exact .refuse (.one rfl)
  | succ room ih =>
    rw [nestedList, optionList_eq]
    exact tells_listWith ih ';' inside

theorem tells_read (settings : Settings) (text : String) :
    Tells (Slice.ofString text 0) (Query.read settings text) := by
  have hstand := Halves.standIn_ofSlice (Slice.ofString text 0)
  rw [Query.read_eq]
  generalize Halves.ofSlice (Slice.ofString text 0) = halves at hstand
  obtain ⟨path, options⟩ := halves
  refine Tells.bind ?_ fun segments _ => Tells.bind ?_ fun q _ => .ok _
  · unfold Query.readPath
    split
    · exact .ok _
    · exact .map _ (tells_run settings none Comparison.resourcePath 0 path)
  · cases options with
    | none => exact .ok _
    | some options =>
      rw [Query.readOptions, optionList_eq]
      exact (tells_listWith (tells_nestedList _) '&' options).inside (hstand.2 options rfl)

end Readers

/-! ## Diagnostics -/

/-- A cause that tells of one place only is no repetition. -/
theorem Cause.code_of_earlier {c : Cause} (h : c.earlier = none) :
    c.code ≠ .duplicateOption ∧ c.code ≠ .duplicateExpand := by
  cases c with
  | repeatedOption | repeatedExpand => cases h
  | _ => exact ⟨nofun, nofun⟩

/-- **What is given twice is pointed at twice.**  A text that is refused for an option that is
given again has the option's name under both labels, and in the message; one that is refused for a
path that is expanded again has the same path under both. -/
theorem read_repeated {settings : Settings} {text : String} {f : Failure}
    (h : Query.read settings text = .error (.refused f)) :
    (f.refusal.diagnostic.code = some .duplicateOption →
      ∃ (o : QueryOption) (again first : Slice), again.Follows first (Slice.ofString text 0) ∧
        again.toString = o.word ∧ first.toString = o.word ∧
        f.refusal.diagnostic.message = o.word ++ " cannot exist more than once in query string" ∧
        f.refusal.diagnostic.PointsAt again first) ∧
    (f.refusal.diagnostic.code = some .duplicateExpand →
      ∃ (path : String) (again first : Slice), again.Follows first (Slice.ofString text 0) ∧
        again.Expands path ∧ first.Expands path ∧ f.refusal.diagnostic.PointsAt again first) := by
  rw [f.diagnostic_refusal]
  cases tells_read settings text f h with
  | @one f hearlier =>
    obtain ⟨hoption, hexpand⟩ := Cause.code_of_earlier hearlier
    exact ⟨fun h => absurd (Option.some.inj h) hoption, fun h => absurd (Option.some.inj h) hexpand⟩
  | @option again first o hfollows hagain hfirst =>
    exact ⟨fun _ => ⟨o, again, first, hfollows, hagain, hfirst, rfl, rfl⟩, nofun⟩
  | @path again first path hfollows hagain hfirst =>
    exact ⟨nofun, fun _ => ⟨path, again, first, hfollows, hagain, hfirst, rfl⟩⟩

/-- An option that is given twice in the options of an expand item, and a path that is expanded
twice, once with blanks in it. -/
theorem read_repeated_inside :
    (∃ f, Query.read Settings.standard "$expand=C($top=1;\u00a0$top=2)" = .error (.refused f) ∧
      ∃ (o : QueryOption) (again first : Slice),
        again.Follows first (Slice.ofString "$expand=C($top=1;\u00a0$top=2)" 0) ∧
        again.toString = o.word ∧ first.toString = o.word ∧
        f.refusal.diagnostic.message = o.word ++ " cannot exist more than once in query string" ∧
        f.refusal.diagnostic.PointsAt again first) ∧
    ∃ f, Query.read Settings.standard "$expand=A/B,C,A / B($top=1)" = .error (.refused f) ∧
      ∃ (path : String) (again first : Slice),
        again.Follows first (Slice.ofString "$expand=A/B,C,A / B($top=1)" 0) ∧
        again.Expands path ∧ first.Expands path ∧ f.refusal.diagnostic.PointsAt again first := by
  have hoption : Query.read Settings.standard "$expand=C($top=1;\u00a0$top=2)" =
      .error (.refused ⟨.repeatedOption .top ⟨10, 14⟩, ⟨19, 23⟩⟩) := by decide +kernel
  have hpath : Query.read Settings.standard "$expand=A/B,C,A / B($top=1)" =
      .error (.refused ⟨.repeatedExpand ⟨8, 11⟩, ⟨14, 19⟩⟩) := by decide +kernel
  exact ⟨⟨_, hoption, (read_repeated hoption).1 rfl⟩, ⟨_, hpath, (read_repeated hpath).2 rfl⟩⟩

end OData
