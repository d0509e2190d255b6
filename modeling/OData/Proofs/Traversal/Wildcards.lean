import OData.Proofs.Canonical.Printing
import OData.Proofs.Traversal.Renaming
import OData.Proofs.WellFormed.Parsed

/-!
# Wildcards among the references

A star is no property.  A selected item with a star in it is not mentioned, and in a query that
was read no other name has one, but for the path of an expand item that is nothing else than a
star.  Such a path is mentioned like any other, and it goes in front of all that is mentioned in
its options.

A place is therefore under a star or it is not (`Environment.Under`): either the path that is
expanded there and the collections that variables stand for all have a star, or none of them
has.  Names without a star leave it so, however far the walk goes down in a condition or a stage,
and what is mentioned has a star just where the place is under one.  The references with a star
are those at and below the expand items that are stars, and all the others are the references of
the query without such items (`references_stars`).
-/
namespace OData
open Grammar

/-- Whether there is a star in a path. -/
def hasStar (path : String) : Bool := path.toList.contains '*'

/-! ## Names -/

theorem hasStar_append (path path' : String) :
    hasStar (path ++ path') = (hasStar path || hasStar path') := by
  simp [hasStar]

theorem hasStar_eq_false {path : String} : hasStar path = false ↔ '*' ∉ path.toList := by
  simp [hasStar]

theorem IsWord.hasStar {w : String} (h : IsWord w) : hasStar w = false :=
  hasStar_eq_false.2 (h.notMem (by decide) (by decide))

theorem IsPathName.hasStar {path : String} (h : IsPathName path) : hasStar path = false := by
  obtain ⟨names, hs, rfl⟩ := h
  rw [hasStar_eq_false, toList_intercalate rfl]
  refine notMem_joined (by decide) ?_
  exact List.forall_mem_map.2 fun name hname => hasStar_eq_false.1 (hs.2 name hname).1.hasStar

theorem IsOperandName.hasStar {path : String} (h : IsOperandName path) : hasStar path = false :=
  h.isPathName.hasStar

/-! ## Places under a star -/

/-- **Whether a place is under a star**: all paths that are put in front of a name there have
one, or none has. -/
structure Environment.Under (star : Bool) (env : Environment) : Prop where
  collection : ∀ x target, env.collection x = some target → hasStar target = star
  expanded : env.expanded.any hasStar = star

namespace Environment.Under
variable {star : Bool} {env : Environment} {name param target path : String}

theorem outermost : Environment.outermost.Under false := ⟨by rintro _ _ ⟨⟩, rfl⟩

/-- A name without a star has one in its absolute path just if the place is under one. -/
theorem hasStar_absolute (h : env.Under star) (hname : hasStar name = true → star = true) :
    hasStar (env.absolute name) = star := by
  have happend := List.takeWhile_append_dropWhile (p := (· != '/')) (l := name.toList)
  unfold Environment.absolute
  split
  · next target htarget =>
    have hrest : hasStar (String.ofList (name.toList.dropWhile (· != '/'))) = true →
        star = true := by
      intro hrest
      refine hname ?_
      simp only [hasStar, String.toList_ofList, List.contains_iff_mem] at hrest ⊢
      exact happend ▸ List.mem_append_right _ hrest
    rw [hasStar_append, h.collection _ _ htarget]
    cases star <;> simp_all
  · have hexpanded := h.expanded
    split
    · next path hpath =>
      rw [hpath, Option.any_some] at hexpanded
      have hslash : hasStar "/" = false := rfl
      rw [hasStar_append, hasStar_append, hexpanded, hslash]
      cases star <;> simp_all
    · next hnone =>
      rw [hnone, Option.any_none] at hexpanded
      cases hexpanded
      exact Bool.eq_false_iff.2 fun hstar => Bool.noConfusion (hname hstar)

theorem absolute (h : env.Under star) (hname : hasStar name = false) :
    hasStar (env.absolute name) = star :=
  h.hasStar_absolute fun hstar => by rw [hname] at hstar; cases hstar

theorem bind (h : env.Under star) (htarget : hasStar target = star) :
    (env.bind param target).Under star := by
  refine ⟨fun x target' hx => ?_, h.expanded⟩
  by_cases hparam : x = param
  · subst hparam
    simp only [Environment.bind, Function.update_self, Option.some.injEq] at hx
    exact hx ▸ htarget
  · simp only [Environment.bind, Function.update_of_ne hparam] at hx
    exact h.collection _ _ hx

theorem below (h : env.Under star) (hpath : hasStar path = star) : (env.below path).Under star :=
  ⟨h.collection, by rw [Environment.below, Option.any_some, hpath]⟩

end Environment.Under

/-! ## Mentions under a star -/

/-- All of these paths have a star, or none has. -/
def AllStarred (star : Bool) (paths : List String) : Prop := ∀ path ∈ paths, hasStar path = star

namespace AllStarred
variable {star : Bool} {path : String} {paths paths' : List String}

theorem nil : AllStarred star [] := nofun

theorem cons (h : hasStar path = star) (hpaths : AllStarred star paths) :
    AllStarred star (path :: paths) :=
  List.forall_mem_cons.2 ⟨h, hpaths⟩

theorem append (h : AllStarred star paths) (h' : AllStarred star paths') :
    AllStarred star (paths ++ paths') :=
  List.forall_mem_append.2 ⟨h, h'⟩

theorem flatMap {α : Type} {f : α → List String} {l : List α}
    (h : ∀ a ∈ l, AllStarred star (f a)) : AllStarred star (l.flatMap f) := by
  intro path hpath
  obtain ⟨a, ha, hpath⟩ := List.mem_flatMap.1 hpath
  exact h a ha path hpath

end AllStarred

section Mentions
variable {settings : Settings} {star : Bool} {env : Environment}

theorem Expr.not_wellFormed_lambda (param : String) (body : Expr) :
    ¬ (Expr.lambda param body).WellFormed settings := nofun

/-- What a condition mentions in a place has a star just if the place is under one. -/
theorem Expr.WellFormed.allStarred {e : Expr} (he : e.WellFormed settings) :
    ∀ {env : Environment}, env.Under star → AllStarred star (e.mentions env) := by
  induction he with
  | property hname => exact fun h => .cons (h.absolute hname.hasStar) .nil
  | literal | now | cast => exact fun _ => .nil
  | @call f args _ _ hargs ih =>
    intro env h
    rw [mentions_call fun param body hmem => not_wellFormed_lambda param body (hargs _ hmem)]
    exact .flatMap fun a ha => ih a ha h
  | anyAtAll hname => exact fun h => .cons (h.absolute hname.hasStar) .nil
  | quantified _ hname _ _ _ _ _ ih =>
    intro env h
    have htarget := h.absolute hname.hasStar
    exact .cons htarget (ih (h.bind htarget))
  | math _ _ _ ihx ihy | comparison _ _ _ ihx ihy => exact fun h => (ihx h).append (ihy h)
  | logical _ _ _ _ _ ihx ihy => exact fun h => (ihx h).append (ihy h)

theorem StageArg.mentions_plain {kind : StageKind} (hkind : kind.isPlain = true)
    (args : List StageArg) (env : Environment) :
    (StageArg.stage kind args).mentions env = args.flatMap fun a => a.mentions env := by
  rw [StageArg.mentions, StageArg.allMentions_eq]
  rintro _ _ rfl
  cases hkind

mutual

theorem StageKind.Takes.allStarred {kind : StageKind} {args : List StageArg} {env : Environment}
    (h : env.Under star) :
    kind.Takes settings args → AllStarred star ((StageArg.stage kind args).mentions env)
  | .identity => .nil
  | .filter he _ => (he.allStarred h).append .nil
  | .expand hname _ hstages => by
    have hpath := h.absolute hname.hasStar
    refine .cons hpath ?_
    rw [StageArg.allMentions_eq, List.flatMap_map]
    exact .flatMap fun t ht => (hstages t ht).allStarred (h.below hpath)
  | .plain hplain _ hargs => by
    rw [StageArg.mentions_plain hplain]
    exact .flatMap fun a ha => (hargs a ha).allStarred h

theorem StageArg.WellFormed.allStarred {a : StageArg} {env : Environment} (h : env.Under star) :
    a.WellFormed settings → AllStarred star (a.mentions env)
  | .expr he => he.allStarred h
  | .named _ he => he.allStarred h
  | .aggregate _ _ hname => .cons (h.absolute hname.hasStar) .nil
  | .stage hargs => hargs.allStarred h

end

/-- What a query mentions before its expand items: the keys of its path, and what it selects. -/
def Query.mentionsBefore (q : Query) (env : Environment) : List String :=
  (q.path.getD []).flatMap (PathSegment.mentions env) ++
    (q.select.getD []).flatMap env.selected

/-- What a query mentions after its expand items. -/
def Query.mentionsAfter (q : Query) (env : Environment) : List String :=
  q.filter.toList.flatMap (fun e => e.mentions env) ++
    ((q.orderBy.getD []).map (fun i => env.absolute i.path) ++
      (q.apply.getD []).flatMap fun t => t.toArg.mentions env)

theorem Query.mentions_eq_around (q : Query) (env : Environment) :
    q.mentions env =
      q.mentionsBefore env ++
        (ExpandItem.allMentions (q.expand.getD []) env ++ q.mentionsAfter env) := by
  rw [Query.mentions_eq, mentionsBefore, mentionsAfter, List.append_assoc]

theorem Query.FlatWellFormed.allStarred_before {sep : Char} {q : Query}
    (hq : q.FlatWellFormed settings sep) (h : env.Under star) :
    AllStarred star (q.mentionsBefore env) := by
  refine .append (.flatMap fun s hs => .flatMap fun k hk => ?_) (.flatMap fun item _ => ?_)
  · obtain ⟨segments, hpath, hs⟩ := exists_of_mem_getD hs
    obtain ⟨ps, hps, hk⟩ := exists_of_mem_getD hk
    have hwf := ((hq.path segments hpath).2 s hs).predicates ps hps k hk
    cases k with
    | positional => exact .nil
    | named name value => exact .cons (h.absolute hwf.1.hasStar) .nil
  · unfold Environment.selected
    split
    · exact .nil
    · next hitem => exact .cons (h.absolute (Bool.eq_false_iff.2 hitem)) .nil

theorem Query.FlatWellFormed.allStarred_after {sep : Char} {q : Query}
    (hq : q.FlatWellFormed settings sep) (h : env.Under star) :
    AllStarred star (q.mentionsAfter env) := by
  refine .append (.flatMap fun e he => ?_) (.append ?_ (.flatMap fun t ht => ?_))
  · exact (hq.filter e (Option.mem_toList.1 he)).1.allStarred h
  · refine List.forall_mem_map.2 fun i hi => ?_
    obtain ⟨items, hitems, hi⟩ := exists_of_mem_getD hi
    exact h.absolute ((hq.orderBy items hitems).2 i hi).hasStar
  · obtain ⟨stages, hstages, ht⟩ := exists_of_mem_getD ht
    exact StageKind.Takes.allStarred h ((hq.apply stages hstages).2 t ht)

theorem ExpandItem.mentions_eq (i : ExpandItem) (env : Environment) :
    i.mentions env =
      env.absolute i.path :: i.options.mentions (env.below (env.absolute i.path)) := by
  obtain ⟨path, options⟩ := i
  rfl

/-- Whatever a query mentions under a star has one. -/
theorem Query.WellFormed.allStarred {sep : Char} {q : Query} (hq : q.WellFormed settings sep) :
    ∀ {env : Environment}, env.Under true → AllStarred true (q.mentions env) := by
  induction hq with
  | mk hflat _ _ _ ih =>
    intro env h
    rw [Query.mentions_eq_around, ExpandItem.allMentions_eq]
    refine (hflat.allStarred_before h).append (.append ?_ (hflat.allStarred_after h))
    refine .flatMap fun i hi => ?_
    obtain ⟨items, hitems, hi⟩ := exists_of_mem_getD hi
    have hpath : hasStar (env.absolute i.path) = true := h.hasStar_absolute fun _ => rfl
    rw [ExpandItem.mentions_eq]
    exact .cons hpath (ih items hitems i hi (h.below hpath))

end Mentions

/-! ## Expand items that are stars -/

mutual

/-- **A query without the expand items that are stars**, at all its levels. -/
def Query.withoutStars : Query → Query
  | ⟨path, select, expand, filter, orderBy, callback, format, search, count, skip, top, apply⟩ =>
    ⟨path, select,
      match expand with
      | some items => some (ExpandItem.allWithoutStars items)
      | none => none,
      filter, orderBy, callback, format, search, count, skip, top, apply⟩

/-- What is left of an expand item: nothing if it is a star. -/
def ExpandItem.withoutStars : ExpandItem → List ExpandItem
  | ⟨path, options⟩ => if path = "*" then [] else [⟨path, Query.withoutStars options⟩]

/-- What is left of expand items. -/
def ExpandItem.allWithoutStars : List ExpandItem → List ExpandItem
  | [] => []
  | i :: is => ExpandItem.withoutStars i ++ ExpandItem.allWithoutStars is

end

/-- **A star is expanded** in a query, at some level. -/
inductive Query.ExpandsStar : Query → Prop
  | here {q : Query} {items : List ExpandItem} {i : ExpandItem} :
    q.expand = some items → i ∈ items → i.path = "*" → ExpandsStar q
  | inside {q : Query} {items : List ExpandItem} {i : ExpandItem} :
    q.expand = some items → i ∈ items → ExpandsStar i.options → ExpandsStar q

theorem ExpandItem.allWithoutStars_eq (is : List ExpandItem) :
    ExpandItem.allWithoutStars is = is.flatMap ExpandItem.withoutStars := by
  induction is with
  | nil => rfl
  | cons i is ih => rw [ExpandItem.allWithoutStars, ih, List.flatMap_cons]

/-- Without its stars a query mentions the same before and after its expand items. -/
theorem Query.mentions_withoutStars (q : Query) (env : Environment) :
    q.withoutStars.mentions env =
      q.mentionsBefore env ++
        (ExpandItem.allMentions ((q.expand.getD []).flatMap ExpandItem.withoutStars) env ++
          q.mentionsAfter env) := by
  rw [mentions_eq_around, ← ExpandItem.allWithoutStars_eq]
  obtain ⟨_, _, expand, _, _, _, _, _, _, _, _, _⟩ := q
  cases expand <;> rfl

theorem Query.expandsStar_iff (q : Query) :
    q.ExpandsStar ↔ ∃ i ∈ q.expand.getD [], i.path = "*" ∨ i.options.ExpandsStar := by
  constructor
  · intro h
    cases h with
    | here hitems hi hpath => exact ⟨_, by rwa [hitems], .inl hpath⟩
    | inside hitems hi hinside => exact ⟨_, by rwa [hitems], .inr hinside⟩
  · rintro ⟨i, hi, hstar⟩
    obtain ⟨items, hitems, hi⟩ := exists_of_mem_getD hi
    rcases hstar with hpath | hinside
    · exact .here hitems hi hpath
    · exact .inside hitems hi hinside

/-! ## What is left without the stars -/

namespace AllStarred
variable {paths : List String}

theorem filter_of_true (h : AllStarred true paths) : paths.filter (!hasStar ·) = [] :=
  List.filter_eq_nil_iff.2 fun path hpath => by simp [h path hpath]

theorem filter_of_false (h : AllStarred false paths) : paths.filter (!hasStar ·) = paths :=
  List.filter_eq_self.2 fun path hpath => by simp [h path hpath]

theorem not_exists (h : AllStarred false paths) : ¬ ∃ path ∈ paths, hasStar path = true := by
  rintro ⟨path, hpath, hstar⟩
  rw [h path hpath] at hstar
  cases hstar

end AllStarred

/-- A query comes apart at its stars in a place: it mentions without a star what it mentions
when its stars are taken away, and it mentions something with a star just if it expands one. -/
structure Query.SplitsAtStars (q : Query) (env : Environment) : Prop where
  filter : (q.mentions env).filter (!hasStar ·) = q.withoutStars.mentions env
  starred : (∃ path ∈ q.mentions env, hasStar path = true) ↔ q.ExpandsStar

section SplitsAtStars
variable {settings : Settings} {env : Environment}

/-- A star stands for itself where no variable is around. -/
theorem Environment.hasStar_absolute_star (hfree : ∀ x, env.collection x = none) :
    hasStar (env.absolute "*") = true := by
  rw [Environment.absolute, hfree]
  cases env.expanded with
  | some path =>
    rw [hasStar_append]
    exact Bool.or_true _
  | none => rfl

theorem ExpandItem.splitsAtStars {i : ExpandItem} (hname : IsExpandName i.path)
    (hwf : i.options.WellFormed settings ';') (h : env.Under false)
    (hfree : ∀ x, env.collection x = none)
    (hoptions : (env.below (env.absolute i.path)).Under false →
      i.options.SplitsAtStars (env.below (env.absolute i.path))) :
    (i.mentions env).filter (!hasStar ·) = ExpandItem.allMentions i.withoutStars env ∧
      ((∃ path ∈ i.mentions env, hasStar path = true) ↔
        i.path = "*" ∨ i.options.ExpandsStar) := by
  obtain ⟨path, options⟩ := i
  by_cases hstar : path = "*"
  · subst hstar
    have hpath := Environment.hasStar_absolute_star hfree
    have hbelow : (env.below (env.absolute "*")).Under true := by
      refine ⟨fun x target hx => ?_, ?_⟩
      · exact nomatch (hfree x).symm.trans hx
      · rw [Environment.below, Option.any_some, hpath]
    have hall : AllStarred true (ExpandItem.mentions ⟨"*", options⟩ env) :=
      .cons hpath (hwf.allStarred hbelow)
    exact ⟨hall.filter_of_true, fun _ => .inl rfl, fun _ => ⟨_, List.mem_cons_self, hpath⟩⟩
  · have hpath := h.absolute (hname.resolve_left hstar).hasStar
    obtain ⟨hfilter, hstarred⟩ := hoptions (h.below hpath)
    constructor
    · rw [ExpandItem.withoutStars, if_neg hstar, ExpandItem.allMentions, ExpandItem.allMentions,
        List.append_nil, ExpandItem.mentions_eq, ExpandItem.mentions_eq, ← hfilter]
      exact List.filter_cons_of_pos (by rw [hpath]; rfl)
    · rw [ExpandItem.mentions_eq, List.exists_mem_cons_iff, hpath, hstarred]
      simp [hstar]

/-- Every well-formed query comes apart at its stars where there are none around it. -/
theorem Query.WellFormed.splitsAtStars {sep : Char} {q : Query} (hq : q.WellFormed settings sep) :
    ∀ {env : Environment}, env.Under false → (∀ x, env.collection x = none) →
      q.SplitsAtStars env := by
  induction hq with
  | @mk _ q hflat hlist _ hnested ih =>
    intro env h hfree
    have hitem : ∀ i ∈ q.expand.getD [],
        (i.mentions env).filter (!hasStar ·) = ExpandItem.allMentions i.withoutStars env ∧
          ((∃ path ∈ i.mentions env, hasStar path = true) ↔
            i.path = "*" ∨ i.options.ExpandsStar) := by
      intro i hi
      obtain ⟨items, hitems, hi⟩ := exists_of_mem_getD hi
      exact ExpandItem.splitsAtStars ((hlist items hitems).2.2 i hi) (hnested items hitems i hi) h
        hfree fun hbelow => ih items hitems i hi hbelow hfree
    have hbefore := hflat.allStarred_before h
    have hafter := hflat.allStarred_after h
    constructor
    · rw [Query.mentions_eq_around, Query.mentions_withoutStars, List.filter_append,
        List.filter_append, hbefore.filter_of_false, hafter.filter_of_false,
        ExpandItem.allMentions_eq, ExpandItem.allMentions_eq, List.filter_flatMap,
        List.flatMap_assoc]
      congr 2
      refine List.flatMap_congr fun i hi => ?_
      rw [(hitem i hi).1, ExpandItem.allMentions_eq]
    · rw [Query.expandsStar_iff, Query.mentions_eq_around, ExpandItem.allMentions_eq]
      constructor
      · rintro ⟨path, hpath, hstar⟩
        rw [List.mem_append, List.mem_append] at hpath
        rcases hpath with hpath | hpath | hpath
        · exact absurd ⟨path, hpath, hstar⟩ hbefore.not_exists
        · obtain ⟨i, hi, hpath⟩ := List.mem_flatMap.1 hpath
          exact ⟨i, hi, (hitem i hi).2.1 ⟨path, hpath, hstar⟩⟩
        · exact absurd ⟨path, hpath, hstar⟩ hafter.not_exists
      · rintro ⟨i, hi, hstar⟩
        obtain ⟨path, hpath, hstar⟩ := (hitem i hi).2.2 hstar
        have hmem : path ∈ (q.expand.getD []).flatMap fun i => i.mentions env :=
          List.mem_flatMap.2 ⟨i, hi, hpath⟩
        exact ⟨path, List.mem_append_right _ (List.mem_append_left _ hmem), hstar⟩

end SplitsAtStars

/-! ## References -/

/-- To leave out repetitions and to leave out paths can be done in any order. -/
theorem filter_eraseDups (p : String → Bool) (l : List String) :
    l.eraseDups.filter p = (l.filter p).eraseDups := by
  induction l using List.reverseRecOn with
  | nil => rfl
  | append_singleton l path ih =>
    have hmem : path ∈ l.eraseDups.filter p ↔ path ∈ l.eraseDups ∧ p path = true :=
      List.mem_filter
    cases hp : p path with
    | true =>
      have hcontains : (l.eraseDups.filter p).contains path = l.eraseDups.contains path := by
        rw [Bool.eq_iff_iff, List.contains_iff_mem, List.contains_iff_mem, hmem, hp]
        exact and_iff_left rfl
      rw [eraseDups_concat, List.filter_append, List.filter_cons_of_pos hp, List.filter_nil,
        eraseDups_concat, ← ih, hcontains, apply_ite (List.filter p), List.filter_append,
        List.filter_cons_of_pos hp, List.filter_nil]
    | false =>
      have hnot : ¬ p path = true := by rw [hp]; exact Bool.false_ne_true
      rw [eraseDups_concat, List.filter_append, List.filter_cons_of_neg hnot, List.filter_nil,
        List.append_nil, ← ih, apply_ite (List.filter p), List.filter_append,
        List.filter_cons_of_neg hnot, List.filter_nil, List.append_nil, ite_self]

/-- **The references with a star.**  A query that was read refers to a path with a star just if it
expands a star at some level, and its other references are those that it has when all expand items
that are stars are taken away. -/
theorem references_stars {settings : Settings} {text : String} {q : Query}
    (h : parse settings text = .query q) :
    ((∃ path ∈ q.references, hasStar path = true) ↔ q.ExpandsStar) ∧
      q.references.filter (!hasStar ·) = q.withoutStars.references := by
  obtain ⟨hfilter, hstarred⟩ := (parse_wellFormed h).splitsAtStars .outermost fun _ => rfl
  constructor
  · simp only [Query.references_eq_eraseDups, List.mem_eraseDups]
    exact hstarred
  · rw [Query.references_eq_eraseDups, Query.references_eq_eraseDups, filter_eraseDups, hfilter]

/-- The query of `$select=*,A&$expand=C($select=D;$expand=*($select=E))`. -/
def starInside : Query where
  select := some ["*", "A"]
  expand := some [⟨"C", { select := some ["D"], expand := some [⟨"*", { select := some ["E"] }⟩] }⟩]

set_option maxRecDepth 4000 in
theorem references_starInside :
    parse Settings.standard "$select=*,A&$expand=C($select=D;$expand=*($select=E))" =
        .query starInside ∧
      (∃ path ∈ starInside.references, hasStar path = true) ∧
      starInside.references.filter (!hasStar ·) = starInside.withoutStars.references := by
  have h : parse Settings.standard "$select=*,A&$expand=C($select=D;$expand=*($select=E))" =
      .query starInside := by
    decide +kernel
  obtain ⟨hstarred, hfilter⟩ := references_stars h
  exact ⟨h, hstarred.2 (.inside rfl (List.mem_singleton.2 rfl)
    (.here rfl (List.mem_singleton.2 rfl) rfl)), hfilter⟩

/-- A star that is expanded is among the references. -/
theorem star_mem_references :
    parse Settings.standard "$expand=*" = .query { expand := some [⟨"*", {}⟩] } ∧
      "*" ∈ Query.references { expand := some [⟨"*", {}⟩] } :=
  ⟨by decide +kernel, by decide +kernel⟩

end OData
