import Mathlib.Data.List.Induction
import OData.Proofs.Traversal.Mentions

/-!
# References below an expanded path

The options of an expanded path are a query, and it refers to the same things there as it does
by itself, each below the path.  The reason is in the environments.  Where a query stands by
itself and where it stands below a path, all names have the same absolute paths but for the
path in front of them (`Environment.absolute_inside`): a variable stands for a collection that
is below the path, and what is expanded is expanded below the path.  To bind a variable or to
expand a path further leaves it so, hence all the mentions of a query are below the path, one by
one (`Query.mentions_inside`).  Putting the path in front of all of them makes no two of them
the same, and none of them is the path itself, so each is met first where it was met first.
-/
namespace OData

/-! ## Places below a path -/

/-- The place of an environment, put below a path. -/
def Environment.inside (path : String) (env : Environment) : Environment where
  collection x := (env.collection x).map (path ++ "/" ++ ·)
  expanded := some (env.expanded.elim path (path ++ "/" ++ ·))

namespace Environment
variable (path : String) (env : Environment)

/-- What is expanded outside of everything is a place below a path. -/
theorem below_outermost : outermost.below path = outermost.inside path := rfl

/-- **A name has its absolute path below the path.** -/
theorem absolute_inside (name : String) :
    (env.inside path).absolute name = path ++ "/" ++ env.absolute name := by
  simp only [absolute, inside]
  cases env.collection (String.ofList (name.toList.takeWhile (· != '/'))) with
  | some target => exact String.append_assoc
  | none =>
    cases env.expanded with
    | some outer =>
      have happend :
          path ++ "/" ++ outer ++ "/" ++ name = path ++ "/" ++ (outer ++ "/" ++ name) := by
        simp only [String.append_assoc]
      exact happend
    | none => rfl

theorem bind_inside (param target : String) :
    (env.inside path).bind param (path ++ "/" ++ target) = (env.bind param target).inside path := by
  unfold bind inside
  congr 1
  funext x
  by_cases hx : x = param
  · subst hx
    simp only [Function.update_self, Option.map_some]
  · simp only [Function.update_of_ne hx]

theorem below_inside (outer : String) :
    (env.inside path).below (path ++ "/" ++ outer) = (env.below outer).inside path := rfl

end Environment

/-! ## Mentions below a path -/

section Mentions
variable (path : String)

theorem Expr.mentions_inside_and_all :
    (∀ (e : Expr) (env : Environment),
      e.mentions (env.inside path) = (e.mentions env).map (path ++ "/" ++ ·)) ∧
    ∀ (es : List Expr) (env : Environment),
      Expr.allMentions es (env.inside path) =
        (Expr.allMentions es env).map (path ++ "/" ++ ·) := by
  refine Expr.mentions.mutual_induct _ _ ?property ?collection ?call ?lambda ?math ?comparison
    ?logical ?literal ?now ?cast ?nil ?cons
  case property =>
    intro p env
    simp only [Expr.mentions, Environment.absolute_inside, List.map_cons, List.map_nil]
  case collection =>
    intro _ p param body env ih
    simp only [Expr.mentions, Environment.absolute_inside, Environment.bind_inside, ih,
      List.map_cons]
  case call =>
    intro f args env hargs ih
    rw [Expr.mentions, Expr.mentions, ih]
    · exact hargs
    · exact hargs
  case lambda => exact fun _ _ _ ih => ih
  case math | comparison | logical =>
    intro _ left right env hleft hright
    simp only [Expr.mentions, hleft, hright, List.map_append]
  case literal | now => exact fun _ _ => rfl
  case cast => exact fun _ _ _ => rfl
  case nil => exact fun _ => rfl
  case cons =>
    intro e es env hfirst hothers
    simp only [Expr.allMentions, hfirst, hothers, List.map_append]

theorem Expr.mentions_inside (e : Expr) (env : Environment) :
    e.mentions (env.inside path) = (e.mentions env).map (path ++ "/" ++ ·) :=
  (Expr.mentions_inside_and_all path).1 e env

theorem NamedValue.mentions_inside (v : NamedValue) (env : Environment) :
    v.mentions (env.inside path) = (v.mentions env).map (path ++ "/" ++ ·) := by
  cases v with
  | expr e => exact e.mentions_inside path env
  | aggregate a =>
    simp only [NamedValue.mentions, Environment.absolute_inside, List.map_cons, List.map_nil]

theorem StageArg.mentions_inside_and_all :
    (∀ (a : StageArg) (env : Environment),
      a.mentions (env.inside path) = (a.mentions env).map (path ++ "/" ++ ·)) ∧
    ∀ (as : List StageArg) (env : Environment),
      StageArg.allMentions as (env.inside path) =
        (StageArg.allMentions as env).map (path ++ "/" ++ ·) := by
  refine StageArg.mentions.mutual_induct _ _ ?expr ?named ?expand ?stage ?nil ?cons
  case expr => exact fun e env => e.mentions_inside path env
  case named => exact fun _ v env => v.mentions_inside path env
  case expand =>
    intro p others env ih
    simp only [StageArg.mentions, Environment.absolute_inside, Environment.below_inside, ih,
      List.map_cons]
  case stage =>
    intro kind as env has ih
    rw [StageArg.mentions, StageArg.mentions, ih]
    · exact has
    · exact has
  case nil => exact fun _ => rfl
  case cons =>
    intro a as env hfirst hothers
    simp only [StageArg.allMentions, hfirst, hothers, List.map_append]

theorem StageArg.mentions_inside (a : StageArg) (env : Environment) :
    a.mentions (env.inside path) = (a.mentions env).map (path ++ "/" ++ ·) :=
  (StageArg.mentions_inside_and_all path).1 a env

theorem PathSegment.mentions_inside (s : PathSegment) (env : Environment) :
    s.mentions (env.inside path) = (s.mentions env).map (path ++ "/" ++ ·) := by
  rw [PathSegment.mentions, PathSegment.mentions, List.map_flatMap]
  refine List.flatMap_congr fun k _ => ?_
  cases k with
  | positional => rfl
  | named name =>
    simp only [KeyPredicate.mentions, Environment.absolute_inside, List.map_cons, List.map_nil]

theorem Environment.selected_inside (env : Environment) (item : String) :
    (env.inside path).selected item = (env.selected item).map (path ++ "/" ++ ·) := by
  unfold Environment.selected
  split
  · rfl
  · simp only [Environment.absolute_inside, List.map_cons, List.map_nil]

theorem Query.mentions_inside_and_items :
    (∀ (q : Query) (env : Environment),
      q.mentions (env.inside path) = (q.mentions env).map (path ++ "/" ++ ·)) ∧
    (∀ (is : List ExpandItem) (env : Environment),
      ExpandItem.allMentions is (env.inside path) =
        (ExpandItem.allMentions is env).map (path ++ "/" ++ ·)) ∧
    ∀ (i : ExpandItem) (env : Environment),
      i.mentions (env.inside path) = (i.mentions env).map (path ++ "/" ++ ·) := by
  refine Query.mentions.mutual_induct _ _ _ ?query ?item ?nil ?cons
  case query =>
    intro segments select expand filter orderBy _ _ _ _ _ _ apply env ih
    have hitems : ExpandItem.allMentions (expand.getD []) (env.inside path) =
        (ExpandItem.allMentions (expand.getD []) env).map (path ++ "/" ++ ·) := by
      cases expand with
      | none => rfl
      | some items => exact ih
    have hselected := funext (Environment.selected_inside path env)
    have hsegments := funext fun s : PathSegment => s.mentions_inside path env
    simp only [Query.mentions_eq, hitems, hsegments, hselected, Expr.mentions_inside,
      StageArg.mentions_inside, Environment.absolute_inside, List.map_append, List.map_flatMap,
      List.map_map, Function.comp_def]
  case item =>
    intro p options env ih
    simp only [ExpandItem.mentions, Environment.absolute_inside, Environment.below_inside, ih,
      List.map_cons]
  case nil => exact fun _ => rfl
  case cons =>
    intro i is env hfirst hothers
    simp only [ExpandItem.allMentions, hfirst, hothers, List.map_append]

/-- What a query mentions below a path is what it mentions, below the path. -/
theorem Query.mentions_inside (q : Query) (env : Environment) :
    q.mentions (env.inside path) = (q.mentions env).map (path ++ "/" ++ ·) :=
  (Query.mentions_inside_and_items path).1 q env

end Mentions

/-! ## References below a path -/

/-- A function that keeps paths apart keeps the order in which they are met first. -/
theorem eraseDups_map {f : String → String} (hf : Function.Injective f) (l : List String) :
    (l.map f).eraseDups = l.eraseDups.map f := by
  induction l using List.reverseRecOn with
  | nil => rfl
  | append_singleton l path ih =>
    have hseen : (l.eraseDups.map f).contains (f path) = l.eraseDups.contains path := by
      rw [Bool.eq_iff_iff, List.contains_iff_mem, List.contains_iff_mem,
        List.mem_map_of_injective hf]
    rw [List.map_append, List.map_singleton, eraseDups_concat, eraseDups_concat, ih, hseen]
    split
    · rfl
    · rw [List.map_append, List.map_singleton]

theorem append_slash_injective (path : String) : Function.Injective (path ++ "/" ++ ·) :=
  fun _ _ h => (String.append_right_inj _).1 h

/-- No path is below itself. -/
theorem append_slash_ne (path name : String) : path ++ "/" ++ name ≠ path := by
  intro h
  have hlength := congrArg String.length h
  simp only [String.length_append] at hlength
  have hslash : "/".length = 1 := rfl
  omega

/-- **The references of a single expanded path with options** are the path, and then the
references of the options in their order, each below the path. -/
theorem references_expand (path : String) (o : Query) :
    Query.references { expand := some [⟨path, o⟩] } =
      path :: o.references.map (path ++ "/" ++ ·) := by
  have hmentions : Query.mentions { expand := some [⟨path, o⟩] } .outermost =
      path :: (o.mentions .outermost).map (path ++ "/" ++ ·) := by
    have hpath : Environment.outermost.absolute path = path := rfl
    rw [Query.mentions_eq]
    simp [ExpandItem.allMentions, ExpandItem.mentions, hpath, Environment.below_outermost,
      Query.mentions_inside]
  have hnew : ∀ p ∈ (o.mentions .outermost).map (path ++ "/" ++ ·), (!p == path) = true := by
    intro p hp
    obtain ⟨name, -, rfl⟩ := List.mem_map.1 hp
    simpa using append_slash_ne path name
  rw [Query.references_eq_eraseDups, Query.references_eq_eraseDups, hmentions,
    List.eraseDups_cons, List.filter_eq_self.2 hnew, eraseDups_map (append_slash_injective path)]

end OData
