import Mathlib.Data.List.Basic
import Mathlib.Logic.Function.Basic
import OData.Traversal.References

/-!
# What a query mentions

The references of a query, said without a collector.  What an expression, a stage or a query
mentions is a list of absolute paths in the order of the walk, with all its repetitions.  It
hangs on the `Environment` of the place only: on the collections that variables stand for there,
and on the path that is expanded there.  Each construct hands its parts an environment of their
own, so nothing is ever put back.

The collector keeps its environment in two stacks, and changes them on the way in and on the way
out.  All that it does to its state is to note what is mentioned in the environment that the
state is in (`Collector.Notes`), which leaves the stacks as they were.  There is one rule for
each thing that collectors are put together from, and then one proof along the text of each
collector.  So the references are the mentions, each where it comes first
(`Query.references_eq_mentions`).
-/
namespace OData

/-! ## Environments -/

/-- **What names stand for at a place.** -/
structure Environment where
  /-- The absolute path of the collection whose elements a variable stands for. -/
  collection : String → Option String
  /-- The absolute path that is expanded around the place, if one is. -/
  expanded : Option String

namespace Environment

/-- The environment outside of everything. -/
def outermost : Environment := ⟨fun _ => none, none⟩

/-- The environment of the body of a lambda, whose variable stands for a collection. -/
def bind (env : Environment) (param target : String) : Environment :=
  { env with collection := Function.update env.collection param (some target) }

/-- The environment below a path that is expanded. -/
def below (env : Environment) (path : String) : Environment := { env with expanded := some path }

/-- The absolute path of a name.  If its first segment is a variable then the collection
stands in the place of that; all other names go on from the path that is expanded. -/
def absolute (env : Environment) (name : String) : String :=
  match env.collection (String.ofList (name.toList.takeWhile (· != '/'))) with
  | some target => target ++ String.ofList (name.toList.dropWhile (· != '/'))
  | none =>
    match env.expanded with
    | some path => path ++ "/" ++ name
    | none => name

end Environment

/-! ## Mentions -/

mutual

/-- **What an expression mentions.**  A call whose arguments are a property and a lambda mentions
the collection outside of the lambda, whose variable then stands for it in the body. -/
def Expr.mentions : Expr → Environment → List String
  | .property p, env => [env.absolute p.name]
  | .call _ [.property p, .lambda param body], env =>
    env.absolute p.name :: Expr.mentions body (env.bind param (env.absolute p.name))
  | .call _ args, env => Expr.allMentions args env
  | .lambda _ body, env => Expr.mentions body env
  | .math _ left right, env => Expr.mentions left env ++ Expr.mentions right env
  | .comparison _ left right, env => Expr.mentions left env ++ Expr.mentions right env
  | .logical _ left right, env => Expr.mentions left env ++ Expr.mentions right env
  | .literal _, _ | .now _, _ | .cast _ _, _ => []

/-- What expressions mention. -/
def Expr.allMentions : List Expr → Environment → List String
  | [], _ => []
  | e :: es, env => Expr.mentions e env ++ Expr.allMentions es env

end

/-- What a named value mentions. -/
def NamedValue.mentions (env : Environment) : NamedValue → List String
  | .expr e => e.mentions env
  | .aggregate a => [env.absolute a.property.name]

mutual

/-- **What an argument of a stage mentions.**  An expand stage mentions its path, and its other
arguments are below that. -/
def StageArg.mentions : StageArg → Environment → List String
  | .expr e, env => e.mentions env
  | .named _ value, env => value.mentions env
  | .stage .expand (.expr (.property p) :: others), env =>
    env.absolute p.name :: StageArg.allMentions others (env.below (env.absolute p.name))
  | .stage _ args, env => StageArg.allMentions args env

/-- What arguments mention. -/
def StageArg.allMentions : List StageArg → Environment → List String
  | [], _ => []
  | a :: as, env => StageArg.mentions a env ++ StageArg.allMentions as env

end

/-- What a key predicate mentions: the name of its key, if it has one. -/
def KeyPredicate.mentions (env : Environment) : KeyPredicate → List String
  | .positional _ => []
  | .named name _ => [env.absolute name]

/-- What the predicates of a path segment mention. -/
def PathSegment.mentions (env : Environment) (s : PathSegment) : List String :=
  (s.predicates.getD []).flatMap (KeyPredicate.mentions env)

/-- What a selected item mentions, which is nothing if it has a star. -/
def Environment.selected (env : Environment) (item : String) : List String :=
  if item.toList.contains '*' then [] else [env.absolute item]

mutual

/-- **What a query mentions.** -/
def Query.mentions : Query → Environment → List String
  | ⟨path, select, expand, filter, orderBy, _, _, _, _, _, _, apply⟩, env =>
    (path.getD []).flatMap (PathSegment.mentions env) ++
      ((select.getD []).flatMap env.selected ++
        ((match expand with
          | some items => ExpandItem.allMentions items env
          | none => []) ++
          (filter.toList.flatMap (fun e => e.mentions env) ++
            ((orderBy.getD []).map (fun i => env.absolute i.path) ++
              (apply.getD []).flatMap fun t => t.toArg.mentions env))))

/-- What an expand item mentions: its path, and below that what its options mention. -/
def ExpandItem.mentions : ExpandItem → Environment → List String
  | ⟨path, options⟩, env =>
    env.absolute path :: Query.mentions options (env.below (env.absolute path))

/-- What expand items mention. -/
def ExpandItem.allMentions : List ExpandItem → Environment → List String
  | [], _ => []
  | i :: is, env => ExpandItem.mentions i env ++ ExpandItem.allMentions is env

end

theorem Expr.allMentions_eq (es : List Expr) (env : Environment) :
    Expr.allMentions es env = es.flatMap fun e => e.mentions env := by
  induction es with
  | nil => rfl
  | cons e es ih => rw [Expr.allMentions, ih, List.flatMap_cons]

theorem StageArg.allMentions_eq (as : List StageArg) (env : Environment) :
    StageArg.allMentions as env = as.flatMap fun a => a.mentions env := by
  induction as with
  | nil => rfl
  | cons a as ih => rw [StageArg.allMentions, ih, List.flatMap_cons]

theorem ExpandItem.allMentions_eq (is : List ExpandItem) (env : Environment) :
    ExpandItem.allMentions is env = is.flatMap fun i => i.mentions env := by
  induction is with
  | nil => rfl
  | cons i is ih => rw [ExpandItem.allMentions, ih, List.flatMap_cons]

/-- What a query mentions, option by option. -/
theorem Query.mentions_eq (q : Query) (env : Environment) :
    q.mentions env =
      (q.path.getD []).flatMap (PathSegment.mentions env) ++
        ((q.select.getD []).flatMap env.selected ++
          (ExpandItem.allMentions (q.expand.getD []) env ++
            (q.filter.toList.flatMap (fun e => e.mentions env) ++
              ((q.orderBy.getD []).map (fun i => env.absolute i.path) ++
                (q.apply.getD []).flatMap fun t => t.toArg.mentions env)))) := by
  obtain ⟨_, _, expand, _, _, _, _, _, _, _, _, _⟩ := q
  cases expand <;> rfl

/-! ## Lists without repetitions -/

/-- Some paths, and after them those of others that are not there yet. -/
def noted (paths : List String) : List String → List String :=
  List.foldl (fun paths path => if paths.contains path then paths else paths ++ [path]) paths

theorem noted_append (paths l l' : List String) :
    noted paths (l ++ l') = noted (noted paths l) l' :=
  List.foldl_append

/-- A path that is noted comes after all others, unless it is one of them. -/
theorem eraseDups_concat (l : List String) (path : String) :
    (l ++ [path]).eraseDups =
      if l.eraseDups.contains path then l.eraseDups else l.eraseDups ++ [path] := by
  rw [List.eraseDups_append, List.removeAll]
  by_cases h : path ∈ l
  · simp [h]
  · simp [h, List.eraseDups_cons]

/-- To note paths one after the other is to leave out the repetitions. -/
theorem noted_eraseDups (paths l : List String) :
    noted paths.eraseDups l = (paths ++ l).eraseDups := by
  induction l generalizing paths with
  | nil => rw [List.append_nil]; rfl
  | cons path l ih =>
    rw [← List.singleton_append, ← List.append_assoc, ← ih, eraseDups_concat]
    rfl

theorem nodup_noted {paths : List String} (h : paths.Nodup) (l : List String) :
    (noted paths l).Nodup := by
  induction l generalizing paths with
  | nil => exact h
  | cons path l ih =>
    refine ih ?_
    dsimp only
    split
    · exact h
    · next hnew =>
      rw [List.contains_iff_mem] at hnew
      refine List.nodup_append.2 ⟨h, by simp, ?_⟩
      rintro a ha _ hb rfl
      exact hnew (List.mem_singleton.1 hb ▸ ha)

/-! ## What collectors do -/

namespace Collector

/-- The environment of the place that a collector has reached. -/
def environment (c : Collector) : Environment := ⟨fun x => c.scopes.lookup x, c.anchors.head?⟩

theorem environment_bind (c : Collector) (param target : String) :
    environment ⟨c.paths, (param, target) :: c.scopes, c.anchors⟩ =
      c.environment.bind param target := by
  have hlookup : (fun x => List.lookup x ((param, target) :: c.scopes)) =
      Function.update (fun x => c.scopes.lookup x) param (some target) := by
    funext x
    by_cases hx : x = param
    · subst hx
      rw [List.lookup_cons_self, Function.update_self]
    · rw [List.lookup_cons, beq_false_of_ne hx, Function.update_of_ne hx]
  rw [environment, hlookup]
  rfl

theorem note_eq (c : Collector) (path : String) :
    c.note path = { c with paths := noted c.paths [path] } := by
  rw [note, noted, List.foldl_cons, List.foldl_nil]
  split <;> rfl

/-- A name is resolved in the environment. -/
theorem resolve_eq (c : Collector) (name : String) :
    c.resolve name = c.environment.absolute name := by
  have happend := List.takeWhile_append_dropWhile (p := (· != '/')) (l := name.toList)
  rw [resolve, splitHead, Environment.absolute]
  cases hrest : name.toList.dropWhile (· != '/') with
  | nil =>
    rw [hrest, List.append_nil] at happend
    rw [happend]
    simp only [environment]
    cases c.scopes.lookup (String.ofList name.toList) with
    | none => cases c.anchors <;> rfl
    | some target => simp
  | cons x rest =>
    have hx : x = '/' := by
      have hhead := List.head?_dropWhile_not (p := (· != '/')) name.toList
      rw [hrest] at hhead
      simpa using hhead
    simp only [environment]
    cases c.scopes.lookup (String.ofList (name.toList.takeWhile (· != '/'))) with
    | none => cases c.anchors <;> rfl
    | some target =>
      have hslash : target ++ "/" ++ String.ofList rest = target ++ String.ofList (x :: rest) := by
        rw [hx, String.append_assoc, String.ofList_cons]
        rfl
      exact hslash

theorem within_apply (param target : String) (m : Collect Unit) (c : Collector) :
    within param target m c =
      let after := (m ⟨c.paths, (param, target) :: c.scopes, c.anchors⟩).2
      ((), { after with scopes := after.scopes.tail }) := rfl

theorem below_apply (path : String) (m : Collect Unit) (c : Collector) :
    below path m c =
      let after := (m ⟨c.paths, c.scopes, path :: c.anchors⟩).2
      ((), { after with anchors := after.anchors.tail }) := rfl

/-- **All that a collector does is to note paths**, which hang on the environment only. -/
def Notes (m : Collect Unit) (f : Environment → List String) : Prop :=
  ∀ c, m c = ((), { c with paths := noted c.paths (f c.environment) })

/-- **A collector goes back to where it came from**: the variables and the expanded paths are
afterwards as they were before. -/
def Restores (m : Collect Unit) : Prop :=
  ∀ c, (m c).2.scopes = c.scopes ∧ (m c).2.anchors = c.anchors

namespace Notes
variable {m n : Collect Unit} {f g : Environment → List String}

theorem restores (h : Notes m f) : Restores m := by
  intro c
  rw [h]
  exact ⟨rfl, rfl⟩

theorem nothing : Notes (pure ()) fun _ => [] := fun _ => rfl

theorem seq (hm : Notes m f) (hn : Notes n g) :
    Notes (do m; n) fun env => f env ++ g env := by
  intro c
  show n (m c).2 = _
  rw [hm, hn, noted_append]
  rfl

/-- What is done with the path of a name, once it is noted. -/
theorem record {name : String} {k : String → Collect Unit}
    {g : String → Environment → List String} (hk : ∀ target, Notes (k target) (g target)) :
    Notes (Collector.record name >>= k) fun env =>
      env.absolute name :: g (env.absolute name) env := by
  intro c
  show k (c.resolve name) (c.note (c.resolve name)) = _
  rw [hk, resolve_eq, note_eq]
  rfl

theorem within {param target : String} (hm : Notes m f) :
    Notes (Collector.within param target m) fun env => f (env.bind param target) := by
  intro c
  rw [within_apply, hm, environment_bind]
  rfl

theorem below {path : String} (hm : Notes m f) :
    Notes (Collector.below path m) fun env => f (env.below path) := by
  intro c
  rw [below_apply, hm]
  rfl

theorem each {α : Type} {collect : α → Collect Unit} {f : α → Environment → List String}
    (h : ∀ a, Notes (collect a) (f a)) (l : List α) :
    Notes (Collector.each collect l) fun env => l.flatMap fun a => f a env := by
  induction l with
  | nil => exact nothing
  | cons a l ih => exact (h a).seq ih

end Notes

/-! ## Each collector -/

theorem notes_record (name : String) :
    Notes (do let _ ← record name) fun env => [env.absolute name] :=
  .record fun _ => .nothing

/-- What an expression mentions is noted; the induction is along the text of the collector. -/
theorem notes_expr_and_exprs : (∀ e, Notes (expr e) e.mentions) ∧
    ∀ es, Notes (exprs es) (Expr.allMentions es) := by
  refine expr.mutual_induct _ _ ?property ?collection ?call ?lambda ?math ?comparison ?logical
    ?literal ?now ?cast ?nil ?cons
  case property => exact fun p => notes_record p.name
  case collection => exact fun _ p param body ih => .record fun target => .within ih
  case call =>
    intro f args hargs ih
    have hmentions : (Expr.call f args).mentions = Expr.allMentions args := by
      funext env
      rw [Expr.mentions]
      exact hargs
    rw [expr, hmentions]
    · exact ih
    · exact hargs
  case lambda => exact fun _ _ ih => ih
  case math | comparison | logical => exact fun _ _ _ hleft hright => hleft.seq hright
  case literal | now => exact fun _ => .nothing
  case cast => exact fun _ _ => .nothing
  case nil => exact .nothing
  case cons => exact fun _ _ hfirst hothers => hfirst.seq hothers

theorem notes_expr (e : Expr) : Notes (expr e) e.mentions := notes_expr_and_exprs.1 e

theorem notes_namedValue (v : NamedValue) : Notes (namedValue v) fun env => v.mentions env := by
  cases v with
  | expr e => exact notes_expr e
  | aggregate a => exact notes_record a.property.name

theorem notes_arg_and_args : (∀ a, Notes (arg a) a.mentions) ∧
    ∀ as, Notes (args as) (StageArg.allMentions as) := by
  refine arg.mutual_induct _ _ ?expr ?named ?expand ?stage ?nil ?cons
  case expr => exact notes_expr
  case named => exact fun _ v => notes_namedValue v
  case expand => exact fun p others ih => .record fun target => .below ih
  case stage =>
    intro kind as has ih
    have hmentions : (StageArg.stage kind as).mentions = StageArg.allMentions as := by
      funext env
      rw [StageArg.mentions]
      exact has
    rw [arg, hmentions]
    · exact ih
    · exact has
  case nil => exact .nothing
  case cons => exact fun _ _ hfirst hothers => hfirst.seq hothers

theorem notes_arg (a : StageArg) : Notes (arg a) a.mentions := notes_arg_and_args.1 a

theorem notes_keyPredicate (k : KeyPredicate) :
    Notes (keyPredicate k) fun env => k.mentions env := by
  cases k with
  | positional => exact .nothing
  | named name => exact notes_record name

theorem notes_predicates (s : PathSegment) :
    Notes (each keyPredicate (s.predicates.getD [])) fun env => s.mentions env :=
  .each notes_keyPredicate _

theorem notes_selectItem (item : String) :
    Notes (selectItem item) fun env => env.selected item := by
  unfold selectItem Environment.selected
  split
  · exact .nothing
  · exact notes_record item

theorem notes_orderBy (items : List OrderByItem) :
    Notes (each orderByItem items) fun env => items.map fun i => env.absolute i.path := by
  have heach := Notes.each (fun i : OrderByItem => notes_record i.path) items
  simp only [← List.map_eq_flatMap] at heach
  exact heach

theorem notes_query_and_items : (∀ q, Notes (query q) q.mentions) ∧
    (∀ is, Notes (expandItems is) (ExpandItem.allMentions is)) ∧
    ∀ i, Notes (expandItem i) i.mentions := by
  refine query.mutual_induct _ _ _ ?query ?item ?nil ?cons
  case query =>
    intro path select expand filter orderBy _ _ _ _ _ _ apply ih
    have hpath := Notes.each notes_predicates (path.getD [])
    have hselect := Notes.each notes_selectItem (select.getD [])
    have hrest := (Notes.each notes_expr filter.toList).seq ((notes_orderBy (orderBy.getD [])).seq
      (Notes.each (fun t : Transformation => notes_arg t.toArg) (apply.getD [])))
    cases expand with
    | none =>
      have hall := hpath.seq (hselect.seq hrest)
      simpa only [query, Query.mentions, List.nil_append] using hall
    | some items => exact hpath.seq (hselect.seq (ih.seq hrest))
  case item => exact fun path options ih => .record fun target => .below ih
  case nil => exact .nothing
  case cons => exact fun _ _ hfirst hothers => hfirst.seq hothers

theorem notes_query (q : Query) : Notes (query q) q.mentions := notes_query_and_items.1 q

theorem notes_expandItem (i : ExpandItem) : Notes (expandItem i) i.mentions :=
  notes_query_and_items.2.2 i

end Collector

/-! ## References -/

/-- The references are the mentions outside of everything, noted one after the other. -/
theorem Query.references_eq_noted (q : Query) :
    q.references = noted [] (q.mentions .outermost) := by
  rw [references, Collector.notes_query]
  rfl

theorem Query.references_eq_eraseDups (q : Query) :
    q.references = (q.mentions .outermost).eraseDups := by
  rw [references_eq_noted]
  exact noted_eraseDups [] _

/-- **The references of a query are what it mentions, each where it comes first**; and whatever
the collector visits, it goes back to the variables and the expanded paths that it came from. -/
theorem references_eq_mentions :
    (∀ q : Query, q.references.Nodup ∧ q.references = (q.mentions .outermost).eraseDups) ∧
      (∀ q, Collector.Restores (Collector.query q)) ∧
      (∀ i, Collector.Restores (Collector.expandItem i)) ∧
      (∀ a, Collector.Restores (Collector.arg a)) ∧
      (∀ v, Collector.Restores (Collector.namedValue v)) ∧
      (∀ e, Collector.Restores (Collector.expr e)) ∧
      (∀ k, Collector.Restores (Collector.keyPredicate k)) ∧
      (∀ item, Collector.Restores (Collector.selectItem item)) ∧
      ∀ i, Collector.Restores (Collector.orderByItem i) := by
  refine ⟨fun q => ⟨?_, q.references_eq_eraseDups⟩, fun q => (Collector.notes_query q).restores,
    fun i => (Collector.notes_expandItem i).restores, fun a => (Collector.notes_arg a).restores,
    fun v => (Collector.notes_namedValue v).restores, fun e => (Collector.notes_expr e).restores,
    fun k => (Collector.notes_keyPredicate k).restores,
    fun item => (Collector.notes_selectItem item).restores,
    fun i => (Collector.notes_record i.path).restores⟩
  rw [q.references_eq_noted]
  exact nodup_noted List.nodup_nil _

/-- The variable of an inner lambda hides an outer one of the same name in its body, but not in
the collection that it stands for. -/
example : (Query.references { filter := some (.call .any [.property ⟨"A", none⟩, .lambda "x"
    (.call .any [.property ⟨"x/B", none⟩, .lambda "x" (.property ⟨"x/C", none⟩)])]) }) =
      ["A", "A/B", "A/B/C"] := by
  decide +kernel

end OData
