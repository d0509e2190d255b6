import OData.Proofs.Traversal.Mentions

/-!
# The name of a lambda's variable

What the variable of a lambda is called says nothing about the query: with another name, which
the body does not use yet, the query has the same references in the same order
(`references_of_renames`).

The body of the lambda is read in two environments, which give the old and the new name the same
collection and agree on all other names (`Environment.Renamed`).  They stay so while the walk
goes down, up to a lambda that binds the old name again.  Below that nothing is renamed, and the
two environments differ in the new name only, which is not used there
(`Expr.Scoped.mentions_congr`).  All of this takes for granted that lambdas stand where the walk
binds their variables: as the second of two arguments of a call, after a property.  Elsewhere a
lambda hides nothing, and an outer variable is seen through it.
-/
namespace OData

/-! ## First segments -/

/-- The first segment of a path. -/
def firstSegment (path : String) : String :=
  String.ofList (path.toList.takeWhile (· != '/'))

/-- What stands after the first segment of a path, with the slash. -/
def otherSegments (path : String) : String :=
  String.ofList (path.toList.dropWhile (· != '/'))

/-- The path with another first segment, if its first segment is `x`. -/
def renameFirst (x y path : String) : String :=
  if firstSegment path = x then y ++ otherSegments path else path

theorem takeWhile_otherSegments (path : String) :
    (otherSegments path).toList.takeWhile (· != '/') = [] := by
  rw [otherSegments, String.toList_ofList]
  have hhead := List.head?_dropWhile_not (p := (· != '/')) path.toList
  cases hrest : path.toList.dropWhile (· != '/') with
  | nil => rfl
  | cons c rest =>
    rw [hrest] at hhead
    exact List.takeWhile_cons_of_neg (by simpa using hhead)

section FirstSegment
variable {y : String} (hy : '/' ∉ y.toList) (path : String)
include hy

theorem bne_slash : ∀ c ∈ y.toList, (c != '/') = true :=
  fun _ hc => bne_iff_ne.2 fun h => hy (h ▸ hc)

theorem firstSegment_append : firstSegment (y ++ otherSegments path) = y := by
  rw [firstSegment, String.toList_append, List.takeWhile_append_of_pos (bne_slash hy),
    takeWhile_otherSegments, List.append_nil, String.ofList_toList]

theorem otherSegments_append : otherSegments (y ++ otherSegments path) = otherSegments path := by
  have happend :=
    List.takeWhile_append_dropWhile (p := (· != '/')) (l := (otherSegments path).toList)
  rw [takeWhile_otherSegments, List.nil_append] at happend
  rw [otherSegments, String.toList_append, List.dropWhile_append_of_pos (bne_slash hy),
    happend, String.ofList_toList]

end FirstSegment

/-! ## Renaming -/

mutual

/-- An expression with the variable `x` called `y`.  A lambda that binds `x` again means a
variable of its own, so its body is left as it is. -/
def Expr.rename (x y : String) : Expr → Expr
  | .property p => .property { p with name := renameFirst x y p.name }
  | .call f args => .call f (Expr.renameAll x y args)
  | .lambda param body => .lambda param (if param = x then body else Expr.rename x y body)
  | .math op left right => .math op (Expr.rename x y left) (Expr.rename x y right)
  | .comparison op left right => .comparison op (Expr.rename x y left) (Expr.rename x y right)
  | .logical op left right => .logical op (Expr.rename x y left) (Expr.rename x y right)
  | .literal l => .literal l
  | .now unit => .now unit
  | .cast value target => .cast value target

/-- Expressions with the variable `x` called `y`. -/
def Expr.renameAll (x y : String) : List Expr → List Expr
  | [] => []
  | e :: es => Expr.rename x y e :: Expr.renameAll x y es

end

mutual

/-- **The names that an expression uses**: the first segments of its properties, and the
variables of its lambdas. -/
def Expr.names : Expr → List String
  | .property p => [firstSegment p.name]
  | .call _ args => Expr.allNames args
  | .lambda param body => param :: Expr.names body
  | .math _ left right | .comparison _ left right | .logical _ left right =>
    Expr.names left ++ Expr.names right
  | .literal _ | .now _ | .cast _ _ => []

/-- The names that expressions use. -/
def Expr.allNames : List Expr → List String
  | [] => []
  | e :: es => Expr.names e ++ Expr.allNames es

end

theorem Expr.renameAll_eq (x y : String) (es : List Expr) :
    Expr.renameAll x y es = es.map (Expr.rename x y) := by
  induction es with
  | nil => rfl
  | cons e es ih => rw [Expr.renameAll, ih, List.map_cons]

theorem Expr.allNames_eq (es : List Expr) : Expr.allNames es = es.flatMap Expr.names := by
  induction es with
  | nil => rfl
  | cons e es ih => rw [Expr.allNames, ih, List.flatMap_cons]

/-! ## Lambdas in their places -/

/-- **Lambdas occur only as the second of two arguments of a call**, after a property. -/
inductive Expr.Scoped : Expr → Prop
  | property (p : Property) : Scoped (.property p)
  | literal (l : Literal) : Scoped (.literal l)
  | now (unit : Option TimeUnit) : Scoped (.now unit)
  | cast (value : Literal) (target : EdmType) : Scoped (.cast value target)
  | call {args : List Expr} (f : Builtin) : (∀ a ∈ args, Scoped a) → Scoped (.call f args)
  | quantified {body : Expr} (f : Builtin) (p : Property) (param : String) :
      Scoped body → Scoped (.call f [.property p, .lambda param body])
  | math {left right : Expr} (op : MathOp) :
      Scoped left → Scoped right → Scoped (.math op left right)
  | comparison {left right : Expr} (op : ComparisonOp) :
      Scoped left → Scoped right → Scoped (.comparison op left right)
  | logical {left right : Expr} (op : LogicalOp) :
      Scoped left → Scoped right → Scoped (.logical op left right)

namespace Expr

theorem not_scoped_lambda (param : String) (body : Expr) : ¬ Scoped (.lambda param body) := nofun

/-- The arguments of a call are scoped, or they are a collection and a condition on it. -/
theorem Scoped.cases_call {f : Builtin} {args : List Expr} (h : Scoped (.call f args)) :
    (∀ a ∈ args, a.Scoped) ∨
      ∃ p param body, args = [.property p, .lambda param body] ∧ body.Scoped := by
  cases h with
  | call _ hargs => exact .inl hargs
  | quantified _ p param hbody => exact .inr ⟨p, param, _, rfl, hbody⟩

theorem Scoped.body {f : Builtin} {p : Property} {param : String} {body : Expr}
    (h : Scoped (.call f [.property p, .lambda param body])) : body.Scoped := by
  rcases h.cases_call with hargs | ⟨_, _, _, heq, hbody⟩
  · exact absurd (hargs (.lambda param body) (by simp)) (not_scoped_lambda _ _)
  · cases heq
    exact hbody

/-- A call without a lambda mentions what its arguments mention, where it stands. -/
theorem mentions_call {args : List Expr} (h : ∀ param body, Expr.lambda param body ∉ args)
    (f : Builtin) (env : Environment) :
    (call f args).mentions env = args.flatMap fun a => a.mentions env := by
  rw [Expr.mentions, Expr.allMentions_eq]
  rintro p param body rfl
  exact h param body (by simp)

theorem lambda_notMem {args : List Expr} (h : ∀ a ∈ args, a.Scoped) (param : String)
    (body : Expr) : Expr.lambda param body ∉ args :=
  fun hmem => not_scoped_lambda _ _ (h _ hmem)

theorem Scoped.rename_ne_lambda {e : Expr} (h : e.Scoped) (x y param : String) (body : Expr) :
    e.rename x y ≠ .lambda param body := by
  cases h <;> nofun

end Expr

/-! ## Environments that differ in names -/

namespace Environment
variable {x y : String} {env env' : Environment}

theorem absolute_eq (env : Environment) (name : String) :
    env.absolute name =
      match env.collection (firstSegment name) with
      | some target => target ++ otherSegments name
      | none => env.expanded.elim name (· ++ "/" ++ name) := by
  unfold absolute firstSegment otherSegments
  cases env.collection _ with
  | some target => rfl
  | none => cases env.expanded <;> rfl

/-- Two environments that differ in one name at most. -/
structure AgreeExcept (y : String) (env env' : Environment) : Prop where
  expanded : env'.expanded = env.expanded
  others : ∀ z, z ≠ y → env'.collection z = env.collection z

/-- **An environment in which the variable `x` of another is called `y`.** -/
structure Renamed (x y : String) (env env' : Environment) : Prop where
  expanded : env'.expanded = env.expanded
  others : ∀ z, z ≠ x → z ≠ y → env'.collection z = env.collection z
  variable_eq : ∃ target, env.collection x = some target ∧ env'.collection y = some target

theorem AgreeExcept.absolute (h : env.AgreeExcept y env') {name : String}
    (hname : firstSegment name ≠ y) : env'.absolute name = env.absolute name := by
  rw [absolute_eq, absolute_eq, h.expanded, h.others _ hname]

theorem AgreeExcept.bind (h : env.AgreeExcept y env') (param target : String) :
    (env.bind param target).AgreeExcept y (env'.bind param target) := by
  refine ⟨h.expanded, fun z hz => ?_⟩
  simp only [Environment.bind, Function.update_apply, h.others z hz]

theorem Renamed.absolute (h : env.Renamed x y env') (hy : '/' ∉ y.toList) {name : String}
    (hname : firstSegment name ≠ y) :
    env'.absolute (renameFirst x y name) = env.absolute name := by
  unfold renameFirst
  split
  · next hx =>
    obtain ⟨target, hold, hnew⟩ := h.variable_eq
    rw [absolute_eq, absolute_eq, firstSegment_append hy, otherSegments_append hy, hx, hold, hnew]
  · next hx => rw [absolute_eq, absolute_eq, h.expanded, h.others _ hx hname]

/-- The two environments of the body, where its variable has the one or the other name. -/
theorem renamed_bind (env : Environment) (x y target : String) :
    (env.bind x target).Renamed x y (env.bind y target) where
  expanded := rfl
  others z hx hy := by
    simp only [Environment.bind, Function.update_of_ne hx, Function.update_of_ne hy]
  variable_eq := ⟨target, Function.update_self .., Function.update_self ..⟩

theorem Renamed.bind (h : env.Renamed x y env') {param : String} (hx : param ≠ x)
    (hy : param ≠ y) (target : String) :
    (env.bind param target).Renamed x y (env'.bind param target) where
  expanded := h.expanded
  others z hzx hzy := by
    simp only [Environment.bind, Function.update_apply, h.others z hzx hzy]
  variable_eq := by
    simpa only [Environment.bind, Function.update_of_ne hx.symm, Function.update_of_ne hy.symm]
      using h.variable_eq

/-- Where the old name is bound again, it does not matter any more what it stood for. -/
theorem Renamed.rebind (h : env.Renamed x y env') (target : String) :
    (env.bind x target).AgreeExcept y (env'.bind x target) := by
  refine ⟨h.expanded, fun z hz => ?_⟩
  by_cases hx : z = x
  · subst hx
    simp only [Environment.bind, Function.update_self]
  · simp only [Environment.bind, Function.update_of_ne hx, h.others z hx hz]

end Environment

/-! ## Mentions of renamed expressions -/

namespace Expr
variable {x y : String} {e : Expr}

/-- What an expression mentions does not depend on names that it does not use. -/
theorem Scoped.mentions_congr (h : e.Scoped) (hfresh : y ∉ e.names) {env env' : Environment}
    (henv : env.AgreeExcept y env') : e.mentions env' = e.mentions env := by
  induction h generalizing env env' with
  | property p =>
    have hname : firstSegment p.name ≠ y := fun h => hfresh (by simp [names, h])
    simp only [mentions, henv.absolute hname]
  | literal | now | cast => rfl
  | call f hargs ih =>
    rw [names, allNames_eq] at hfresh
    rw [mentions_call (lambda_notMem hargs), mentions_call (lambda_notMem hargs)]
    refine List.flatMap_congr fun a ha => ih a ha (fun h => hfresh ?_) henv
    exact List.mem_flatMap.2 ⟨a, ha, h⟩
  | quantified f p param _ ih =>
    simp only [names, allNames, List.append_nil, List.mem_append, List.mem_cons, List.not_mem_nil,
      or_false, not_or] at hfresh
    obtain ⟨hname, -, hbody⟩ := hfresh
    simp only [mentions, henv.absolute (Ne.symm hname), ih hbody (henv.bind param _)]
  | math op _ _ hleft hright | comparison op _ _ hleft hright | logical op _ _ hleft hright =>
    simp only [names, List.mem_append, not_or] at hfresh
    simp only [mentions, hleft hfresh.1 henv, hright hfresh.2 henv]

/-- An expression mentions the same when a variable has another name, which is new to it. -/
theorem Scoped.mentions_rename (h : e.Scoped) (hfresh : y ∉ e.names) (hy : '/' ∉ y.toList)
    {env env' : Environment} (henv : env.Renamed x y env') :
    (e.rename x y).mentions env' = e.mentions env := by
  induction h generalizing env env' with
  | property p =>
    have hname : firstSegment p.name ≠ y := fun h => hfresh (by simp [names, h])
    simp only [Expr.rename, mentions, henv.absolute hy hname]
  | literal | now | cast => rfl
  | call f hargs ih =>
    rw [names, allNames_eq] at hfresh
    rw [mentions_call (lambda_notMem hargs), Expr.rename, renameAll_eq, mentions_call,
      List.flatMap_map]
    · refine List.flatMap_congr fun a ha => ih a ha (fun h => hfresh ?_) henv
      exact List.mem_flatMap.2 ⟨a, ha, h⟩
    · intro param body hmem
      obtain ⟨b, hb, heq⟩ := List.mem_map.1 hmem
      exact (hargs b hb).rename_ne_lambda x y param body heq
  | quantified f p param hscoped ih =>
    simp only [names, allNames, List.append_nil, List.mem_append, List.mem_cons, List.not_mem_nil,
      or_false, not_or] at hfresh
    obtain ⟨hname, hparam, hbody⟩ := hfresh
    simp only [Expr.rename, renameAll, mentions, henv.absolute hy (Ne.symm hname)]
    congr 1
    split
    · next hx =>
      subst hx
      exact hscoped.mentions_congr hbody (henv.rebind _)
    · next hx => exact ih hbody (henv.bind hx (Ne.symm hparam) _)
  | math op _ _ hleft hright | comparison op _ _ hleft hright | logical op _ _ hleft hright =>
    simp only [names, List.mem_append, not_or] at hfresh
    simp only [Expr.rename, mentions, hleft hfresh.1 henv, hright hfresh.2 henv]

end Expr

/-! ## One lambda with another variable -/

/-- **One expression is another in which one lambda has another variable**, which its body does
not use. -/
inductive Expr.Renames : Expr → Expr → Prop
  | here {x y : String} {body : Expr} (f : Builtin) (p : Property) :
      '/' ∉ y.toList → y ∉ body.names →
      Renames (.call f [.property p, .lambda x body])
        (.call f [.property p, .lambda y (body.rename x y)])
  | body {body body' : Expr} (f : Builtin) (p : Property) (param : String) :
      Renames body body' →
      Renames (.call f [.property p, .lambda param body])
        (.call f [.property p, .lambda param body'])
  | argument {e e' : Expr} (f : Builtin) (before after : List Expr) :
      Renames e e' → Renames (.call f (before ++ e :: after)) (.call f (before ++ e' :: after))
  | mathLeft {e e' : Expr} (op : MathOp) (right : Expr) :
      Renames e e' → Renames (.math op e right) (.math op e' right)
  | mathRight {e e' : Expr} (op : MathOp) (left : Expr) :
      Renames e e' → Renames (.math op left e) (.math op left e')
  | comparisonLeft {e e' : Expr} (op : ComparisonOp) (right : Expr) :
      Renames e e' → Renames (.comparison op e right) (.comparison op e' right)
  | comparisonRight {e e' : Expr} (op : ComparisonOp) (left : Expr) :
      Renames e e' → Renames (.comparison op left e) (.comparison op left e')
  | logicalLeft {e e' : Expr} (op : LogicalOp) (right : Expr) :
      Renames e e' → Renames (.logical op e right) (.logical op e' right)
  | logicalRight {e e' : Expr} (op : LogicalOp) (left : Expr) :
      Renames e e' → Renames (.logical op left e) (.logical op left e')

namespace Expr

/-- In a call with an argument in which a lambda is renamed, no argument is a lambda. -/
theorem Scoped.arguments {f : Builtin} {before after : List Expr} {e e' : Expr}
    (h : Scoped (.call f (before ++ e :: after))) (hrenames : e.Renames e') :
    ∀ a ∈ before ++ e :: after, a.Scoped := by
  rcases h.cases_call with hargs | ⟨p, param, body, heq, -⟩
  · exact hargs
  · have he : e ∈ [Expr.property p, .lambda param body] := heq ▸ by simp
    simp only [List.mem_cons, List.not_mem_nil, or_false] at he
    rcases he with rfl | rfl <;> cases hrenames

theorem Renames.ne_lambda {e e' : Expr} (h : e.Renames e') (param : String) (body : Expr) :
    e' ≠ .lambda param body := by
  cases h <;> nofun

/-- An expression mentions the same when one of its lambdas has another variable. -/
theorem Renames.mentions {e e' : Expr} (h : e.Renames e') (hscoped : e.Scoped)
    (env : Environment) : e'.mentions env = e.mentions env := by
  induction h generalizing env with
  | @here x y body f p hy hfresh =>
    rw [Expr.mentions, Expr.mentions,
      hscoped.body.mentions_rename hfresh hy (env.renamed_bind x y _)]
  | body f p param _ ih => rw [Expr.mentions, Expr.mentions, ih hscoped.body]
  | @argument e e' f before after hrenames ih =>
    have hargs := hscoped.arguments hrenames
    have hnew : ∀ param body, lambda param body ∉ before ++ e' :: after := by
      intro param body hmem
      have hold := lambda_notMem hargs param body
      simp only [List.mem_append, List.mem_cons, not_or] at hmem hold
      rcases hmem with hmem | heq | hmem
      · exact hold.1 hmem
      · exact hrenames.ne_lambda param body heq.symm
      · exact hold.2.2 hmem
    rw [mentions_call (lambda_notMem hargs), mentions_call hnew]
    simp only [List.flatMap_append, List.flatMap_cons, ih (hargs e (by simp))]
  | mathLeft _ _ _ ih | comparisonLeft _ _ _ ih | logicalLeft _ _ _ ih =>
    cases hscoped
    next hleft _ => simp only [Expr.mentions, ih hleft]
  | mathRight _ _ _ ih | comparisonRight _ _ _ ih | logicalRight _ _ _ ih =>
    cases hscoped
    next _ hright => simp only [Expr.mentions, ih hright]

end Expr

namespace StageArg

/-- **Lambdas are in their places** in all expressions of an argument. -/
inductive Scoped : StageArg → Prop
  | expr {e : Expr} : e.Scoped → Scoped (.expr e)
  | named {e : Expr} (name : String) : e.Scoped → Scoped (.named name (.expr e))
  | aggregate (name : String) (a : Aggregate) : Scoped (.named name (.aggregate a))
  | stage {args : List StageArg} (kind : StageKind) :
      (∀ a ∈ args, Scoped a) → Scoped (.stage kind args)

/-- **One argument is another in which one lambda has another variable.** -/
inductive Renames : StageArg → StageArg → Prop
  | expr {e e' : Expr} : e.Renames e' → Renames (.expr e) (.expr e')
  | named {e e' : Expr} (name : String) :
      e.Renames e' → Renames (.named name (.expr e)) (.named name (.expr e'))
  | stage {a a' : StageArg} (kind : StageKind) (before after : List StageArg) :
      Renames a a' →
      Renames (.stage kind (before ++ a :: after)) (.stage kind (before ++ a' :: after))

/-- The path of an expand stage has no lambda that could be renamed. -/
theorem Renames.ne_property {a a' : StageArg} (h : a.Renames a') (p : Property) :
    a ≠ .expr (.property p) ∧ a' ≠ .expr (.property p) := by
  constructor <;> (rintro rfl; cases h with | expr h => cases h)

theorem Renames.mentions {a a' : StageArg} (h : a.Renames a') (hscoped : a.Scoped)
    (env : Environment) : a'.mentions env = a.mentions env := by
  induction h generalizing env with
  | expr h =>
    cases hscoped with | expr hscoped => ?_
    exact h.mentions hscoped env
  | named name h =>
    cases hscoped with | named _ hscoped => ?_
    exact h.mentions hscoped env
  | @stage a a' kind before after h ih =>
    cases hscoped with | stage _ hargs => ?_
    have hall : ∀ (before : List StageArg) (env : Environment),
        allMentions (before ++ a' :: after) env = allMentions (before ++ a :: after) env := by
      intro before env
      simp only [allMentions_eq, List.flatMap_append, List.flatMap_cons, ih (hargs a (by simp))]
    -- The stage expands a path before as well as after, or neither.
    cases before with
    | nil =>
      rw [StageArg.mentions, StageArg.mentions, hall]
      · rintro p others - heq
        exact (h.ne_property p).1 (List.cons.inj heq).1
      · rintro p others - heq
        exact (h.ne_property p).2 (List.cons.inj heq).1
    | cons first before =>
      by_cases hexpand : ∃ p, kind = .expand ∧ first = .expr (.property p)
      · obtain ⟨p, rfl, rfl⟩ := hexpand
        simp only [List.cons_append, StageArg.mentions, hall before]
      · have hnot : ∀ (rest : List StageArg) (p : Property) (others : List StageArg),
            kind = .expand → first :: rest = .expr (.property p) :: others → False :=
          fun _ p _ hkind heq => hexpand ⟨p, hkind, (List.cons.inj heq).1⟩
        rw [StageArg.mentions, StageArg.mentions, hall]
        · exact hnot _
        · exact hnot _

end StageArg

namespace Query

/-- **Lambdas are in their places** in a query, and in the options of all paths it expands. -/
inductive Scoped : Query → Prop
  | mk {q : Query} :
      (∀ e, q.filter = some e → e.Scoped) →
      (∀ stages, q.apply = some stages → ∀ t ∈ stages, t.toArg.Scoped) →
      (∀ items, q.expand = some items → ∀ i ∈ items, Scoped i.options) → Scoped q

/-- **One query is another in which one lambda has another variable**: one in its filter, in
its stages, or in the options of a path that it expands. -/
inductive Renames : Query → Query → Prop
  | filter {q : Query} {e e' : Expr} :
      q.filter = some e → e.Renames e' → Renames q { q with filter := some e' }
  | stage {q : Query} {t t' : Transformation} {before after : List Transformation} :
      q.apply = some (before ++ t :: after) → t.toArg.Renames t'.toArg →
      Renames q { q with apply := some (before ++ t' :: after) }
  | expanded {q o o' : Query} {path : String} {before after : List ExpandItem} :
      q.expand = some (before ++ ⟨path, o⟩ :: after) → Renames o o' →
      Renames q { q with expand := some (before ++ ⟨path, o'⟩ :: after) }

theorem Renames.mentions {q q' : Query} (h : q.Renames q') (hscoped : q.Scoped)
    (env : Environment) : q'.mentions env = q.mentions env := by
  induction h generalizing env with
  | @filter q e e' hfilter hrenames =>
    obtain ⟨hscoped, -, -⟩ := hscoped
    simp only [Query.mentions_eq, hfilter, Option.toList_some, List.flatMap_cons,
      hrenames.mentions (hscoped e hfilter)]
  | @stage q t t' before after happly hrenames =>
    obtain ⟨-, hscoped, -⟩ := hscoped
    simp only [Query.mentions_eq, happly, Option.getD_some, List.flatMap_append,
      List.flatMap_cons, hrenames.mentions (hscoped _ happly t (by simp))]
  | @expanded q o o' path before after hexpand _ ih =>
    obtain ⟨-, -, hscoped⟩ := hscoped
    have ho : o.Scoped := hscoped _ hexpand ⟨path, o⟩ (by simp)
    rw [Query.mentions_eq, Query.mentions_eq q]
    simp only [hexpand, Option.getD_some, ExpandItem.allMentions_eq, List.flatMap_append,
      List.flatMap_cons, ExpandItem.mentions, ih ho]

end Query

/-! ## References -/

/-- **The references of a query do not depend on what a lambda calls its variable.** -/
theorem references_of_renames {q q' : Query} (hscoped : q.Scoped) (h : q.Renames q') :
    q'.references = q.references := by
  rw [Query.references_eq_eraseDups, Query.references_eq_eraseDups, h.mentions hscoped]

/-- A lambda around another one of the variable `x`, whose collection is given, and around its own
variable. -/
def aroundLambda (outer inner : String) : Query :=
  { filter := some (.call .any [.property ⟨"A", none⟩, .lambda outer (.logical .and
      (.call .all [.property ⟨inner, none⟩, .lambda "x" (.property ⟨"x/C", none⟩)])
      (.property ⟨outer, none⟩))]) }

/-- The outer variable is renamed in the collection of the inner lambda, which binds `x` again, and
where it stands by itself.  In the inner body it is the inner variable that is meant. -/
theorem references_aroundLambda :
    (aroundLambda "x" "x/B").Scoped ∧
      (aroundLambda "x" "x/B").Renames (aroundLambda "y" "y/B") ∧
      (aroundLambda "y" "y/B").references = (aroundLambda "x" "x/B").references ∧
      (aroundLambda "x" "x/B").references = ["A", "A/B", "A/B/C"] := by
  have hscoped : (aroundLambda "x" "x/B").Scoped := by
    refine .mk ?_ nofun nofun
    rintro e ⟨⟩
    exact .quantified _ _ _ (.logical _ (.quantified _ _ _ (.property _)) (.property _))
  have hrenames : (aroundLambda "x" "x/B").Renames (aroundLambda "y" "y/B") :=
    .filter rfl (.here _ _ (by decide) (by decide))
  exact ⟨hscoped, hrenames, references_of_renames hscoped hrenames, by decide +kernel⟩

end OData
