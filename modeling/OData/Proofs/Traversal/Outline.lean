import OData.Traversal.Visitor

/-!
# The outline of a query

What there is to visit in a query, said without visitors.  The outline of a query is the tree of
its parts: every node holds a part, and below it stand the outlines of what is in the part, in
the order in which they are visited.  So it is the outline alone that says what is visited, and in
which order; a visitor only says what to do at each part (`Visitor.visitQuery_eq`).

Two things are read off an outline.  The places of its parts are listed from the top, each part
before those in it, and each with all the parts around it (`Outline.places`).  The parts that are
reached are those around which there is no part whose inside is left out (`Outline.reached`).
Whoever does something at each part and then goes into it or not, does it at the parts that are
reached, one after the other (`Outline.visit_eq`).
-/
namespace OData

/-! ## Parts -/

/-- **A part of a query**: anything that a visitor is told of. -/
inductive Part where
  | query (query : Query)
  | pathSegment (segment : PathSegment)
  | selectItem (item : String)
  | expandItem (item : ExpandItem)
  | orderByItem (item : OrderByItem)
  | transformation (stage : Transformation)
  | named (name : String) (value : NamedValue)
  | aggregate (aggregate : Aggregate)
  | expr (expr : Expr)
  | call (function : Builtin) (args : List Expr)
  | lambda (param : String) (body : Expr)
  | property (property : Property)
  | literal (literal : Literal)

/-- What a visitor does at a part, given the visits of what is in it. -/
def Visitor.meet {m : Type → Type} (v : Visitor m) : Part → m Unit → m Unit
  | .query q => v.query q
  | .pathSegment s => v.pathSegment s
  | .selectItem i => v.selectItem i
  | .expandItem i => v.expandItem i
  | .orderByItem i => v.orderByItem i
  | .transformation t => v.transformation t
  | .named name value => v.named name value
  | .aggregate a => v.aggregate a
  | .expr e => v.expr e
  | .call function args => v.call function args
  | .lambda param body => v.lambda param body
  | .property p => v.property p
  | .literal l => v.literal l

/-! ## Outlines -/

/-- **A part and the outlines of what is in it.** -/
inductive Outline where
  | node (part : Part) (inside : List Outline)

/-- The outline of a literal. -/
def Literal.outline (l : Literal) : Outline := .node (.literal l) []

/-- The outline of a property. -/
def Property.outline (p : Property) : Outline := .node (.property p) []

mutual

/-- The outline of an expression.  What it is or holds is a part of its own, in it. -/
def Expr.outline : Expr → Outline
  | .property p => .node (.expr (.property p)) [p.outline]
  | .literal l => .node (.expr (.literal l)) [l.outline]
  | .now unit => .node (.expr (.now unit)) []
  | .cast value target => .node (.expr (.cast value target)) [value.outline]
  | .call function args =>
    .node (.expr (.call function args)) [.node (.call function args) (Expr.outlines args)]
  | .lambda param body =>
    .node (.expr (.lambda param body)) [.node (.lambda param body) [Expr.outline body]]
  | .math op left right =>
    .node (.expr (.math op left right)) [Expr.outline left, Expr.outline right]
  | .comparison op left right =>
    .node (.expr (.comparison op left right)) [Expr.outline left, Expr.outline right]
  | .logical op left right =>
    .node (.expr (.logical op left right)) [Expr.outline left, Expr.outline right]

/-- The outlines of expressions. -/
def Expr.outlines : List Expr → List Outline
  | [] => []
  | e :: es => Expr.outline e :: Expr.outlines es

end

/-- The outline of a value with a name. -/
def NamedValue.outline (name : String) : NamedValue → Outline
  | .expr e => .node (.named name (.expr e)) [e.outline]
  | .aggregate a => .node (.named name (.aggregate a)) [.node (.aggregate a) [a.property.outline]]

mutual

/-- The outline of an argument of a stage. -/
def StageArg.outline : StageArg → Outline
  | .expr e => e.outline
  | .named name value => value.outline name
  | .stage kind args => .node (.transformation ⟨kind, args⟩) (StageArg.outlines args)

/-- The outlines of arguments. -/
def StageArg.outlines : List StageArg → List Outline
  | [] => []
  | a :: as => StageArg.outline a :: StageArg.outlines as

end

/-- The outline of a path segment, in which are the values of its predicates. -/
def PathSegment.outline (s : PathSegment) : Outline :=
  .node (.pathSegment s) ((s.predicates.getD []).map fun p => p.value.outline)

mutual

/-- The outline of a query. -/
def Query.outline : Query → Outline
  | ⟨path, select, expand, filter, orderBy, callback, format, search, count, skip, top, apply⟩ =>
    .node (.query
      ⟨path, select, expand, filter, orderBy, callback, format, search, count, skip, top, apply⟩)
      ((path.getD []).map PathSegment.outline ++
        ((select.getD []).map (fun i => .node (.selectItem i) []) ++
          ((match expand with
            | some items => ExpandItem.outlines items
            | none => []) ++
            (filter.toList.map Expr.outline ++
              ((orderBy.getD []).map (fun i => .node (.orderByItem i) []) ++
                (apply.getD []).map fun t => t.toArg.outline)))))

/-- The outline of an expanded path, in which is the query of its options. -/
def ExpandItem.outline : ExpandItem → Outline
  | ⟨path, options⟩ => .node (.expandItem ⟨path, options⟩) [Query.outline options]

/-- The outlines of expanded paths. -/
def ExpandItem.outlines : List ExpandItem → List Outline
  | [] => []
  | i :: is => ExpandItem.outline i :: ExpandItem.outlines is

end

/-! ## One thing after the other -/

section VisitEach
variable {m : Type → Type} [Monad m] [LawfulMonad m] {α β : Type} {f : α → m Unit}

theorem Visitor.visitEach_append (l l' : List α) :
    visitEach f (l ++ l') = (do visitEach f l; visitEach f l') := by
  induction l with
  | nil => simp [visitEach]
  | cons a l ih => simp [visitEach, ih]

omit [LawfulMonad m] in
theorem Visitor.visitEach_map (g : β → α) (l : List β) :
    visitEach f (l.map g) = visitEach (fun b => f (g b)) l := by
  induction l with
  | nil => rfl
  | cons b l ih => rw [List.map_cons, visitEach, ih, visitEach]

/-- To do something at those that are picked is to do it at all, and nothing at the others. -/
theorem Visitor.visitEach_filterMap (pick : β → Option α) (l : List β) :
    visitEach f (l.filterMap pick) = visitEach (fun b => (pick b).elim (pure ()) f) l := by
  induction l with
  | nil => rfl
  | cons b l ih =>
    cases hb : pick b with
    | none => simp [visitEach, hb, ih]
    | some a => simp [visitEach, hb, ih]

end VisitEach

/-! ## Visiting an outline -/

namespace Outline
variable {m : Type → Type} [Monad m]

mutual

/-- Does at each part of an outline what is to be done at it, given the visits of what is in
it. -/
def visit (act : Part → m Unit → m Unit) : Outline → m Unit
  | .node part inside => act part (visitAll act inside)

/-- Visits outlines one after the other. -/
def visitAll (act : Part → m Unit → m Unit) : List Outline → m Unit
  | [] => pure ()
  | o :: os => do
    visit act o
    visitAll act os

end

variable {act : Part → m Unit → m Unit}

@[simp] theorem visit_node (part : Part) (inside : List Outline) :
    visit act (.node part inside) = act part (visitAll act inside) := rfl

@[simp] theorem visitAll_nil : visitAll act [] = pure () := rfl

@[simp] theorem visitAll_cons (o : Outline) (os : List Outline) :
    visitAll act (o :: os) = (do visit act o; visitAll act os) := rfl

theorem visitAll_eq (os : List Outline) :
    visitAll act os = Visitor.visitEach (visit act) os := by
  induction os with
  | nil => rfl
  | cons o os ih => rw [visitAll_cons, ih, Visitor.visitEach]

theorem visitAll_map {α : Type} (g : α → Outline) (l : List α) :
    visitAll act (l.map g) = Visitor.visitEach (fun a => visit act (g a)) l := by
  rw [visitAll_eq, Visitor.visitEach_map]

theorem visitAll_append [LawfulMonad m] (os os' : List Outline) :
    visitAll act (os ++ os') = (do visitAll act os; visitAll act os') := by
  rw [visitAll_eq, Visitor.visitEach_append, visitAll_eq, visitAll_eq]

end Outline

/-! ## What is reached -/

/-- A part, and the parts that it is in, the innermost first. -/
structure Place where
  /-- The parts around it. -/
  around : List Part
  /-- The part. -/
  part : Part

namespace Outline

mutual

/-- **The places of an outline**, which is itself in some parts, each before those in it. -/
def places (around : List Part) : Outline → List Place
  | .node part inside => ⟨around, part⟩ :: allPlaces (part :: around) inside

/-- The places of outlines, one after the other. -/
def allPlaces (around : List Part) : List Outline → List Place
  | [] => []
  | o :: os => places around o ++ allPlaces around os

end

/-- **The parts of an outline that are reached** if only the inside of some parts is gone into:
those that are in no other part. -/
def reached (enters : Part → Bool) (o : Outline) : List Part :=
  ((o.places []).filter fun p => p.around.all enters).map Place.part

/-- **The parts of an outline**, from the top. -/
def parts (o : Outline) : List Part := (o.places []).map Place.part

theorem allPlaces_eq (around : List Part) (os : List Outline) :
    allPlaces around os = os.flatMap (places around) := by
  induction os with
  | nil => rfl
  | cons o os ih => rw [allPlaces, ih, List.flatMap_cons]

/-- In other parts the places are the same, with those parts around them. -/
theorem places_and_all_eq_map :
    (∀ (o : Outline) (around : List Part),
      o.places around = (o.places []).map fun p => ⟨p.around ++ around, p.part⟩) ∧
    ∀ (os : List Outline) (around : List Part),
      allPlaces around os = (allPlaces [] os).map fun p => ⟨p.around ++ around, p.part⟩ := by
  refine visit.mutual_induct _ _ ?node ?nil ?cons
  case node =>
    intro part inside ih around
    rw [places, places, ih (part :: around), ih [part]]
    simp
  case nil => exact fun _ => rfl
  case cons =>
    intro o os ho hos around
    rw [allPlaces, ho, hos, ← List.map_append]
    rfl

variable (enters : Part → Bool)

/-- A part is reached first, and then, if it is gone into, what is in it. -/
theorem reached_node (part : Part) (inside : List Outline) :
    (node part inside).reached enters =
      part :: if enters part then inside.flatMap (reached enters) else [] := by
  rw [reached, places, List.filter_cons_of_pos rfl, List.map_cons, places_and_all_eq_map.2,
    allPlaces_eq, List.filter_map, List.map_map]
  cases henters : enters part with
  | true =>
    simp [henters, List.filter_flatMap, List.map_flatMap, Function.comp_def]
    rfl
  | false => simp [henters, Function.comp_def]

/-- If everything is gone into then all parts are reached. -/
theorem reached_all (o : Outline) : o.reached (fun _ => true) = o.parts := by
  have hall : ∀ p ∈ o.places [], (p.around.all fun _ => true) = true := by simp
  rw [reached, List.filter_eq_self.2 hall, parts]

variable {m : Type → Type} [Monad m] [LawfulMonad m] (f : Part → m Unit)

theorem visit_and_all_eq :
    (∀ o : Outline,
      o.visit (fun part inside => do f part; if enters part then inside else pure ()) =
        Visitor.visitEach f (o.reached enters)) ∧
    ∀ os : List Outline,
      visitAll (fun part inside => do f part; if enters part then inside else pure ()) os =
        Visitor.visitEach f (os.flatMap (reached enters)) := by
  refine visit.mutual_induct _ _ ?node ?nil ?cons
  case node =>
    intro part inside ih
    rw [visit_node, reached_node, Visitor.visitEach, ih]
    cases enters part <;> rfl
  case nil => rfl
  case cons =>
    intro o os ho hos
    rw [visitAll_cons, ho, hos, List.flatMap_cons, Visitor.visitEach_append]

/-- **To do something at each part and then to go into it or not is to do it at the parts that are
reached**, one after the other. -/
theorem visit_eq (o : Outline) :
    o.visit (fun part inside => do f part; if enters part then inside else pure ()) =
      Visitor.visitEach f (o.reached enters) :=
  (visit_and_all_eq enters f).1 o

/-- To do something at some parts, and only to go into the others, is to do it at those parts
that are reached, one after the other. -/
theorem visit_pick {α : Type} (pick : Part → Option α) (f : α → m Unit) (o : Outline) :
    o.visit (fun part inside => (pick part).elim inside f) =
      Visitor.visitEach f ((o.reached fun part => (pick part).isNone).filterMap pick) := by
  rw [Visitor.visitEach_filterMap, ← visit_eq]
  congr
  funext part inside
  cases pick part with
  | none => simp
  | some a => simp

end Outline

/-! ## Visitors -/

namespace Visitor
variable {m : Type → Type} [Monad m] (v : Visitor m)

theorem visitLiteral_eq (l : Literal) : v.visitLiteral l = l.outline.visit v.meet := rfl

theorem visitProperty_eq (p : Property) : v.visitProperty p = p.outline.visit v.meet := rfl

theorem visitPathSegment_eq (s : PathSegment) :
    v.visitPathSegment s = s.outline.visit v.meet := by
  rw [PathSegment.outline, Outline.visit_node, Outline.visitAll_eq, visitEach_map]
  rfl

variable [LawfulMonad m]

/-- An expression is visited along its outline. -/
theorem visitExpr_and_exprs : (∀ e, v.visitExpr e = (Expr.outline e).visit v.meet) ∧
    ∀ es, v.visitExprs es = Outline.visitAll v.meet (Expr.outlines es) := by
  refine Expr.outline.mutual_induct _ _ ?property ?literal ?now ?cast ?call ?lambda ?math
    ?comparison ?logical ?nil ?cons
  case property => exact fun p => by simp [visitExpr, Expr.outline, meet, visitProperty_eq]
  case literal => exact fun l => by simp [visitExpr, Expr.outline, meet, visitLiteral_eq]
  case now => exact fun _ => rfl
  case cast => exact fun value _ => by simp [visitExpr, Expr.outline, meet, visitLiteral_eq]
  case call | lambda => exact fun _ _ ih => by simp [visitExpr, Expr.outline, meet, ih]
  case math | comparison | logical =>
    exact fun _ _ _ hleft hright => by simp [visitExpr, Expr.outline, meet, hleft, hright]
  case nil => rfl
  case cons => exact fun _ _ he hes => by rw [visitExprs, he, hes]; rfl

theorem visitExpr_eq (e : Expr) : v.visitExpr e = e.outline.visit v.meet :=
  v.visitExpr_and_exprs.1 e

theorem visitNamed_eq (name : String) (value : NamedValue) :
    v.visitNamed name value = (value.outline name).visit v.meet := by
  cases value with
  | expr e => simp [visitNamed, NamedValue.outline, meet, visitExpr_eq]
  | aggregate a => simp [visitNamed, NamedValue.outline, meet, visitProperty_eq]

theorem visitArg_and_args : (∀ a, v.visitArg a = (StageArg.outline a).visit v.meet) ∧
    ∀ as, v.visitArgs as = Outline.visitAll v.meet (StageArg.outlines as) := by
  refine StageArg.outline.mutual_induct _ _ ?expr ?named ?stage ?nil ?cons
  case expr => exact fun e => v.visitExpr_eq e
  case named => exact fun name value => v.visitNamed_eq name value
  case stage => exact fun _ _ ih => by simp [visitArg, StageArg.outline, meet, ih]
  case nil => rfl
  case cons => exact fun _ _ ha has => by rw [visitArgs, ha, has]; rfl

theorem visitTransformation_eq (t : Transformation) :
    v.visitTransformation t = t.toArg.outline.visit v.meet := by
  rw [visitTransformation, v.visitArg_and_args.2]
  rfl

theorem visitQuery_and_items : (∀ q, v.visitQuery q = (Query.outline q).visit v.meet) ∧
    (∀ is, v.visitExpandItems is = Outline.visitAll v.meet (ExpandItem.outlines is)) ∧
    ∀ i, v.visitExpandItem i = (ExpandItem.outline i).visit v.meet := by
  refine Query.outline.mutual_induct _ _ _ ?query ?item ?nil ?cons
  case query =>
    intro path select expand filter orderBy _ _ _ _ _ _ apply ih
    have hpath : v.visitPathSegment = fun s => s.outline.visit v.meet :=
      funext v.visitPathSegment_eq
    have hexpr : v.visitExpr = fun e => e.outline.visit v.meet := funext v.visitExpr_eq
    have hstage : v.visitTransformation = fun t => t.toArg.outline.visit v.meet :=
      funext v.visitTransformation_eq
    cases expand with
    | none =>
      simp [visitQuery, Query.outline, meet, Outline.visitAll_append, Outline.visitAll_map, hpath,
        hexpr, hstage]
    | some items =>
      simp [visitQuery, Query.outline, meet, Outline.visitAll_append, Outline.visitAll_map, hpath,
        hexpr, hstage, ih]
  case item => exact fun path options ih => by simp [visitExpandItem, ExpandItem.outline, meet, ih]
  case nil => rfl
  case cons => exact fun _ _ hi his => by rw [visitExpandItems, hi, his]; rfl

/-- **A query is visited along its outline**, by every visitor. -/
theorem visitQuery_eq (q : Query) : v.visitQuery q = q.outline.visit v.meet :=
  v.visitQuery_and_items.1 q

variable {v} in
/-- A visitor that only does something at some parts does it at those that are reached. -/
theorem visitQuery_pick {α : Type} {pick : Part → Option α} {f : α → m Unit}
    (h : ∀ part inside, v.meet part inside = (pick part).elim inside f) (q : Query) :
    v.visitQuery q =
      visitEach f ((q.outline.reached fun part => (pick part).isNone).filterMap pick) := by
  have hmeet : v.meet = fun part inside => (pick part).elim inside f :=
    funext fun part => funext (h part)
  rw [visitQuery_eq, hmeet, Outline.visit_pick]

end Visitor

end OData
