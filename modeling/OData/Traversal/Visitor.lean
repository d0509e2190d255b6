import OData.Query

/-!
# Visiting a query

A visitor says what to do at each node of a query.  What it says for a node gets the
visits of the parts of that node, all in one, as `descend`: it may do something
before or after, or leave the parts out.  Visits happen in a monad, which is what
lets a visitor keep a state or break off.

The parts of a node are visited in the order in which they stand in it, and those of
a query in a fixed order: path, selection, expanded paths, filter, order, pipeline.
-/

namespace OData

/-- **What to do at each node.**  A visitor that is told nothing about a kind of node visits
its parts. -/
structure Visitor (m : Type → Type) where
  /-- At a query, whose parts are those listed above. -/
  query : Query → m Unit → m Unit := fun _ descend => descend
  /-- At a segment of the resource path, whose parts are the values of its predicates. -/
  pathSegment : PathSegment → m Unit → m Unit := fun _ descend => descend
  /-- At a selected item, which has no parts. -/
  selectItem : String → m Unit → m Unit := fun _ descend => descend
  /-- At an expanded path, whose part is the query of its options. -/
  expandItem : ExpandItem → m Unit → m Unit := fun _ descend => descend
  /-- At a path to sort by, which has no parts. -/
  orderByItem : OrderByItem → m Unit → m Unit := fun _ descend => descend
  /-- At a stage, whose parts are its arguments. -/
  transformation : Transformation → m Unit → m Unit := fun _ descend => descend
  /-- At a named value, whose part is the value. -/
  named : String → NamedValue → m Unit → m Unit := fun _ _ descend => descend
  /-- At an aggregate, whose part is its property. -/
  aggregate : Aggregate → m Unit → m Unit := fun _ descend => descend
  /-- At any expression.  The part of a property, a literal, a cast, a call or a lambda is
  what it is or holds; those of an operator are its operands. -/
  expr : Expr → m Unit → m Unit := fun _ descend => descend
  /-- At a call, whose parts are its arguments. -/
  call : Builtin → List Expr → m Unit → m Unit := fun _ _ descend => descend
  /-- At a lambda, whose part is its body. -/
  lambda : String → Expr → m Unit → m Unit := fun _ _ descend => descend
  /-- At a property, which has no parts. -/
  property : Property → m Unit → m Unit := fun _ descend => descend
  /-- At a literal, which has no parts. -/
  literal : Literal → m Unit → m Unit := fun _ descend => descend

namespace Visitor
variable {m : Type → Type} [Monad m] (v : Visitor m)

/-- Visits one thing after the other. -/
def visitEach {α : Type} (visit : α → m Unit) : List α → m Unit
  | [] => pure ()
  | a :: r => do
    visit a
    visitEach visit r

/-- Visits a literal. -/
def visitLiteral (l : Literal) : m Unit := v.literal l (pure ())

/-- Visits a property. -/
def visitProperty (p : Property) : m Unit := v.property p (pure ())

mutual

/-- Visits an expression. -/
def visitExpr : Expr → m Unit
  | .property p => v.expr (.property p) (v.visitProperty p)
  | .literal l => v.expr (.literal l) (v.visitLiteral l)
  | .now unit => v.expr (.now unit) (pure ())
  | .cast value target => v.expr (.cast value target) (v.visitLiteral value)
  | .call function args =>
    v.expr (.call function args) (v.call function args (visitExprs args))
  | .lambda param body => v.expr (.lambda param body) (v.lambda param body (visitExpr body))
  | .math op left right => v.expr (.math op left right) do
    visitExpr left
    visitExpr right
  | .comparison op left right => v.expr (.comparison op left right) do
    visitExpr left
    visitExpr right
  | .logical op left right => v.expr (.logical op left right) do
    visitExpr left
    visitExpr right

/-- Visits expressions. -/
def visitExprs : List Expr → m Unit
  | [] => pure ()
  | e :: r => do
    visitExpr e
    visitExprs r

end

/-- Visits a named value. -/
def visitNamed (name : String) (value : NamedValue) : m Unit :=
  v.named name value <|
    match value with
    | .expr e => v.visitExpr e
    | .aggregate a => v.aggregate a (v.visitProperty a.property)

mutual

/-- Visits an argument of a stage. -/
def visitArg : StageArg → m Unit
  | .expr e => v.visitExpr e
  | .named name value => v.visitNamed name value
  | .stage kind args => v.transformation ⟨kind, args⟩ (visitArgs args)

/-- Visits arguments. -/
def visitArgs : List StageArg → m Unit
  | [] => pure ()
  | a :: r => do
    visitArg a
    visitArgs r

end

/-- Visits a stage. -/
def visitTransformation (t : Transformation) : m Unit :=
  v.transformation t (v.visitArgs t.args)

/-- Visits a segment of a resource path. -/
def visitPathSegment (s : PathSegment) : m Unit :=
  v.pathSegment s (visitEach (fun p => v.visitLiteral p.value) (s.predicates.getD []))

mutual

/-- Visits a query. -/
def visitQuery : Query → m Unit
  | ⟨path, select, expand, filter, orderBy, callback, format, search, count, skip, top, apply⟩ =>
    v.query
      ⟨path, select, expand, filter, orderBy, callback, format, search, count, skip, top, apply⟩
      do
        visitEach v.visitPathSegment (path.getD [])
        visitEach (fun i => v.selectItem i (pure ())) (select.getD [])
        match expand with
        | some items => visitExpandItems items
        | none => pure ()
        visitEach v.visitExpr filter.toList
        visitEach (fun i => v.orderByItem i (pure ())) (orderBy.getD [])
        visitEach v.visitTransformation (apply.getD [])

/-- Visits an expanded path. -/
def visitExpandItem : ExpandItem → m Unit
  | ⟨path, options⟩ => v.expandItem ⟨path, options⟩ (visitQuery options)

/-- Visits expanded paths. -/
def visitExpandItems : List ExpandItem → m Unit
  | [] => pure ()
  | i :: r => do
    visitExpandItem i
    visitExpandItems r

end

end Visitor

end OData
