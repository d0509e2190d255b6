import OData.Expr

/-!
# Transformations

The stages of a pipeline.  A stage has a kind and arguments, and an argument is an
expression, a named value, or a stage again.
-/

namespace OData

/-- **A property summed up by a method of aggregation.** -/
structure Aggregate where
  /-- The method. -/
  method : AggregateMethod
  /-- The property. -/
  property : Property
  deriving DecidableEq, Repr

/-- **What a name can stand for.** -/
inductive NamedValue where
  /-- The value of an expression. -/
  | expr (expr : Expr)
  /-- An aggregate. -/
  | aggregate (aggregate : Aggregate)
  deriving Repr

/-- **An argument of a stage.** -/
inductive StageArg where
  /-- An expression. -/
  | expr (expr : Expr)
  /-- A value and the name given to it. -/
  | named (name : String) (value : NamedValue)
  /-- A stage inside the stage. -/
  | stage (kind : StageKind) (args : List StageArg)
  deriving Repr

/-- **A stage of a pipeline.** -/
structure Transformation where
  /-- What the stage does. -/
  kind : StageKind
  /-- Its arguments. -/
  args : List StageArg
  deriving Repr

/-- A stage as an argument of another. -/
def Transformation.toArg (t : Transformation) : StageArg := .stage t.kind t.args

end OData
