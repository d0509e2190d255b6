import OData.Literal
import OData.Vocabulary

/-!
# Expressions

The trees that filters, stages and lambda bodies are made of.  A tree says nothing
about how it was written: parentheses are gone, and a chain of operators of one
level nests to the right.
-/

namespace OData

/-- **A property**, named by a path whose segments are joined by slashes. -/
structure Property where
  /-- The path. -/
  name : String
  /-- The unit of time that is asked of it. -/
  unit : Option TimeUnit
  deriving DecidableEq, Repr

namespace Property

/-- The property at a path, with no unit. -/
def ofName (name : String) : Property := ⟨name, none⟩

/-- The parts of a text between its slashes: the first, and those after it. -/
def splitSlash : List Char → List Char × List (List Char)
  | [] => ([], [])
  | c :: r =>
    let (first, others) := splitSlash r
    if c = '/' then ([], first :: others) else (c :: first, others)

/-- **The segments of a property's path.** -/
def segments (p : Property) : List String :=
  let (first, others) := splitSlash p.name.toList
  (first :: others).map String.ofList

end Property

/-- **Expressions.** -/
inductive Expr where
  /-- The value of a property. -/
  | property (property : Property)
  /-- A constant. -/
  | literal (literal : Literal)
  /-- The current instant, or a unit of it. -/
  | now (unit : Option TimeUnit)
  /-- A constant turned into another type. -/
  | cast (value : Literal) (target : EdmType)
  /-- A call; that of a collection function has the collection as its first argument. -/
  | call (function : Builtin) (args : List Expr)
  /-- A condition on the elements of a collection, which its body calls `param`. -/
  | lambda (param : String) (body : Expr)
  /-- Arithmetic. -/
  | math (op : MathOp) (left right : Expr)
  /-- A comparison. -/
  | comparison (op : ComparisonOp) (left right : Expr)
  /-- A connective. -/
  | logical (op : LogicalOp) (left right : Expr)
  deriving Repr, Inhabited

namespace Expr

/-- **An expression that is true or false by its form**: a comparison, a connective of two
such, a call of a boolean function, or a truth value. -/
def isBoolean : Expr → Bool
  | .logical _ left right => left.isBoolean && right.isBoolean
  | .comparison _ _ _ => true
  | .call function _ => function.isBoolean
  | .literal (.boolean _) => true
  | _ => false

/-- The property that an expression is, if it is nothing more. -/
def property? : Expr → Option Property
  | .property p => some p
  | _ => none

end Expr

end OData
