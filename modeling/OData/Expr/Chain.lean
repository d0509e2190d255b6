import OData.Expr

/-!
# Chains of operators

Operands joined by operators of one level are read from left to right and make a
tree that nests to the right, so `a sub b add c` is `a sub (b add c)`.  The tree is
built from its end: what has been built so far waits for the operator to its left,
which is known one step before its left operand is.
-/

namespace OData.Expr
variable {ω : Type}

/-- Builds a chain from its end.  `op` is the operator to the left of what has been
built; the links are those still to the left of it, the nearest first, and `first`
is the operand at the very left. -/
def joinLeft (build : ω → Expr → Expr → Expr) (first : Expr) :
    ω → Expr → List (ω × Expr) → Expr
  | op, built, [] => build op first built
  | op, built, (op', e) :: r => joinLeft build first op' (build op e built) r

/-- The tree of a chain: its first operand, and its links of an operator and the
operand after it. -/
def chain (build : ω → Expr → Expr → Expr) (first : Expr) (links : List (ω × Expr)) : Expr :=
  match links.reverse with
  | [] => first
  | (op, e) :: r => joinLeft build first op e r

end OData.Expr
