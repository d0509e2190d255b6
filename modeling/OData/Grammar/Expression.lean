import OData.Expr.Chain
import OData.Grammar.Literal

/-!
# Reading expressions

From the loosest to the tightest, an expression is made of `or`, `and`, one
comparison, sums, products and atoms.  Operators of one level make a chain that
nests to the right; comparisons make no chains.

The levels call each other downwards only.  Brackets alone lead back up, and to two
levels only: a parenthesis or a lambda holds a whole expression, a call or a cast
holds sums.  So everything below a bracket is read by `inner`, which each function
here is given, and `levelFrom` ties the knot: every bracket moves past a token, so
fewer brackets nest than there are tokens.
-/

namespace OData.Grammar

/-- **The levels that a bracket leads back to.** -/
inductive Level where
  /-- A whole expression. -/
  | whole
  /-- A sum. -/
  | sum
  deriving DecidableEq, Repr

variable (ctx : Context) (inner : Level → Parse Expr)

/-! ## Conditions -/

/-- Refuses an expression that is no condition.  It began at `start` and ends before the
cursor. -/
def requireBoolean (e : Expr) (start : Span) : Parse Unit := do
  if e.isBoolean then pure ()
  else refuse .notBoolean (start.join (← previousSpan))

/-- Reads a condition: whatever `p` reads, if it is one. -/
def condition (p : Parse Expr) : Parse Expr := do
  let start ← here
  let e ← p
  requireBoolean e start
  pure e

/-! ## Chains -/

/-- Reads the links of a chain for as long as there is an operator, for at most as many
rounds as given. -/
def links {ω : Type} (operator? : String → Option ω) (operand : Parse Expr) :
    Nat → Parse (List (ω × Expr))
  | 0 => throw .exhausted
  | n + 1 => do
    match (← currentWord?).bind operator? with
    | none => pure []
    | some op =>
      charge ctx
      advance
      let e ← operand
      let others ← links operator? operand n
      pure ((op, e) :: others)

/-- Reads the links after the first operand of a chain and builds the tree of it. -/
def chainFrom {ω : Type} (operator? : String → Option ω) (build : ω → Expr → Expr → Expr)
    (first : Expr) (operand : Parse Expr) : Parse Expr := do
  let others ← links ctx operator? operand (← rounds)
  release others.length
  pure (Expr.chain build first others)

/-- Reads a chain of arithmetic. -/
def mathChain (operator? : String → Option MathOp) (operand : Parse Expr) : Parse Expr := do
  let first ← operand
  chainFrom ctx operator? Expr.math first operand

/-- The connective, if it is the one that a word stands for. -/
def theConnective (op : LogicalOp) (w : String) : Option LogicalOp :=
  if w = op.word then some op else none

/-- Reads a chain of one connective.  All of its operands have to be conditions, but an
operand with no connective after it may be anything. -/
def logicalChain (op : LogicalOp) (operand : Parse Expr) : Parse Expr := do
  let start ← here
  let first ← operand
  if ← isAtWord op.word then
    requireBoolean first start
    chainFrom ctx (theConnective op) Expr.logical first (condition operand)
  else pure first

/-! ## Atoms -/

/-- Reads the present instant. -/
def nowCall : Parse Expr := do
  advance
  let _ ← expect .leftParen
  let _ ← expect .rightParen
  let unit ← unitAccessor
  pure (.now unit)

/-- Reads a cast. -/
def castCall : Parse Expr := do
  advance
  nested ctx do
    let _ ← expect .leftParen
    let start ← here
    let value ← inner .sum
    let place := start.join (← previousSpan)
    let _ ← expect .comma
    let target ← typeName
    let _ ← expect .rightParen
    match value with
    | .literal l => pure (.cast l target)
    | _ => refuse (.castOfNonLiteral ctx.option) place

/-- Reads the arguments of a call, up to its closing parenthesis. -/
def arguments : Parse (List Expr) := do
  if ← isAt .rightParen then pure []
  else separated .comma (inner .sum)

/-- Reads a call of a function. -/
def functionCall (function : Builtin) : Parse Expr := do
  let start ← here
  advance
  nested ctx do
    let _ ← expect .leftParen
    let args ← arguments inner
    let _ ← expect .rightParen
    if function.arity.allows args.length then pure (.call function args)
    else refuse (.wrongArity function args.length) (start.join (← previousSpan))

/-- Reads a lambda: its variable, a colon and its body. -/
def lambda : Parse Expr := do
  let param ← expectWord "lambda variable"
  if isOperatorWord param.value then
    refuse (.operatorAsVariable param.value) (← previousSpan)
  else
    let _ ← expect .colon
    let body ← condition (inner .whole)
    pure (.lambda param.value body)

/-- Reads the call of a collection function on a collection. -/
def collectionCall (collection : Property) (function : Builtin) : Parse Expr := do
  let start ← here
  advance
  nested ctx do
    let _ ← expect .leftParen
    if ← isAt .rightParen then
      if function = .all then refuse (.missingLambda function) (start.join (← here))
      else
        let _ ← expect .rightParen
        pure (.call function [.property collection])
    else
      let body ← lambda inner
      let _ ← expect .rightParen
      pure (.call function [.property collection, body])

/-- The collection function that is called after the slash at the cursor. -/
def collectionFunctionAhead (c : Cursor) : Option Builtin :=
  if (c.ahead 2).kind = .leftParen then
    (((c.ahead 1).kind.word?.bind Keyword.find?).filter Builtin.isCollection)
  else none

/-- Reads the further segments of a property's path, and the slash in front of the
collection function that ends it, if one does. -/
def pathTail : Nat → Parse (List String × Option Builtin)
  | 0 => throw .exhausted
  | n + 1 => do
    if ← isAt .slash then
      let function? := collectionFunctionAhead (← cursor)
      advance
      match function? with
      | some function => pure ([], some function)
      | none =>
        let segment ← pathSegment
        let (others, function?) ← pathTail n
        pure (segment :: others, function?)
    else pure ([], none)

/-- Reads a property, with the unit that is asked of it, or the collection function that
is called on it. -/
def propertyPath : Parse Expr := do
  let first ← pathSegment
  let (others, function?) ← pathTail (← rounds)
  let name := "/".intercalate (first :: others)
  match function? with
  | some function => collectionCall ctx inner (Property.ofName name) function
  | none =>
    let unit ← unitAccessor
    pure (.property ⟨name, unit⟩)

/-- Reads an atom that begins with a word in front of a parenthesis. -/
def callOf (w : String) : Parse Expr :=
  match w with
  | "now" => nowCall
  | "cast" => castCall ctx inner
  | _ =>
    match (Keyword.find? w : Option Builtin) with
    | none => refuseHere (.unknownFunction w)
    | some function =>
      if function.isCollection then refuseHere (.missingCollection function)
      else functionCall ctx inner function

/-- Reads an atom that begins with a word. -/
def wordAtom (w : String) : Parse Expr := do
  if isLiteralWord w then
    let l ← literal ctx
    pure (.literal l)
  else if ((← cursor).ahead 1).kind = .leftParen then callOf ctx inner w
  else if isOperatorWord w then refuseHere (.operatorAsOperand w)
  else propertyPath ctx inner

/-- Reads an expression in parentheses. -/
def group : Parse Expr :=
  nested ctx do
    advance
    let e ← inner .whole
    let _ ← expect .rightParen
    pure e

/-- **Reads an atom.** -/
def atom : Parse Expr := do
  let token ← current
  match token.kind with
  | .leftParen => group ctx inner
  | .word w => wordAtom ctx inner w
  | kind =>
    if kind.isLiteral then
      let l ← literal ctx
      pure (.literal l)
    else refuseFor "expression"

/-! ## Levels -/

/-- Reads a product. -/
def product : Parse Expr := mathChain ctx MathOp.multiplicative? (atom ctx inner)

/-- Reads a sum. -/
def sum : Parse Expr := mathChain ctx MathOp.additive? (product ctx inner)

/-- The comparison at the cursor. -/
def comparisonAhead : Parse (Option ComparisonOp) := do
  pure ((← currentWord?).bind Keyword.find?)

/-- Reads a sum, or the comparison of two. -/
def comparison : Parse Expr := do
  let left ← sum ctx inner
  match ← comparisonAhead with
  | none => pure left
  | some op =>
    advance
    let right ← sum ctx inner
    match ← comparisonAhead with
    | some _ => refuseHere .chainedComparison
    | none => pure (.comparison op left right)

/-- Reads a chain of `and`. -/
def conjunction : Parse Expr := logicalChain ctx .and (comparison ctx inner)

/-- Reads a chain of `or`. -/
def disjunction : Parse Expr := logicalChain ctx .or (conjunction ctx inner)

/-- Reads a level, with brackets nested at most as deep as given. -/
def levelFrom : Nat → Level → Parse Expr
  | 0, _ => throw .exhausted
  | n + 1, .whole => disjunction ctx (levelFrom n)
  | n + 1, .sum => sum ctx (levelFrom n)

/-- Reads a level. -/
def level (l : Level) : Parse Expr := do levelFrom ctx (← rounds) l

/-- **Reads an expression.** -/
def expression : Parse Expr := level ctx .whole

/-- Reads an expression without comparisons and connectives outside of brackets. -/
def arithmetic : Parse Expr := level ctx .sum

/-- **Reads an expression that is true or false.** -/
def boolean : Parse Expr := condition (expression ctx)

/-- **Reads a filter**: all the tokens, as an expression that is true or false. -/
def filter : Parse Expr := complete (boolean ctx)

end OData.Grammar
