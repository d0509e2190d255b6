import OData.Diagnostic
import OData.Token
import OData.Vocabulary

/-!
# Failures

Why a text is refused.  A `Cause` says what is wrong, in terms of the query
language; a `Failure` adds where.  Everything that a caller sees of it follows from
the cause: its code, and with it the class of the refusal (`Code.isRule`), the
message, the hint and what the labels say.
-/

namespace OData

/-- **What is wrong with a text.** -/
inductive Cause where
  /-- A string has no closing quote. -/
  | unclosedString
  /-- Characters make no token. -/
  | strayText (text : String)
  /-- Another token is needed than the one found. -/
  | expected (what : String) (found : Kind)
  /-- An operator stands where an operand should. -/
  | operatorAsOperand (word : String)
  /-- A comparison is compared. -/
  | chainedComparison
  /-- There is no such function. -/
  | unknownFunction (name : String)
  /-- A collection function has no collection in front of it. -/
  | missingCollection (function : Builtin)
  /-- A function is called with too few or too many arguments. -/
  | wrongArity (function : Builtin) (found : Nat)
  /-- The collection function that needs a condition has none. -/
  | missingLambda (function : Builtin)
  /-- A lambda names its variable like an operator. -/
  | operatorAsVariable (word : String)
  /-- An integer does not fit. -/
  | integerOutOfRange (text : String)
  /-- There is no such parameter. -/
  | unknownParameter (name : String) (known : List String)
  /-- There is no such unit. -/
  | unknownUnit (word : String)
  /-- There is no such type. -/
  | unknownType (name : String)
  /-- Something else than a literal is cast. -/
  | castOfNonLiteral (option : Option QueryOption)
  /-- A condition is needed and something else is found. -/
  | notBoolean
  /-- There is no such stage. -/
  | unknownStage (name : String)
  /-- There is no such aggregation method. -/
  | unknownMethod (word : String)
  /-- Something else than a property is aggregated. -/
  | aggregateOfNonProperty
  /-- Parentheses and the like nest beyond the limit. -/
  | tooDeep (limit : Nat)
  /-- Operators nest beyond the limit. -/
  | tooManyOperators (limit : Nat)
  /-- An option has no equals sign. -/
  | missingValue (item : String)
  /-- There is no such option. -/
  | unknownOption (name : String)
  /-- An option is given again. -/
  | repeatedOption (option : QueryOption) (first : Span)
  /-- The value of an option has the wrong shape. -/
  | invalidValue (option : QueryOption)
  /-- Nothing stands where a path to expand should. -/
  | missingExpandItem
  /-- The options of a path to expand have no end. -/
  | unclosedExpandOptions
  /-- Text follows the options of a path to expand. -/
  | textAfterExpandOptions
  /-- A path is expanded again. -/
  | repeatedExpand (first : Span)
  deriving DecidableEq, Repr

/-- **The codes of broken rules.**  The other codes are those of texts that do not match the
grammar. -/
def Code.isRule : Code → Bool
  | .invalidParameter | .duplicateOption | .duplicateExpand => true
  | .lexical | .grammar | .depth => false

/-- How a message speaks of an arity. -/
def Arity.describe (a : Arity) : String :=
  if a.least = a.most then s!"{a.least}" else s!"{a.least} to {a.most}"

namespace Cause

/-- The code of a cause. -/
def code : Cause → Code
  | unclosedString | strayText _ => .lexical
  | tooDeep _ | tooManyOperators _ => .depth
  | castOfNonLiteral _ | invalidValue _ => .invalidParameter
  | repeatedOption _ _ => .duplicateOption
  | repeatedExpand _ => .duplicateExpand
  | _ => .grammar

/-- **The message of a cause.** -/
def message : Cause → String
  | unclosedString => "unterminated string literal"
  | strayText text => s!"unexpected characters `{text}`"
  | expected what found => s!"expected {what}, found {found.describe}"
  | operatorAsOperand word => s!"expected expression, found operator '{word}'"
  | chainedComparison => "comparison operators cannot be chained"
  | unknownFunction name => s!"unknown function '{name}'"
  | missingCollection function =>
    s!"'{function.word}' must follow a collection path, as in Items/{function.word}(x: ...)"
  | wrongArity function found =>
    s!"'{function.word}' expects {function.arity.describe} arguments, found {found}"
  | missingLambda function => s!"'{function.word}' requires a lambda expression"
  | operatorAsVariable word => s!"'{word}' cannot be used as a lambda variable"
  | integerOutOfRange text => s!"integer literal {text} is out of range"
  | unknownParameter name _ => s!"unknown parameter alias '{name}'"
  | unknownUnit word => s!"unknown unit '{word}'"
  | unknownType name => s!"unknown cast type '{name}'"
  | castOfNonLiteral (some option) => s!"invalid {option.word} parameter"
  | castOfNonLiteral none => "invalid cast parameter"
  | notBoolean => "expected a boolean expression"
  | unknownStage name => s!"unknown transformation '{name}'"
  | unknownMethod word => s!"unknown aggregation method '{word}'"
  | aggregateOfNonProperty => "only a property can be aggregated with 'with'"
  | tooDeep limit => s!"nesting exceeds the maximum depth of {limit}"
  | tooManyOperators limit => s!"operators nest deeper than the maximum of {limit}"
  | missingValue item => s!"expected '=' after query option '{item}'"
  | unknownOption name =>
    if name.toList.head? = some '$' then s!"unknown query option '{name}'"
    else s!"unsupported custom query option '{name}'"
  | repeatedOption option _ => s!"{option.word} cannot exist more than once in query string"
  | invalidValue option => s!"invalid {option.word} parameter"
  | missingExpandItem => "expected $expand item"
  | unclosedExpandOptions => "unclosed '(' in $expand item"
  | textAfterExpandOptions => "unexpected text after $expand options"
  | repeatedExpand _ => "duplicate $expand navigationProperty"

/-- What the label says at the place of the failure. -/
def remark : Cause → String
  | unclosedString => "string starts here"
  | strayText _ => "not a valid token"
  | unknownParameter _ _ => "not a recognized alias"
  | castOfNonLiteral _ => "only literals can be cast"
  | notBoolean => "this does not evaluate to true or false"
  | tooDeep _ => "too deeply nested"
  | tooManyOperators _ => "too many operators"
  | unknownOption _ => "not a system query option"
  | repeatedOption _ _ => "repeated here"
  | repeatedExpand _ => "expanded again here"
  | _ => "here"

/-- What to do about it. -/
def help : Cause → Option String
  | unclosedString => some "close the string with ' and write embedded quotes as ''"
  | unknownParameter _ known => some ("recognized aliases: " ++ ", ".intercalate known)
  | notBoolean =>
    some "compare it with eq, ne, gt, ge, lt or le, or use a boolean function"
  | tooManyOperators _ => some "split the expression with parentheses or shorten it"
  | unknownOption _ =>
    some ("supported options: $select, $expand, $filter, $orderby, $apply, $top, $skip, " ++
      "$count, $search, $format, $callback")
  | _ => none

/-- The label at the first of two places, if the cause is that there are two. -/
def earlier : Cause → Option Label
  | repeatedOption _ first => some ⟨first, "first used here", .secondary⟩
  | repeatedExpand first => some ⟨first, "first expanded here", .secondary⟩
  | _ => none

end Cause

/-- **Why and where a text is refused.** -/
structure Failure where
  /-- What is wrong. -/
  cause : Cause
  /-- The place of it. -/
  span : Span
  deriving DecidableEq, Repr

namespace Failure

/-- **The diagnostic of a failure**: one primary label at its place, and a secondary one
after it if something was there before. -/
def diagnostic (f : Failure) : Diagnostic :=
  ⟨f.cause.message, ⟨f.span, f.cause.remark, .primary⟩ :: f.cause.earlier.toList, f.cause.help,
    some f.cause.code⟩

/-- **The refusal that a failure is**, of the class that its code belongs to. -/
def refusal (f : Failure) : Refusal :=
  if f.cause.code.isRule then .invalid f.diagnostic else .malformed f.diagnostic

end Failure

end OData
