import OData.Grammar.Expression
import OData.Transformation

/-!
# Reading pipelines

A pipeline is a list of stages with a slash between each two.  A stage is a name
and, but for `identity`, arguments in parentheses; the kind of the stage says which.
Stages nest, as arguments of others, and every nested stage has its own name in
front, so fewer of them nest than there are tokens.

The parenthesis of a `filter` counts as a bracket before it is read, that of every
other stage after it.
-/

namespace OData.Grammar

variable (ctx : Context) (inner : Parse Transformation)

/-- Reads `as` and the name that is given to a value. -/
def givenName : Parse String := do
  if ← consumeWord "as" then
    let name ← expectWord "alias name"
    pure name.value
  else refuseFor "'as'"

/-- Reads the method and the name of an aggregate, after the property, which began at
`start`, and before `with`. -/
def aggregateOf (value : Expr) (start : Span) : Parse StageArg := do
  let place := start.join (← previousSpan)
  advance
  match value with
  | .property property =>
    let word ← expectWord "aggregation method"
    match (Keyword.find? word.value : Option AggregateMethod) with
    | none => refuse (.unknownMethod word.value) word.span
    | some method =>
      let name ← givenName
      pure (.named name (.aggregate ⟨method, property⟩))
  | _ => refuse .aggregateOfNonProperty place

/-- Reads an expression that is an argument, and the name that is given to it. -/
def valueArg : Parse StageArg := do
  let start ← here
  let value ← expression ctx
  if ← isAtWord "with" then aggregateOf value start
  else if ← isAtWord "as" then
    let name ← givenName
    pure (.named name (.expr value))
  else pure (.expr value)

/-- A stage begins at the cursor: there is the name of one, with a parenthesis after it
unless it is `identity`, which needs none. -/
def isStageAhead (c : Cursor) : Bool :=
  match c.current.kind.word?.bind Keyword.find? with
  | some kind => kind == StageKind.identity || (c.ahead 1).kind == .leftParen
  | none => false

/-- Reads an argument of a stage. -/
def stageArg : Parse StageArg := do
  if isStageAhead (← cursor) then
    let stage ← inner
    pure stage.toArg
  else valueArg ctx

/-- Reads arguments in parentheses, which are one bracket. -/
def enclosed (args : Parse (List StageArg)) : Parse (List StageArg) := do
  let _ ← expect .leftParen
  let as ← nested ctx args
  let _ ← expect .rightParen
  pure as

/-- Reads the condition of a filter stage. -/
def filterArgs : Parse (List StageArg) :=
  nested ctx do
    let _ ← expect .leftParen
    let e ← boolean ctx
    let _ ← expect .rightParen
    pure [.expr e]

/-- Reads the parentheses that an identity stage may have. -/
def identityArgs : Parse (List StageArg) := do
  if ← consume .leftParen then
    let _ ← expect .rightParen
    pure []
  else pure []

/-- Reads the path of an expand stage and the stages after it. -/
def expandArgs : Parse (List StageArg) := do
  let path ← memberPath
  let stages ← following .comma inner (← rounds)
  pure (.expr (.property (Property.ofName path)) :: stages.map Transformation.toArg)

/-- Reads the arguments of a stage of some kind. -/
def stageArgs : StageKind → Parse (List StageArg)
  | .identity => identityArgs
  | .filter => filterArgs ctx
  | .expand => enclosed ctx (expandArgs inner)
  | _ => enclosed ctx (separated .comma (stageArg ctx inner))

/-- Reads a stage, with the stages inside of it read by `inner`. -/
def stageWith : Parse Transformation := do
  let name ← expectWord "transformation"
  match (Keyword.find? name.value : Option StageKind) with
  | none => refuse (.unknownStage name.value) name.span
  | some kind =>
    let args ← stageArgs ctx inner kind
    pure ⟨kind, args⟩

/-- Reads a stage, with stages nested at most as deep as given. -/
def stageFrom : Nat → Parse Transformation
  | 0 => throw .exhausted
  | n + 1 => stageWith ctx (stageFrom n)

/-- **Reads a stage.** -/
def stage : Parse Transformation := do stageFrom ctx (← rounds)

/-- **Reads a pipeline**, which is all the tokens. -/
def pipeline : Parse (List Transformation) := complete (separated .slash (stage ctx))

end OData.Grammar
