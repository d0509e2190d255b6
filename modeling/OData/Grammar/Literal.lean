import OData.Grammar.Basic
import OData.Literal.Temporal
import OData.Text.Numeral

/-!
# Reading literals and names

A literal is one token, except for a null that carries the name of its type: that
is two, with nothing between them.  A path is made of words that are no operators;
every other word may be a name, whatever else it means elsewhere.
-/

namespace OData.Grammar

/-! ## Literals -/

/-- The words that are literals, the null apart. -/
def wordLiteral? (w : String) : Option Literal :=
  match w with
  | "true" => some (.boolean true)
  | "false" => some (.boolean false)
  | "NaN" => some (.nonFinite .nan)
  | "INF" => some (.nonFinite .infinity)
  | _ => none

/-- The words that are literals wherever an operand may stand. -/
def isLiteralWord (w : String) : Bool := w == "null" || (wordLiteral? w).isSome

/-- Reads a null, and the name of its type if that follows with no gap. -/
def nullLiteral : Parse Literal := do
  let stop := (← here).stop
  advance
  let next ← current
  match next.kind with
  | .string hint =>
    if next.span.start = stop then
      advance
      pure (.null (some hint))
    else pure (.null none)
  | _ => pure (.null none)

/-- The literal of a token by itself, or why there is none. -/
def tokenLiteral (ctx : Context) (kind : Kind) : Except Cause Literal :=
  match kind with
  | .string content => .ok (Literal.ofQuoted content)
  | .integer text =>
    match Text.Numeral.signed? text.toList with
    | some v => .ok (.integer v)
    | none => .error (.integerOutOfRange text)
  | .decimal text => .ok (.decimal text)
  | .double text => .ok (.double text)
  | .negativeInfinity => .ok (.nonFinite .negativeInfinity)
  | .parameter name =>
    if ctx.settings.knows name then .ok (.parameter name)
    else .error (.unknownParameter name ctx.settings.parameters)
  | .word w =>
    match wordLiteral? w with
    | some l => .ok l
    | none => .error (.expected "literal" kind)
  | _ => .error (.expected "literal" kind)

/-- **Reads a literal.** -/
def literal (ctx : Context) : Parse Literal := do
  let token ← current
  if token.kind = .word "null" then nullLiteral
  else
    match tokenLiteral ctx token.kind with
    | .ok l =>
      advance
      pure l
    | .error cause => refuse cause token.span

/-! ## Names -/

/-- **Reads one segment of a path.** -/
def pathSegment : Parse String := do
  match (← current).kind with
  | .word w =>
    if isOperatorWord w then refuseFor "property name"
    else
      advance
      pure w
  | _ => refuseFor "property name"

/-- **Reads a path** of segments joined by slashes. -/
def memberPath : Parse String := do
  let segments ← separated .slash pathSegment
  pure ("/".intercalate segments)

/-- Reads the unit of time that is asked of what stands before, if one is. -/
def unitAccessor : Parse (Option TimeUnit) := do
  if ← consume .dot then
    let name ← expectWord "unit name"
    match (Keyword.find? name.value : Option TimeUnit) with
    | none => refuse (.unknownUnit name.value) name.span
    | some unit =>
      let _ ← expect .leftParen
      let _ ← expect .rightParen
      pure (some unit)
  else pure none

/-- Reads the name of a type, words joined by dots. -/
def typeName : Parse EdmType := do
  let first ← expectWord "type name"
  let others ← following .dot (expectWord "type name segment") (← rounds)
  let name := ".".intercalate (first.value :: others.map Spanned.value)
  match (Keyword.find? name : Option EdmType) with
  | some type => pure type
  | none => refuse (.unknownType name) (first.span.join (← previousSpan))

end OData.Grammar
