import OData.Grammar.Literal
import OData.Query

/-!
# Reading resource paths

A resource path is a list of segments with a slash between each two, and possibly
one in front.  A segment is a word and possibly key predicates in parentheses; an
empty pair of parentheses is not the same as none.
-/

namespace OData.Grammar

variable (ctx : Context)

/-- Reads a key predicate: a literal, possibly after the name of its key. -/
def keyPredicate : Parse KeyPredicate := do
  let c ← cursor
  match c.current.kind with
  | .word name =>
    if (c.ahead 1).kind = .equals then
      advance
      advance
      let value ← literal ctx
      pure (.named name value)
    else
      let value ← literal ctx
      pure (.positional value)
  | _ =>
    let value ← literal ctx
    pure (.positional value)

/-- Reads key predicates up to the closing parenthesis, which may come at once. -/
def keyPredicates : Parse (List KeyPredicate) := do
  if ← consume .rightParen then pure []
  else
    let predicates ← separated .comma (keyPredicate ctx)
    let _ ← expect .rightParen
    pure predicates

/-- Reads a segment of a resource path. -/
def resourceSegment : Parse PathSegment := do
  let name ← expectWord "resource name"
  if ← consume .leftParen then
    let predicates ← keyPredicates ctx
    pure ⟨name.value, some predicates⟩
  else pure ⟨name.value, none⟩

/-- **Reads a resource path**, which is all the tokens. -/
def resourcePath : Parse (List PathSegment) :=
  complete do
    let _ ← consume .slash
    separated .slash (resourceSegment ctx)

end OData.Grammar
