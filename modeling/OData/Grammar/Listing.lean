import OData.Grammar.Literal
import OData.Query

/-!
# Reading the flat lists

What is selected, what the results are sorted by, and the path that is expanded.
None of them nests.  A star stands for everything: alone, or in a selection also
after a dot, where it ends a part.
-/

namespace OData.Grammar

/-! ## Selections -/

/-- Reads the words after the first of a selected part, each after a dot.  A star may end
them. -/
def dottedTail : Nat → Parse (List String)
  | 0 => throw .exhausted
  | n + 1 => do
    if ← consume .dot then
      if ← consume .star then pure ["*"]
      else
        let name ← expectWord "property name"
        let others ← dottedTail n
        pure (name.value :: others)
    else pure []

/-- Reads a part of a selected item: a star, or words joined by dots. -/
def selectPart : Parse String := do
  if ← consume .star then pure "*"
  else
    let name ← expectWord "property name"
    let others ← dottedTail (← rounds)
    pure (".".intercalate (name.value :: others))

/-- Reads a selected item: parts joined by slashes. -/
def selectItem : Parse String := do
  let parts ← separated .slash selectPart
  pure ("/".intercalate parts)

/-- Reads a selection, which is all the tokens. -/
def selection : Parse (List String) := complete (separated .comma selectItem)

/-! ## Orders -/

/-- Reads a direction, ascending if there is none. -/
def sortDirection : Parse SortDirection := do
  if ← consumeWord SortDirection.descending.word then pure .descending
  else
    let _ ← consumeWord SortDirection.ascending.word
    pure .ascending

/-- Reads a path to sort by. -/
def orderByItem : Parse OrderByItem := do
  let path ← memberPath
  let direction ← sortDirection
  pure ⟨path, direction⟩

/-- Reads an order, which is all the tokens. -/
def ordering : Parse (List OrderByItem) := complete (separated .comma orderByItem)

/-! ## Expanded paths -/

/-- **Reads the path of an expand item**, which is all the tokens: a star or a path. -/
def expandPath : Parse String :=
  complete do
    if ← consume .star then pure "*" else memberPath

end OData.Grammar
