import OData.Grammar.Listing
import OData.Grammar.Pipeline
import OData.Query
import OData.Text.Numeral
import OData.Text.Quoted

/-!
# Reading option lists

An option list is taken apart at its separators, ampersands at the top and
semicolons inside an expand item.  Every item is the name of an option, an equals
sign and a value; blank items are passed over.  The items are read from left to
right, each by itself, and the first that fails decides: an item that repeats an
option fails whatever its value is.

The value of `$expand` holds option lists again, each one bracket deeper.  `room` is
the number of brackets that may still be opened, so it gets smaller with every
nested list and the depth of a list is what `room` lacks to the limit.
-/

namespace OData.Options
open Grammar

/-! ## Items -/

/-- **One item of an option list**: the option, the place of its name, and its value. -/
structure Assignment where
  /-- The option. -/
  option : QueryOption
  /-- The place of its name. -/
  name : Span
  /-- The value, blanks and all. -/
  value : Slice
  deriving DecidableEq, Repr

/-- The place of the whole item, from the name to the end of the value. -/
def Assignment.span (a : Assignment) : Span := ⟨a.name.start, a.value.stop⟩

/-- **Takes an item apart.**  A blank item is nothing at all. -/
def assignment? (item : Slice) : Except Failure (Option Assignment) :=
  let item := item.trimStart
  if item.text = [] then .ok none
  else
    match item.breakAt '=' with
    | none => .error ⟨.missingValue item.trimEnd.toString, item.trimEnd.span⟩
    | some (name, value) =>
      let name := name.trimEnd
      match (Keyword.find? name.toString : Option QueryOption) with
      | none => .error ⟨.unknownOption name.toString, name.span⟩
      | some option => .ok (some ⟨option, name.span, value⟩)

/-! ## Expand items -/

/-- **The parts of an expand item**: its path, and its options if it has any. -/
structure ExpandParts where
  /-- The path. -/
  path : Slice
  /-- What stands in the parentheses after it. -/
  options : Option Slice
  deriving DecidableEq, Repr

/-- Takes an expand item apart, at the first parenthesis that stands outside of quotes
and the one that closes it, which has to be the end of the item. -/
def expandParts (item : Slice) : Except Failure ExpandParts :=
  if item.text = [] then .error ⟨.missingExpandItem, item.span⟩
  else
    match item.cut '(' with
    | none => .ok ⟨item, none⟩
    | some (path, inside) =>
      match Text.close 1 none inside.text with
      | .closed options [] => .ok ⟨path, some ⟨options, inside.start⟩⟩
      | .closed options (_ :: _) =>
        .error ⟨.textAfterExpandOptions,
          ⟨inside.start + Text.byteLength options + 1, item.stop⟩⟩
      | _ => .error ⟨.unclosedExpandOptions, ⟨path.stop, inside.start⟩⟩

/-- Reads expand items from left to right.  `seen` holds the paths so far and their
places; `nested` reads the options of an item. -/
def expandItems (settings : Settings) (depth : Nat) (nested : Slice → Except Stop Query)
    (seen : List (String × Span)) : List Slice → Except Stop (List ExpandItem)
  | [] => .ok []
  | item :: items =>
    match expandParts item.trim with
    | .error f => .error (.refused f)
    | .ok parts => do
      let path ← run expandPath depth parts.path
      match seen.lookup path with
      | some first => .error (.refused ⟨.repeatedExpand first, parts.path.span⟩)
      | none =>
        let options ←
          match parts.options with
          | some inside => nested inside
          | none => .ok Query.empty
        let others ← expandItems settings depth nested ((path, parts.path.span) :: seen) items
        .ok (⟨path, options⟩ :: others)

/-! ## Values -/

/-- **Reads the value of an option.**  `nested` reads the options of an expand item. -/
def optionValue (settings : Settings) (depth : Nat) (nested : Slice → Except Stop Query)
    (a : Assignment) : Except Stop OptionValue :=
  let ctx : Context := ⟨settings, some a.option⟩
  let text := a.value.text
  let invalid : Except Stop OptionValue := .error (.refused ⟨.invalidValue a.option, a.span⟩)
  match a.option with
  | .top =>
    match Text.Numeral.unsigned? text with
    | some n => .ok (.top n)
    | none => invalid
  | .skip =>
    match Text.Numeral.unsigned? text with
    | some n => .ok (.skip n)
    | none => invalid
  | .count =>
    if a.value.toString = "true" then .ok (.count true)
    else if a.value.toString = "false" then .ok (.count false)
    else invalid
  | .format => if text = [] then invalid else .ok (.format a.value.toString)
  | .callback => if text = [] then invalid else .ok (.callback a.value.toString)
  | .search =>
    match Text.Quoted.term text with
    | some term => .ok (.search (String.ofList term))
    | none => invalid
  | .select => OptionValue.select <$> run selection depth a.value
  | .orderBy => OptionValue.orderBy <$> run ordering depth a.value
  | .expand => OptionValue.expand <$> expandItems settings depth nested [] (a.value.split ',')
  | .filter => OptionValue.filter <$> run (filter ctx) depth a.value
  | .apply => OptionValue.apply <$> run (pipeline ctx) depth a.value

/-! ## Lists -/

/-- **Reads option items** from left to right into a query.  `seen` holds the options so far
and the places of their names; `value` reads the value of an option. -/
def assignAll (value : Assignment → Except Stop OptionValue) (seen : List (QueryOption × Span))
    (q : Query) : List Slice → Except Stop Query
  | [] => .ok q
  | item :: items =>
    match assignment? item with
    | .error f => .error (.refused f)
    | .ok none => assignAll value seen q items
    | .ok (some a) =>
      match seen.lookup a.option with
      | some first => .error (.refused ⟨.repeatedOption a.option first, a.name⟩)
      | none => do
        let v ← value a
        assignAll value ((a.option, a.name) :: seen) (q.assign v) items

/-- Reads the options of a list that is in `depth` brackets. -/
def listWith (settings : Settings) (depth : Nat) (nested : Slice → Except Stop Query) (sep : Char)
    (list : Slice) : Except Stop Query :=
  assignAll (optionValue settings depth nested) [] Query.empty (list.split sep)

/-- Refuses the options of an expand item for want of room. -/
def tooDeep (settings : Settings) (inside : Slice) : Except Stop Query :=
  .error (.refused ⟨.tooDeep settings.maxDepth, Span.point inside.start⟩)

/-- Reads an option list with room for some more brackets. -/
def optionList (settings : Settings) : Nat → Char → Slice → Except Stop Query
  | 0, sep, list => listWith settings settings.maxDepth (tooDeep settings) sep list
  | room + 1, sep, list =>
    listWith settings (settings.maxDepth - (room + 1)) (optionList settings room ';') sep list

end OData.Options
