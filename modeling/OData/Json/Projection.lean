import OData.Json
import OData.Query.Verdict

/-!
# Queries as JSON

Every node of a query has a JSON value: an object that says in `type` what the node
is.  What is absent in the node is absent in the object, and the fields are in the
order of their names.
-/

namespace OData

/-- The unit of time as a field. -/
def TimeUnit.fields (unit : Option TimeUnit) : List (String × Json) :=
  Json.field? "unit" (unit.map fun u => .string u.word)

/-- A property as JSON. -/
def Property.toJson (p : Property) : Json :=
  .object ([("name", .string p.name), ("type", .string "property")] ++ TimeUnit.fields p.unit)

namespace Literal

/-- The value of a literal as JSON.  A null is a pair of the word and the type it would
have. -/
def valueToJson : Literal → Json
  | null hint => Json.strings ["null", hint.getD ""]
  | nonFinite value => .string value.word
  | parameter name => .string name
  | string text | timeOfDay text | date text | dateTimeOffset text => .string text
  | decimal text | double text => .string text
  | integer value => .int value
  | boolean value => .bool value

/-- A literal as JSON. -/
def toJson (l : Literal) : Json :=
  .object [("literalType", .string l.typeName), ("type", .string "literal"),
    ("value", l.valueToJson)]

end Literal

namespace Expr

/-- An operator and its operands as JSON. -/
def binaryToJson (word : String) (left right : Json) : Json :=
  .object [("left", left), ("right", right), ("type", .string word)]

mutual

/-- An expression as JSON. -/
def toJson : Expr → Json
  | property p => p.toJson
  | literal l => l.toJson
  | now unit => .object ([("type", .string "now")] ++ TimeUnit.fields unit)
  | cast value target =>
    .object [("args", .array [value.toJson, .string target.word]), ("type", .string "cast")]
  | call function args =>
    .object [("args", .array (listToJson args)), ("func", .string function.word),
      ("type", .string "functioncall")]
  | lambda param body =>
    .object [("args", .array [(Property.ofName param).toJson, toJson body]),
      ("type", .string "lambda")]
  | math op left right => binaryToJson op.word (toJson left) (toJson right)
  | comparison op left right => binaryToJson op.word (toJson left) (toJson right)
  | logical op left right => binaryToJson op.word (toJson left) (toJson right)

/-- Expressions as JSON. -/
def listToJson : List Expr → List Json
  | [] => []
  | e :: r => toJson e :: listToJson r

end

end Expr

/-- An aggregate as JSON. -/
def Aggregate.toJson (a : Aggregate) : Json :=
  .object [("args", .array [a.property.toJson]), ("func", .string a.method.word),
    ("type", .string "aggregate")]

/-- A named value as JSON, without its name. -/
def NamedValue.toJson : NamedValue → Json
  | .expr e => e.toJson
  | .aggregate a => a.toJson

/-- A stage as JSON, from its arguments as JSON. -/
def StageKind.stageToJson (kind : StageKind) (args : List Json) : Json :=
  .object [("args", .array args), ("func", .string kind.word),
    ("type", .string "transformation")]

namespace StageArg

mutual

/-- An argument of a stage as JSON. -/
def toJson : StageArg → Json
  | expr e => e.toJson
  | named name value =>
    .object [("expression", value.toJson), ("name", .string name), ("type", .string "alias")]
  | stage kind args => kind.stageToJson (listToJson args)

/-- Arguments as JSON. -/
def listToJson : List StageArg → List Json
  | [] => []
  | a :: r => toJson a :: listToJson r

end

end StageArg

/-- A stage as JSON. -/
def Transformation.toJson (t : Transformation) : Json :=
  t.kind.stageToJson (StageArg.listToJson t.args)

/-- A key predicate as JSON.  With a name it is the name and the bare value. -/
def KeyPredicate.toJson : KeyPredicate → Json
  | .positional value => value.toJson
  | .named name value =>
    .object [("name", .string name), ("type", .string "property"), ("value", value.valueToJson)]

/-- A segment of a resource path as JSON. -/
def PathSegment.toJson (s : PathSegment) : Json :=
  .object ([("name", .string s.name)] ++
    Json.field? "predicates" (s.predicates.map fun ps => .array (ps.map KeyPredicate.toJson)))

/-- A path to sort by as JSON: the direction, as the field that the path names. -/
def OrderByItem.toJson (i : OrderByItem) : Json := .object [(i.path, .string i.direction.word)]

mutual

/-- A query as JSON. -/
def Query.toJson : Query → Json
  | ⟨path, select, expand, filter, orderBy, callback, format, search, count, skip, top, apply⟩ =>
    .object
      (Json.field? "$apply" (apply.map fun ts => .array (ts.map Transformation.toJson)) ++
      Json.field? "$callback" (callback.map .string) ++
      Json.field? "$count" (count.map .bool) ++
      (match expand with
        | some items => [("$expand", .array (ExpandItem.listToJson items))]
        | none => []) ++
      Json.field? "$filter" (filter.map Expr.toJson) ++
      Json.field? "$format" (format.map .string) ++
      Json.field? "$orderby" (orderBy.map fun is => .array (is.map OrderByItem.toJson)) ++
      Json.field? "$path" (path.map fun ss => .array (ss.map PathSegment.toJson)) ++
      Json.field? "$search" (search.map .string) ++
      Json.field? "$select" (select.map Json.strings) ++
      Json.field? "$skip" (skip.map fun n => .int n) ++
      Json.field? "$top" (top.map fun n => .int n))

/-- An expanded path as JSON. -/
def ExpandItem.toJson : ExpandItem → Json
  | ⟨path, options⟩ => .object [("options", options.toJson), ("path", .string path)]

/-- Expanded paths as JSON. -/
def ExpandItem.listToJson : List ExpandItem → List Json
  | [] => []
  | i :: r => i.toJson :: ExpandItem.listToJson r

end

/-- A text that breaks a rule as JSON: only its message. -/
def RejectedQuery.toJson (r : RejectedQuery) : Json := .object [("error", .string r.message)]

/-- What becomes of a text as JSON, if it matches the grammar. -/
def Verdict.toJson? : Verdict → Option Json
  | .query q => some q.toJson
  | .rejected r => some r.toJson
  | .malformed _ | .undecided => none

end OData
