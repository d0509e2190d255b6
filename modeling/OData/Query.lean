import OData.Transformation

/-!
# Queries

A query is a resource path and the options that go with it, each of which is there
or not.  The options of an expanded path are a query again, which never has a path
of its own.
-/

namespace OData

/-- **A key predicate** of a path segment. -/
inductive KeyPredicate where
  /-- A value whose key is known from its place. -/
  | positional (value : Literal)
  /-- A value with the name of its key. -/
  | named (name : String) (value : Literal)
  deriving DecidableEq, Repr

/-- The value of a key predicate. -/
def KeyPredicate.value : KeyPredicate → Literal
  | .positional value | .named _ value => value

/-- **A segment of the resource path.** -/
structure PathSegment where
  /-- The name of the resource. -/
  name : String
  /-- What stands in the parentheses after it, if there are any. -/
  predicates : Option (List KeyPredicate)
  deriving DecidableEq, Repr

/-- **A path to sort by, and the direction.** -/
structure OrderByItem where
  /-- The path. -/
  path : String
  /-- The direction. -/
  direction : SortDirection
  deriving DecidableEq, Repr

mutual

/-- **A query**: its resource path and its options. -/
structure Query where
  /-- The segments of the resource path. -/
  path : Option (List PathSegment) := none
  /-- What to select. -/
  select : Option (List String) := none
  /-- What to expand. -/
  expand : Option (List ExpandItem) := none
  /-- The condition on the results. -/
  filter : Option Expr := none
  /-- The order of the results. -/
  orderBy : Option (List OrderByItem) := none
  /-- The function that is to be called with the results. -/
  callback : Option String := none
  /-- The format of the results. -/
  format : Option String := none
  /-- The term to search for. -/
  search : Option String := none
  /-- Whether to count the results. -/
  count : Option Bool := none
  /-- How many results to leave out at the start. -/
  skip : Option Nat := none
  /-- How many results to give at most. -/
  top : Option Nat := none
  /-- The pipeline that the results go through. -/
  apply : Option (List Transformation) := none

/-- **A path to expand**, with the options for what it leads to. -/
structure ExpandItem where
  /-- The path. -/
  path : String
  /-- The options, none of which need be there. -/
  options : Query

end

namespace Query

/-- **The query that asks for nothing.** -/
def empty : Query := {}

instance : Inhabited Query := ⟨empty⟩

/-- Nothing is asked for: neither a path nor any option is there. -/
def isEmpty (q : Query) : Bool :=
  q.path.isNone && q.select.isNone && q.expand.isNone && q.filter.isNone && q.orderBy.isNone &&
    q.callback.isNone && q.format.isNone && q.search.isNone && q.count.isNone &&
    q.skip.isNone && q.top.isNone && q.apply.isNone

end Query

/-! ## Option values -/

/-- **The value of one option**, which tells its option too. -/
inductive OptionValue where
  | select (items : List String)
  | expand (items : List ExpandItem)
  | filter (condition : Expr)
  | orderBy (items : List OrderByItem)
  | callback (function : String)
  | format (name : String)
  | search (term : String)
  | count (wanted : Bool)
  | skip (number : Nat)
  | top (number : Nat)
  | apply (stages : List Transformation)

/-- The option of a value. -/
def OptionValue.option : OptionValue → QueryOption
  | .select _ => .select
  | .expand _ => .expand
  | .filter _ => .filter
  | .orderBy _ => .orderBy
  | .callback _ => .callback
  | .format _ => .format
  | .search _ => .search
  | .count _ => .count
  | .skip _ => .skip
  | .top _ => .top
  | .apply _ => .apply

/-- **The query with one option set.** -/
def Query.assign (q : Query) : OptionValue → Query
  | .select items => { q with select := some items }
  | .expand items => { q with expand := some items }
  | .filter condition => { q with filter := some condition }
  | .orderBy items => { q with orderBy := some items }
  | .callback function => { q with callback := some function }
  | .format name => { q with format := some name }
  | .search term => { q with search := some term }
  | .count wanted => { q with count := some wanted }
  | .skip number => { q with skip := some number }
  | .top number => { q with top := some number }
  | .apply stages => { q with apply := some stages }

end OData
