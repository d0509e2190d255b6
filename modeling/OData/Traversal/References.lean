import OData.Query

/-!
# The property paths that a query refers to

Every path is made absolute.  A path inside of expanded options, or inside of an
expand stage, is put after the path that is expanded; a path that begins with the
variable of a lambda has the collection in the variable's place, and nothing is put
in front of it, since the collection is absolute already.  The innermost variable of
a name counts, and so does the innermost expanded path.

The references are collected on the way through the query, each where it is met
first.  The collector keeps the variables and the expanded paths around the place
it has reached, the innermost first, and goes back to the outer ones on the way out.
-/

namespace OData

/-- **What is kept while references are collected.** -/
structure Collector where
  /-- The paths so far, without repetitions, in the order in which they were met. -/
  paths : List String
  /-- The variables around the place, each with the absolute path of its collection. -/
  scopes : List (String × String)
  /-- The absolute paths that are expanded around the place. -/
  anchors : List String
  deriving DecidableEq, Repr

namespace Collector

/-- What is done while references are collected. -/
abbrev Collect := StateM Collector

/-- The first segment of a path, and what follows its slash. -/
def splitHead (name : List Char) : List Char × Option (List Char) :=
  match name.dropWhile (· != '/') with
  | [] => (name, none)
  | _ :: rest => (name.takeWhile (· != '/'), some rest)

/-- The absolute path of a name at a place. -/
def resolve (c : Collector) (name : String) : String :=
  let (first, rest) := splitHead name.toList
  match c.scopes.lookup (String.ofList first) with
  | some target =>
    match rest with
    | some r => target ++ "/" ++ String.ofList r
    | none => target
  | none =>
    match c.anchors with
    | anchor :: _ => anchor ++ "/" ++ name
    | [] => name

/-- The collector with a path noted, unless it is noted already. -/
def note (c : Collector) (path : String) : Collector :=
  if c.paths.contains path then c else { c with paths := c.paths ++ [path] }

/-- Notes the path of a name, and gives it. -/
def record (name : String) : Collect String := do
  let c ← get
  let path := c.resolve name
  set (c.note path)
  pure path

/-- Collects inside of a lambda, whose variable stands for a collection. -/
def within (param target : String) (inside : Collect Unit) : Collect Unit := do
  modify fun c => { c with scopes := (param, target) :: c.scopes }
  inside
  modify fun c => { c with scopes := c.scopes.tail }

/-- Collects below a path that is expanded. -/
def below (path : String) (inside : Collect Unit) : Collect Unit := do
  modify fun c => { c with anchors := path :: c.anchors }
  inside
  modify fun c => { c with anchors := c.anchors.tail }

/-- Collects from one thing after the other. -/
def each {α : Type} (collect : α → Collect Unit) : List α → Collect Unit
  | [] => pure ()
  | a :: r => do
    collect a
    each collect r

mutual

/-- **Collects from an expression.**  A call on a collection with a lambda notes the
collection and binds the variable in the body. -/
def expr : Expr → Collect Unit
  | .property p => do
    let _ ← record p.name
  | .call _ [.property p, .lambda param body] => do
    let target ← record p.name
    within param target (expr body)
  | .call _ args => exprs args
  | .lambda _ body => expr body
  | .math _ left right => do
    expr left
    expr right
  | .comparison _ left right => do
    expr left
    expr right
  | .logical _ left right => do
    expr left
    expr right
  | .literal _ | .now _ | .cast _ _ => pure ()

/-- Collects from expressions. -/
def exprs : List Expr → Collect Unit
  | [] => pure ()
  | e :: r => do
    expr e
    exprs r

end

/-- Collects from a named value. -/
def namedValue : NamedValue → Collect Unit
  | .expr e => expr e
  | .aggregate a => do
    let _ ← record a.property.name

mutual

/-- Collects from an argument of a stage.  An expand stage notes its path, and all its
other arguments are below it. -/
def arg : StageArg → Collect Unit
  | .expr e => expr e
  | .named _ value => namedValue value
  | .stage .expand (.expr (.property p) :: others) => do
    let path ← record p.name
    below path (args others)
  | .stage _ as => args as

/-- Collects from arguments. -/
def args : List StageArg → Collect Unit
  | [] => pure ()
  | a :: r => do
    arg a
    args r

end

/-- Collects from a key predicate: the name of its key, if it has one. -/
def keyPredicate : KeyPredicate → Collect Unit
  | .positional _ => pure ()
  | .named name _ => do
    let _ ← record name

/-- Collects from a selected item, unless it has a star. -/
def selectItem (item : String) : Collect Unit := do
  if item.toList.contains '*' then pure ()
  else
    let _ ← record item

/-- Collects from a path to sort by. -/
def orderByItem (i : OrderByItem) : Collect Unit := do
  let _ ← record i.path

mutual

/-- **Collects from a query.** -/
def query : Query → Collect Unit
  | ⟨path, select, expand, filter, orderBy, _, _, _, _, _, _, apply⟩ => do
    each (fun s => each keyPredicate (s.predicates.getD [])) (path.getD [])
    each selectItem (select.getD [])
    match expand with
    | some items => expandItems items
    | none => pure ()
    each expr filter.toList
    each orderByItem (orderBy.getD [])
    each (fun t => arg t.toArg) (apply.getD [])

/-- Collects from an expanded path: the path, and the options below it. -/
def expandItem : ExpandItem → Collect Unit
  | ⟨path, options⟩ => do
    let target ← record path
    below target (query options)

/-- Collects from expanded paths. -/
def expandItems : List ExpandItem → Collect Unit
  | [] => pure ()
  | i :: r => do
    expandItem i
    expandItems r

end

end Collector

/-- The property paths that a query refers to, each where it is met first. -/
def Query.references (q : Query) : List String := (Collector.query q ⟨[], [], []⟩).2.paths

end OData
