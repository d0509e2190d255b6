import OData.Keyword
import OData.Traversal.Visitor

/-!
# Traces

The trace of a query is the list of its nodes in the order in which they are
visited.  Each node is an event: what kind it is, and the one detail that tells it
from others of its kind.  A trace may leave out what is below some kinds of nodes,
and it may break off after an event.
-/

namespace OData

/-- **The kinds of nodes.** -/
inductive Hook where
  | query | pathSegment | selectItem | expandItem | orderByItem | transformation | named
  | aggregate | expr | call | lambda | property | literal
  deriving DecidableEq, Repr

/-- The name of a kind of nodes. -/
def Hook.word : Hook → String
  | .query => "query_options"
  | .pathSegment => "path_segment"
  | .selectItem => "select_item"
  | .expandItem => "expand_item"
  | .orderByItem => "order_by_item"
  | .transformation => "transformation"
  | .named => "alias"
  | .aggregate => "aggregate"
  | .expr => "expr"
  | .call => "function_call"
  | .lambda => "lambda"
  | .property => "property"
  | .literal => "literal"

instance : Keyword Hook where
  all :=
    [.query, .pathSegment, .selectItem, .expandItem, .orderByItem, .transformation, .named,
     .aggregate, .expr, .call, .lambda, .property, .literal]
  word := Hook.word
  mem_all := by intro a; cases a <;> decide
  nodup_words := by decide

/-- **A visit to a node.** -/
structure Event where
  /-- The kind of the node. -/
  hook : Hook
  /-- What tells it from others. -/
  detail : String
  deriving DecidableEq, Repr

/-- The word for the form of an expression. -/
def Expr.form : Expr → String
  | .property _ => "property"
  | .literal _ => "literal"
  | .now _ => "now"
  | .cast _ _ => "cast"
  | .call _ _ => "functioncall"
  | .lambda _ _ => "lambda"
  | .math op _ _ => op.word
  | .comparison op _ _ => op.word
  | .logical op _ _ => op.word

/-- **A list of events, and where it broke off.** -/
structure Trace where
  /-- The events, in order. -/
  events : List Event
  /-- The number of events after which it broke off, if it did. -/
  brokeAt : Option Nat
  deriving DecidableEq, Repr

/-- **How to trace.** -/
structure Tracing where
  /-- The kinds of nodes below which nothing is visited. -/
  skips : Hook → Bool
  /-- Whether to break off after an event, of which so many are in the trace by then. -/
  stops : Nat → Event → Bool

namespace Tracing
variable (t : Tracing)

/-- What is done while tracing.  The events are kept with the latest first; breaking off
gives the number of them. -/
abbrev Recorded := EStateM Nat (List Event)

/-- Records an event, then breaks off, or leaves out what is below, or goes on. -/
def record (e : Event) (descend : Recorded Unit) : Recorded Unit := do
  modify fun events => e :: events
  let n := (← get).length
  if t.stops n e then throw n
  else if t.skips e.hook then pure ()
  else descend

/-- The visitor that records every node. -/
def visitor : Visitor Recorded where
  query := fun _ => t.record ⟨.query, ""⟩
  pathSegment := fun s => t.record ⟨.pathSegment, s.name⟩
  selectItem := fun i => t.record ⟨.selectItem, i⟩
  expandItem := fun i => t.record ⟨.expandItem, i.path⟩
  orderByItem := fun i => t.record ⟨.orderByItem, s!"{i.path} {i.direction.word}"⟩
  transformation := fun s => t.record ⟨.transformation, s.kind.word⟩
  named := fun name _ => t.record ⟨.named, name⟩
  aggregate := fun a => t.record ⟨.aggregate, a.method.word⟩
  expr := fun e => t.record ⟨.expr, e.form⟩
  call := fun function _ => t.record ⟨.call, function.word⟩
  lambda := fun param _ => t.record ⟨.lambda, param⟩
  property := fun p => t.record ⟨.property, "|".intercalate p.segments⟩
  literal := fun l => t.record ⟨.literal, l.typeName⟩

/-- The trace of a query. -/
def trace (q : Query) : Trace :=
  match t.visitor.visitQuery q [] with
  | .ok _ events => ⟨events.reverse, none⟩
  | .error n events => ⟨events.reverse, some n⟩

end Tracing

/-! ## Visitors of one kind of nodes -/

namespace Query

/-- The number of literals in a query. -/
def countLiterals (q : Query) : Nat :=
  let counter : Visitor (StateM Nat) := { literal := fun _ _ => modify fun n => n + 1 }
  (counter.visitQuery q 0).2

/-- The name of the first property in a query. -/
def firstProperty (q : Query) : Option String :=
  let finder : Visitor (Except String) := { property := fun p _ => throw p.name }
  match finder.visitQuery q with
  | .ok _ => none
  | .error name => some name

end Query

end OData
