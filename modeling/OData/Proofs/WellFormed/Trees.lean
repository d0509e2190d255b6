import Mathlib.Algebra.Group.Int.Defs
import Mathlib.Algebra.Group.Nat.Defs
import OData.Grammar.Literal
import OData.Literal.Temporal
import OData.Proofs.Grammar.Derivation
import OData.Proofs.Text.Nesting
import OData.Proofs.Token.Lexeme
import OData.Query

/-!
# Well-formed trees

What a tree that was read is known to be, beyond what its type says.  Mappers walk
expressions, pipelines and queries and rely on all of it at once: conditions are
conditions, functions have as many arguments as they take, lambdas stand in calls of
collection functions only, names are paths of words, literals are what their texts
stand for, stages have the arguments of their kind, and the lists of a query are not
empty and repeat nothing.

The predicates here say so for every part of a tree, however deep.  They are about
the trees alone and mention neither tokens nor a parser.
-/
namespace OData
open Grammar

/-! ## Names -/

/-- A word, as it can stand in a text. -/
def IsWord (w : String) : Prop := (Kind.word w).Spelled

/-- The segments of a path: words that are no operators, at least one. -/
def AreSegments (names : List String) : Prop :=
  names ≠ [] ∧ ∀ name ∈ names, IsWord name ∧ isOperatorWord name = false

/-- A path, segments joined by slashes. -/
def IsPathName (path : String) : Prop :=
  ∃ names, AreSegments names ∧ path = "/".intercalate names

/-- The path of a property in an expression, whose first segment is no literal. -/
def IsOperandName (path : String) : Prop :=
  ∃ first others, AreSegments (first :: others) ∧ first ∉ reservedWords ∧
    path = "/".intercalate (first :: others)

/-- A part of a selected item: words joined by dots, the last of which may be a star. -/
def IsPartName (part : String) : Prop :=
  ∃ words star, (∀ w ∈ words, IsWord w) ∧ (star = [] ∨ star = ["*"]) ∧ words ++ star ≠ [] ∧
    part = ".".intercalate (words ++ star)

/-- A selected item: parts joined by slashes. -/
def IsSelectName (item : String) : Prop :=
  ∃ parts, parts ≠ [] ∧ (∀ part ∈ parts, IsPartName part) ∧ item = "/".intercalate parts

/-- The path of an expand item. -/
def IsExpandName (path : String) : Prop := path = "*" ∨ IsPathName path

theorem IsOperandName.isPathName {path : String} (h : IsOperandName path) : IsPathName path := by
  obtain ⟨first, others, hs, -, hp⟩ := h
  exact ⟨_, hs, hp⟩

/-! ## Literals -/

/-- **A literal that some text stands for**: the kind of a string is the one that its text
has by its shape, numbers are written as numbers and fit, and parameters are known. -/
def Literal.WellFormed (settings : Settings) : Literal → Prop
  | .parameter name => (Kind.parameter name).Spelled ∧ settings.knows name = true
  | .string text => Literal.ofQuoted text = .string text
  | .timeOfDay text => Literal.ofQuoted text = .timeOfDay text
  | .date text => Literal.ofQuoted text = .date text
  | .dateTimeOffset text => Literal.ofQuoted text = .dateTimeOffset text
  | .decimal text => (Kind.decimal text).Spelled
  | .double text => (Kind.double text).Spelled
  | .integer value => -2 ^ 63 ≤ value ∧ value < 2 ^ 63
  | .null _ | .nonFinite _ | .boolean _ => True

/-! ## Expressions -/

/-- **A well-formed expression.**  There is no case for a lambda: it is well formed as the
condition of a collection function only. -/
inductive Expr.WellFormed (settings : Settings) : Expr → Prop
  | property {p : Property} : IsOperandName p.name → WellFormed settings (.property p)
  | literal {l : Literal} : l.WellFormed settings → WellFormed settings (.literal l)
  | now (unit : Option TimeUnit) : WellFormed settings (.now unit)
  | cast {l : Literal} (type : EdmType) :
      l.WellFormed settings → WellFormed settings (.cast l type)
  /-- A function that is no collection function has as many arguments as it takes. -/
  | call {f : Builtin} {args : List Expr} :
      f.isCollection = false → f.arity.allows args.length = true →
      (∀ a ∈ args, WellFormed settings a) → WellFormed settings (.call f args)
  /-- The question whether there is any element has a collection and no condition. -/
  | anyAtAll {p : Property} :
      IsOperandName p.name → p.unit = none → WellFormed settings (.call .any [.property p])
  /-- A collection function has a collection and a condition. -/
  | quantified {f : Builtin} {p : Property} {param : String} {body : Expr} :
      f.isCollection = true → IsOperandName p.name → p.unit = none → IsWord param →
      isOperatorWord param = false → WellFormed settings body → body.isBoolean = true →
      WellFormed settings (.call f [.property p, .lambda param body])
  | math {x y : Expr} (op : MathOp) :
      WellFormed settings x → WellFormed settings y → WellFormed settings (.math op x y)
  | comparison {x y : Expr} (op : ComparisonOp) :
      WellFormed settings x → WellFormed settings y → WellFormed settings (.comparison op x y)
  /-- The operands of a connective are conditions. -/
  | logical {x y : Expr} (op : LogicalOp) :
      WellFormed settings x → x.isBoolean = true → WellFormed settings y →
      y.isBoolean = true → WellFormed settings (.logical op x y)

/-! ## Pipelines -/

mutual

/-- **The arguments of a well-formed stage** of some kind. -/
inductive StageKind.Takes (settings : Settings) : StageKind → List StageArg → Prop
  | identity : StageKind.Takes settings .identity []
  | filter {e : Expr} :
      e.WellFormed settings → e.isBoolean = true → StageKind.Takes settings .filter [.expr e]
  | expand {p : Property} {stages : List Transformation} :
      IsPathName p.name → p.unit = none →
      (∀ t ∈ stages, StageKind.Takes settings t.kind t.args) →
      StageKind.Takes settings .expand (.expr (.property p) :: stages.map Transformation.toArg)
  | plain {kind : StageKind} {args : List StageArg} :
      kind.isPlain = true → args ≠ [] → (∀ a ∈ args, StageArg.WellFormed settings a) →
      StageKind.Takes settings kind args

/-- **A well-formed argument** of a stage. -/
inductive StageArg.WellFormed (settings : Settings) : StageArg → Prop
  | expr {e : Expr} : e.WellFormed settings → StageArg.WellFormed settings (.expr e)
  | named {name : String} {e : Expr} :
      IsWord name → e.WellFormed settings → StageArg.WellFormed settings (.named name (.expr e))
  | aggregate {name : String} {p : Property} (method : AggregateMethod) :
      IsWord name → IsOperandName p.name →
      StageArg.WellFormed settings (.named name (.aggregate ⟨method, p⟩))
  | stage {kind : StageKind} {args : List StageArg} :
      kind.Takes settings args → StageArg.WellFormed settings (.stage kind args)

end

/-- A well-formed stage. -/
def Transformation.WellFormed (settings : Settings) (t : Transformation) : Prop :=
  t.kind.Takes settings t.args

/-! ## Queries -/

/-- A well-formed key predicate. -/
def KeyPredicate.WellFormed (settings : Settings) : KeyPredicate → Prop
  | .positional value => value.WellFormed settings
  | .named name value => IsWord name ∧ value.WellFormed settings

/-- **A well-formed segment of a resource path.** -/
structure PathSegment.WellFormed (settings : Settings) (segment : PathSegment) : Prop where
  name : IsWord segment.name
  predicates : ∀ ps, segment.predicates = some ps → ∀ p ∈ ps, p.WellFormed settings

/-- **Well-formed options**, those apart that hold options again.  `sep` is the separator of
the list that the options are in. -/
structure Query.FlatWellFormed (settings : Settings) (sep : Char) (q : Query) : Prop where
  path : ∀ segments, q.path = some segments →
    segments ≠ [] ∧ ∀ s ∈ segments, s.WellFormed settings
  select : ∀ items, q.select = some items → items ≠ [] ∧ ∀ i ∈ items, IsSelectName i
  filter : ∀ e, q.filter = some e → e.WellFormed settings ∧ e.isBoolean = true
  orderBy : ∀ items, q.orderBy = some items → items ≠ [] ∧ ∀ i ∈ items, IsPathName i.path
  callback : ∀ text, q.callback = some text → text ≠ "" ∧ Text.Unexposed sep text.toList
  format : ∀ text, q.format = some text → text ≠ "" ∧ Text.Unexposed sep text.toList
  search : ∀ term, q.search = some term → term ≠ ""
  skip : ∀ n, q.skip = some n → n < 2 ^ 64
  top : ∀ n, q.top = some n → n < 2 ^ 64
  apply : ∀ stages, q.apply = some stages → stages ≠ [] ∧ ∀ t ∈ stages, t.WellFormed settings

/-- **A well-formed query** whose options stand in a list with the separator `sep`.  No path
is expanded twice in one list, and the options of an expanded path are well formed again
and have no path of their own. -/
inductive Query.WellFormed (settings : Settings) : Char → Query → Prop
  | mk {sep : Char} {q : Query} :
      q.FlatWellFormed settings sep →
      (∀ items, q.expand = some items →
        items ≠ [] ∧ (items.map ExpandItem.path).Nodup ∧ ∀ i ∈ items, IsExpandName i.path) →
      (∀ items, q.expand = some items → ∀ i ∈ items, i.options.path = none) →
      (∀ items, q.expand = some items → ∀ i ∈ items, WellFormed settings ';' i.options) →
      WellFormed settings sep q

/-! ## Other settings

Well-formedness depends on the parameters that are known, and on nothing else in the
settings.
-/

section Known
variable {settings settings' : Settings}

theorem Literal.WellFormed.of_knows
    (hk : ∀ name, settings.knows name = true → settings'.knows name = true) {l : Literal}
    (h : l.WellFormed settings) : l.WellFormed settings' := by
  cases l with
  | parameter name => exact ⟨h.1, hk name h.2⟩
  | _ => exact h

theorem Expr.WellFormed.of_knows
    (hk : ∀ name, settings.knows name = true → settings'.knows name = true) {e : Expr}
    (h : e.WellFormed settings) : e.WellFormed settings' := by
  induction h with
  | property h => exact .property h
  | literal h => exact .literal (h.of_knows hk)
  | now unit => exact .now unit
  | cast type h => exact .cast type (h.of_knows hk)
  | call hf ha _ ih => exact .call hf ha ih
  | anyAtAll hn hu => exact .anyAtAll hn hu
  | quantified hf hn hu hp ho _ hb ih => exact .quantified hf hn hu hp ho ih hb
  | math op _ _ ihx ihy => exact .math op ihx ihy
  | comparison op _ _ ihx ihy => exact .comparison op ihx ihy
  | logical op _ hx _ hy ihx ihy => exact .logical op ihx hx ihy hy

mutual

theorem StageKind.Takes.of_knows
    (hk : ∀ name, settings.knows name = true → settings'.knows name = true) {kind : StageKind}
    {args : List StageArg} : kind.Takes settings args → kind.Takes settings' args
  | .identity => .identity
  | .filter h hb => .filter (h.of_knows hk) hb
  | .expand hn hu h => .expand hn hu fun t ht => (h t ht).of_knows hk
  | .plain hp hne h => .plain hp hne fun a ha => (h a ha).of_knows hk

theorem StageArg.WellFormed.of_knows
    (hk : ∀ name, settings.knows name = true → settings'.knows name = true) {a : StageArg} :
    a.WellFormed settings → a.WellFormed settings'
  | .expr h => .expr (h.of_knows hk)
  | .named hn h => .named hn (h.of_knows hk)
  | .aggregate method hn h => .aggregate method hn h
  | .stage h => .stage (h.of_knows hk)

end

theorem PathSegment.WellFormed.of_knows
    (hk : ∀ name, settings.knows name = true → settings'.knows name = true)
    {segment : PathSegment} (h : segment.WellFormed settings) : segment.WellFormed settings' := by
  refine ⟨h.name, fun ps hps p hp => ?_⟩
  have hp := h.predicates ps hps p hp
  cases p with
  | positional value => exact Literal.WellFormed.of_knows hk hp
  | named name value => exact ⟨hp.1, hp.2.of_knows hk⟩

theorem Query.WellFormed.of_knows
    (hk : ∀ name, settings.knows name = true → settings'.knows name = true) {sep : Char}
    {q : Query} (h : q.WellFormed settings sep) : q.WellFormed settings' sep := by
  induction h with
  | mk hflat hlist hpath _ ih =>
    refine .mk { hflat with path := ?_, filter := ?_, apply := ?_ } hlist hpath ih
    · intro segments hs
      obtain ⟨hne, hall⟩ := hflat.path segments hs
      exact ⟨hne, fun s hs => (hall s hs).of_knows hk⟩
    · intro e he
      obtain ⟨hwf, hb⟩ := hflat.filter e he
      exact ⟨hwf.of_knows hk, hb⟩
    · intro stages hs
      obtain ⟨hne, hall⟩ := hflat.apply stages hs
      exact ⟨hne, fun t ht => StageKind.Takes.of_knows hk (hall t ht)⟩

end Known

end OData
