import Mathlib.Data.Option.Basic
import OData.Json.Projection

/-!
# What the JSON of a tree tells

Expressions and stages are told by their JSON: equal objects come from equal trees.  Every node
says in the `type` of its object what it is, and no two kinds of nodes have the same type, the
words of operators included (`NodeType`).  So where two objects are equal, two nodes of one kind
are compared, and the parts of these are told by equal parts of the objects.

One thing is not told.  A null without a hint is written as one with the empty hint, so trees are
compared with all hints written out (`Expr.hinted`, `StageArg.hinted`), which changes nothing in
their JSON.
-/
namespace OData

/-! ## Types of nodes -/

/-- **The kinds of nodes that share the field `type`.** -/
inductive NodeType where
  | property | literal | now | cast | call | lambda
  | math (op : MathOp)
  | comparison (op : ComparisonOp)
  | logical (op : LogicalOp)
  | named | aggregate | stage
  deriving DecidableEq, Repr

/-- What stands in the field `type`. -/
def NodeType.word : NodeType → String
  | .property => "property"
  | .literal => "literal"
  | .now => "now"
  | .cast => "cast"
  | .call => "functioncall"
  | .lambda => "lambda"
  | .math op => op.word
  | .comparison op => op.word
  | .logical op => op.word
  | .named => "alias"
  | .aggregate => "aggregate"
  | .stage => "transformation"

/-- No two kinds of nodes have the same type. -/
instance : Keyword NodeType where
  all :=
    [.property, .literal, .now, .cast, .call, .lambda, .named, .aggregate, .stage] ++
      (Keyword.all.map .math ++ (Keyword.all.map .comparison ++ Keyword.all.map .logical))
  word := NodeType.word
  mem_all := by
    intro a
    cases a with
    | math op | comparison op | logical op => simp [Keyword.mem_all op]
    | _ => simp
  nodup_words := by decide

/-- The kind of an expression. -/
def Expr.nodeType : Expr → NodeType
  | .property _ => .property
  | .literal _ => .literal
  | .now _ => .now
  | .cast _ _ => .cast
  | .call _ _ => .call
  | .lambda _ _ => .lambda
  | .math op _ _ => .math op
  | .comparison op _ _ => .comparison op
  | .logical op _ _ => .logical op

/-- The kind of what a name stands for. -/
def NamedValue.nodeType : NamedValue → NodeType
  | .expr e => e.nodeType
  | .aggregate _ => .aggregate

/-- The kind of an argument of a stage. -/
def StageArg.nodeType : StageArg → NodeType
  | .expr e => e.nodeType
  | .named _ _ => .named
  | .stage _ _ => .stage

/-- A JSON value is an object of some type. -/
def Json.HasType (v : Json) (t : NodeType) : Prop :=
  ∃ fields, v = .object fields ∧ fields.lookup "type" = some (.string t.word)

theorem Json.HasType.unique {v : Json} {t u : NodeType} (ht : v.HasType t) (hu : v.HasType u) :
    t = u := by
  obtain ⟨fields, rfl, ht⟩ := ht
  obtain ⟨_, heq, hu⟩ := hu
  cases heq
  rw [ht] at hu
  have hword : t.word = u.word := by simpa using hu
  exact Keyword.eq_of_word_eq hword

theorem Expr.hasType_toJson (e : Expr) : e.toJson.HasType e.nodeType := by
  cases e <;> exact ⟨_, rfl, rfl⟩

theorem NamedValue.hasType_toJson (v : NamedValue) : v.toJson.HasType v.nodeType := by
  cases v with
  | expr e => exact e.hasType_toJson
  | aggregate a => exact ⟨_, rfl, rfl⟩

theorem StageArg.hasType_toJson (a : StageArg) : a.toJson.HasType a.nodeType := by
  cases a with
  | expr e => exact e.hasType_toJson
  | named name value => exact ⟨_, rfl, rfl⟩
  | stage kind args => exact ⟨_, rfl, rfl⟩

/-! ## Hints written out -/

/-- **A literal with its hint written out**, if it is a null. -/
def Literal.hinted : Literal → Literal
  | .null hint => .null (some (hint.getD ""))
  | l => l

mutual

/-- **An expression with all hints written out.** -/
def Expr.hinted : Expr → Expr
  | .property p => .property p
  | .literal l => .literal l.hinted
  | .now unit => .now unit
  | .cast value target => .cast value.hinted target
  | .call f args => .call f (Expr.allHinted args)
  | .lambda param body => .lambda param (Expr.hinted body)
  | .math op left right => .math op (Expr.hinted left) (Expr.hinted right)
  | .comparison op left right => .comparison op (Expr.hinted left) (Expr.hinted right)
  | .logical op left right => .logical op (Expr.hinted left) (Expr.hinted right)

/-- Expressions with all hints written out. -/
def Expr.allHinted : List Expr → List Expr
  | [] => []
  | e :: es => Expr.hinted e :: Expr.allHinted es

end

/-- What a name stands for, with all hints written out. -/
def NamedValue.hinted : NamedValue → NamedValue
  | .expr e => .expr e.hinted
  | .aggregate a => .aggregate a

mutual

/-- **An argument of a stage with all hints written out.** -/
def StageArg.hinted : StageArg → StageArg
  | .expr e => .expr e.hinted
  | .named name value => .named name value.hinted
  | .stage kind args => .stage kind (StageArg.allHinted args)

/-- Arguments with all hints written out. -/
def StageArg.allHinted : List StageArg → List StageArg
  | [] => []
  | a :: as => StageArg.hinted a :: StageArg.allHinted as

end

/-- **A stage with all hints written out.** -/
def Transformation.hinted (t : Transformation) : Transformation :=
  ⟨t.kind, StageArg.allHinted t.args⟩

/-! ## Literals and properties -/

/-- A field that may be absent tells its value, and whether there is one. -/
theorem Json.field?_inj {name : String} {v w : Option Json}
    (h : Json.field? name v = Json.field? name w) : v = w := by
  cases v with
  | none =>
    cases w with
    | none => rfl
    | some w => cases h
  | some v =>
    cases w with
    | none => cases h
    | some w => exact congrArg some (Prod.mk.inj (List.cons.inj h).1).2

theorem TimeUnit.fields_inj {u v : Option TimeUnit} (h : TimeUnit.fields u = TimeUnit.fields v) :
    u = v :=
  Option.map_injective (fun _ _ hword => Keyword.eq_of_word_eq (Json.string.inj hword))
    (Json.field?_inj h)

theorem Property.toJson_inj {p q : Property} (h : p.toJson = q.toJson) : p = q := by
  obtain ⟨name, unit⟩ := p
  obtain ⟨name', unit'⟩ := q
  simp only [Property.toJson, List.cons_append, List.nil_append, Json.object.injEq,
    List.cons.injEq, Prod.mk.injEq, Json.string.injEq, true_and] at h
  rw [h.1, TimeUnit.fields_inj h.2]

theorem NonFinite.word_inj {a b : NonFinite} (h : a.word = b.word) : a = b := by
  revert h
  cases a <;> cases b <;> decide

/-- A literal is told by the name of its type and its value. -/
theorem Literal.hinted_eq_of_toJson {l m : Literal} (h : l.toJson = m.toJson) :
    l.hinted = m.hinted := by
  simp only [Literal.toJson, Json.object.injEq, List.cons.injEq, Prod.mk.injEq,
    Json.string.injEq, true_and, and_true] at h
  obtain ⟨htype, hvalue⟩ := h
  -- Literals of two types have two names.
  cases l <;> cases m <;> try exact absurd htype (by simp only [typeName]; decide)
  case null.null hint hint' =>
    have hhint : hint.getD "" = hint'.getD "" := by
      simpa [Literal.valueToJson, Json.strings] using hvalue
    rw [Literal.hinted, Literal.hinted, hhint]
  case nonFinite.nonFinite value value' =>
    rw [NonFinite.word_inj (Json.string.inj hvalue)]
  all_goals
    cases hvalue
    rfl

theorem Literal.toJson_hinted (l : Literal) : l.hinted.toJson = l.toJson := by
  cases l <;> rfl

/-! ## Expressions -/

/-- An operation is told by its word and its operands. -/
theorem Expr.binaryToJson_inj {word word' : String} {left left' right right' : Json}
    (h : binaryToJson word left right = binaryToJson word' left' right') :
    word = word' ∧ left = left' ∧ right = right' := by
  simp only [binaryToJson, Json.object.injEq, List.cons.injEq, Prod.mk.injEq, true_and,
    and_true, Json.string.injEq] at h
  exact ⟨h.2.2, h.1, h.2.1⟩

/-- Expressions with the same JSON are of one kind. -/
theorem Expr.nodeType_eq {e e' : Expr} (h : e.toJson = e'.toJson) : e.nodeType = e'.nodeType :=
  e.hasType_toJson.unique (h ▸ e'.hasType_toJson)

mutual

/-- An expression is told by its JSON, but for empty hints.  The recursion is on the first
of the two; the second is of the same kind. -/
theorem Expr.hinted_eq_of_toJson : ∀ e e' : Expr, e.toJson = e'.toJson → e.hinted = e'.hinted
  | .property p, e', h => by
    cases e' with
    | property p' => exact congrArg Expr.property (Property.toJson_inj h)
    | _ => cases Expr.nodeType_eq h
  | .literal l, e', h => by
    cases e' with
    | literal l' => exact congrArg Expr.literal (Literal.hinted_eq_of_toJson h)
    | _ => cases Expr.nodeType_eq h
  | .now unit, e', h => by
    cases e' with
    | now unit' =>
      simp only [Expr.toJson, List.cons_append, List.nil_append, Json.object.injEq,
        List.cons.injEq, true_and] at h
      rw [TimeUnit.fields_inj h]
    | _ => cases Expr.nodeType_eq h
  | .cast value target, e', h => by
    cases e' with
    | cast value' target' =>
      simp only [Expr.toJson, Json.object.injEq, List.cons.injEq, Prod.mk.injEq, true_and,
        and_true, Json.array.injEq, Json.string.injEq] at h
      have htarget : target = target' := Keyword.eq_of_word_eq h.2
      rw [Expr.hinted, Expr.hinted, Literal.hinted_eq_of_toJson h.1, htarget]
    | _ => cases Expr.nodeType_eq h
  | .call f args, e', h => by
    cases e' with
    | call f' args' =>
      simp only [Expr.toJson, Json.object.injEq, List.cons.injEq, Prod.mk.injEq, true_and,
        and_true, Json.array.injEq, Json.string.injEq] at h
      have hf : f = f' := Keyword.eq_of_word_eq h.2
      rw [Expr.hinted, Expr.hinted, Expr.allHinted_eq_of_toJson args args' h.1, hf]
    | _ => cases Expr.nodeType_eq h
  | .lambda param body, e', h => by
    cases e' with
    | lambda param' body' =>
      simp only [Expr.toJson, Json.object.injEq, List.cons.injEq, Prod.mk.injEq, true_and,
        and_true, Json.array.injEq] at h
      have hparam : param = param' := congrArg Property.name (Property.toJson_inj h.1)
      rw [Expr.hinted, Expr.hinted, Expr.hinted_eq_of_toJson body body' h.2, hparam]
    | _ => cases Expr.nodeType_eq h
  | .math op left right, e', h => by
    cases e' with
    | math op' left' right' =>
      obtain ⟨hop, hleft, hright⟩ := Expr.binaryToJson_inj h
      have hop : op = op' := Keyword.eq_of_word_eq hop
      rw [Expr.hinted, Expr.hinted, Expr.hinted_eq_of_toJson left left' hleft,
        Expr.hinted_eq_of_toJson right right' hright, hop]
    | _ => cases Expr.nodeType_eq h
  | .comparison op left right, e', h => by
    cases e' with
    | comparison op' left' right' =>
      obtain ⟨hop, hleft, hright⟩ := Expr.binaryToJson_inj h
      have hop : op = op' := Keyword.eq_of_word_eq hop
      rw [Expr.hinted, Expr.hinted, Expr.hinted_eq_of_toJson left left' hleft,
        Expr.hinted_eq_of_toJson right right' hright, hop]
    | _ => cases Expr.nodeType_eq h
  | .logical op left right, e', h => by
    cases e' with
    | logical op' left' right' =>
      obtain ⟨hop, hleft, hright⟩ := Expr.binaryToJson_inj h
      have hop : op = op' := Keyword.eq_of_word_eq hop
      rw [Expr.hinted, Expr.hinted, Expr.hinted_eq_of_toJson left left' hleft,
        Expr.hinted_eq_of_toJson right right' hright, hop]
    | _ => cases Expr.nodeType_eq h

theorem Expr.allHinted_eq_of_toJson :
    ∀ es es' : List Expr, Expr.listToJson es = Expr.listToJson es' →
      Expr.allHinted es = Expr.allHinted es'
  | [], [], _ => rfl
  | e :: es, e' :: es', h => by
    obtain ⟨hfirst, hothers⟩ := List.cons.inj h
    rw [Expr.allHinted, Expr.allHinted, Expr.hinted_eq_of_toJson e e' hfirst,
      Expr.allHinted_eq_of_toJson es es' hothers]

end

/-! ## Stages -/

theorem Aggregate.toJson_inj {a b : Aggregate} (h : a.toJson = b.toJson) : a = b := by
  obtain ⟨method, property⟩ := a
  obtain ⟨method', property'⟩ := b
  simp only [Aggregate.toJson, Json.object.injEq, List.cons.injEq, Prod.mk.injEq, true_and,
    and_true, Json.array.injEq, Json.string.injEq] at h
  have hmethod : method = method' := Keyword.eq_of_word_eq h.2
  rw [hmethod, Property.toJson_inj h.1]

/-- What stands for no expression has a type of its own. -/
theorem Expr.nodeType_ne (e : Expr) :
    e.nodeType ≠ .aggregate ∧ e.nodeType ≠ .named ∧ e.nodeType ≠ .stage := by
  cases e <;> exact ⟨nofun, nofun, nofun⟩

theorem NamedValue.nodeType_eq {v w : NamedValue} (h : v.toJson = w.toJson) :
    v.nodeType = w.nodeType :=
  v.hasType_toJson.unique (h ▸ w.hasType_toJson)

theorem NamedValue.hinted_eq_of_toJson {v w : NamedValue} (h : v.toJson = w.toJson) :
    v.hinted = w.hinted := by
  cases v with
  | expr e =>
    cases w with
    | expr e' => exact congrArg NamedValue.expr (Expr.hinted_eq_of_toJson e e' h)
    | aggregate b => exact absurd (NamedValue.nodeType_eq h) e.nodeType_ne.1
  | aggregate a =>
    cases w with
    | expr e' => exact absurd (NamedValue.nodeType_eq h).symm e'.nodeType_ne.1
    | aggregate b => exact congrArg NamedValue.aggregate (Aggregate.toJson_inj h)

/-- A stage is told by its kind and its arguments. -/
theorem StageKind.stageToJson_inj {kind kind' : StageKind} {args args' : List Json}
    (h : kind.stageToJson args = kind'.stageToJson args') : kind = kind' ∧ args = args' := by
  simp only [StageKind.stageToJson, Json.object.injEq, List.cons.injEq, Prod.mk.injEq, true_and,
    and_true, Json.array.injEq, Json.string.injEq] at h
  exact ⟨Keyword.eq_of_word_eq h.2, h.1⟩

theorem StageArg.nodeType_eq {a a' : StageArg} (h : a.toJson = a'.toJson) :
    a.nodeType = a'.nodeType :=
  a.hasType_toJson.unique (h ▸ a'.hasType_toJson)

mutual

/-- An argument of a stage is told by its JSON, but for empty hints. -/
theorem StageArg.hinted_eq_of_toJson :
    ∀ a a' : StageArg, a.toJson = a'.toJson → a.hinted = a'.hinted
  | .expr e, a', h => by
    cases a' with
    | expr e' => exact congrArg StageArg.expr (Expr.hinted_eq_of_toJson e e' h)
    | named => exact absurd (StageArg.nodeType_eq h) e.nodeType_ne.2.1
    | stage => exact absurd (StageArg.nodeType_eq h) e.nodeType_ne.2.2
  | .named name value, a', h => by
    cases a' with
    | expr e' => exact absurd (StageArg.nodeType_eq h).symm e'.nodeType_ne.2.1
    | named name' value' =>
      simp only [StageArg.toJson, Json.object.injEq, List.cons.injEq, Prod.mk.injEq, true_and,
        and_true, Json.string.injEq] at h
      rw [StageArg.hinted, StageArg.hinted, NamedValue.hinted_eq_of_toJson h.1, h.2]
    | stage => cases StageArg.nodeType_eq h
  | .stage kind args, a', h => by
    cases a' with
    | expr e' => exact absurd (StageArg.nodeType_eq h).symm e'.nodeType_ne.2.2
    | named => cases StageArg.nodeType_eq h
    | stage kind' args' =>
      obtain ⟨hkind, hargs⟩ := StageKind.stageToJson_inj h
      rw [StageArg.hinted, StageArg.hinted, StageArg.allHinted_eq_of_toJson args args' hargs,
        hkind]

theorem StageArg.allHinted_eq_of_toJson :
    ∀ as as' : List StageArg, StageArg.listToJson as = StageArg.listToJson as' →
      StageArg.allHinted as = StageArg.allHinted as'
  | [], [], _ => rfl
  | a :: as, a' :: as', h => by
    obtain ⟨hfirst, hothers⟩ := List.cons.inj h
    rw [StageArg.allHinted, StageArg.allHinted, StageArg.hinted_eq_of_toJson a a' hfirst,
      StageArg.allHinted_eq_of_toJson as as' hothers]

end

theorem Transformation.hinted_eq_of_toJson {t t' : Transformation} (h : t.toJson = t'.toJson) :
    t.hinted = t'.hinted := by
  obtain ⟨hkind, hargs⟩ := StageKind.stageToJson_inj h
  rw [Transformation.hinted, Transformation.hinted, hkind,
    StageArg.allHinted_eq_of_toJson _ _ hargs]

/-! ## Hints are not told -/

theorem Expr.toJson_hinted_and_all :
    (∀ e : Expr, e.hinted.toJson = e.toJson) ∧
      ∀ es : List Expr, Expr.listToJson (Expr.allHinted es) = Expr.listToJson es := by
  refine Expr.hinted.mutual_induct _ _ ?property ?literal ?now ?cast ?call ?lambda ?math
    ?comparison ?logical ?nil ?cons
  case property | now => exact fun _ => rfl
  case literal => exact fun l => l.toJson_hinted
  case cast =>
    intro value target
    simp only [Expr.hinted, Expr.toJson, Literal.toJson_hinted]
  case call =>
    intro f args ih
    simp only [Expr.hinted, Expr.toJson, ih]
  case lambda =>
    intro param body ih
    simp only [Expr.hinted, Expr.toJson, ih]
  case math | comparison | logical =>
    intro op left right hleft hright
    simp only [Expr.hinted, Expr.toJson, hleft, hright]
  case nil => rfl
  case cons =>
    intro e es hfirst hothers
    simp only [Expr.allHinted, Expr.listToJson, hfirst, hothers]

theorem Expr.toJson_hinted (e : Expr) : e.hinted.toJson = e.toJson :=
  Expr.toJson_hinted_and_all.1 e

theorem NamedValue.toJson_hinted (v : NamedValue) : v.hinted.toJson = v.toJson := by
  cases v with
  | expr e => exact e.toJson_hinted
  | aggregate a => rfl

theorem StageArg.toJson_hinted_and_all :
    (∀ a : StageArg, a.hinted.toJson = a.toJson) ∧
      ∀ as : List StageArg, StageArg.listToJson (StageArg.allHinted as) =
        StageArg.listToJson as := by
  refine StageArg.hinted.mutual_induct _ _ ?expr ?named ?stage ?nil ?cons
  case expr => exact fun e => e.toJson_hinted
  case named =>
    intro name v
    simp only [StageArg.hinted, StageArg.toJson, NamedValue.toJson_hinted]
  case stage =>
    intro kind as ih
    simp only [StageArg.hinted, StageArg.toJson, ih]
  case nil => rfl
  case cons =>
    intro a as hfirst hothers
    simp only [StageArg.allHinted, StageArg.listToJson, hfirst, hothers]

theorem Transformation.toJson_hinted (t : Transformation) : t.hinted.toJson = t.toJson := by
  rw [Transformation.hinted, Transformation.toJson, Transformation.toJson,
    StageArg.toJson_hinted_and_all.2]

end OData
