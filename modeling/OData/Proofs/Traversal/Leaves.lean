import OData.Proofs.Traversal.Tracing

/-!
# Every literal and every property is visited once

A visitor that is told of one kind of parts only still comes to all of them.  The literals of a
query are those of its key predicates, and those of the expressions in its options, stages and
expanded options; its properties are those of expressions and aggregates.  Both are listed here
along the query, with nothing said about visits (`Query.literals`, `Query.properties`).

A visitor that does something at literals, and nothing else of its own, does it at the literals of
the list, each once and in that order; and so for properties.  A visitor that does something at
every part comes to the same literals and properties among its other parts (`visits_leaves`).
-/
namespace OData

/-! ## The lists -/

mutual

/-- **The literals of an expression**, from left to right. -/
def Expr.literals : Expr → List Literal
  | .literal l => [l]
  | .cast value _ => [value]
  | .property _ | .now _ => []
  | .call _ args => Expr.allLiterals args
  | .lambda _ body => Expr.literals body
  | .math _ left right => Expr.literals left ++ Expr.literals right
  | .comparison _ left right => Expr.literals left ++ Expr.literals right
  | .logical _ left right => Expr.literals left ++ Expr.literals right

/-- The literals of expressions. -/
def Expr.allLiterals : List Expr → List Literal
  | [] => []
  | e :: es => Expr.literals e ++ Expr.allLiterals es

end

mutual

/-- **The properties of an expression**, from left to right.  The variable of a lambda is none. -/
def Expr.properties : Expr → List Property
  | .property p => [p]
  | .literal _ | .now _ | .cast _ _ => []
  | .call _ args => Expr.allProperties args
  | .lambda _ body => Expr.properties body
  | .math _ left right => Expr.properties left ++ Expr.properties right
  | .comparison _ left right => Expr.properties left ++ Expr.properties right
  | .logical _ left right => Expr.properties left ++ Expr.properties right

/-- The properties of expressions. -/
def Expr.allProperties : List Expr → List Property
  | [] => []
  | e :: es => Expr.properties e ++ Expr.allProperties es

end

/-- The literals of a named value. -/
def NamedValue.literals : NamedValue → List Literal
  | .expr e => e.literals
  | .aggregate _ => []

/-- The properties of a named value. -/
def NamedValue.properties : NamedValue → List Property
  | .expr e => e.properties
  | .aggregate a => [a.property]

mutual

/-- **The literals of an argument of a stage.** -/
def StageArg.literals : StageArg → List Literal
  | .expr e => e.literals
  | .named _ value => value.literals
  | .stage _ args => StageArg.allLiterals args

/-- The literals of arguments. -/
def StageArg.allLiterals : List StageArg → List Literal
  | [] => []
  | a :: as => StageArg.literals a ++ StageArg.allLiterals as

end

mutual

/-- **The properties of an argument of a stage.** -/
def StageArg.properties : StageArg → List Property
  | .expr e => e.properties
  | .named _ value => value.properties
  | .stage _ args => StageArg.allProperties args

/-- The properties of arguments. -/
def StageArg.allProperties : List StageArg → List Property
  | [] => []
  | a :: as => StageArg.properties a ++ StageArg.allProperties as

end

/-- The literals of a path segment: the values of its predicates. -/
def PathSegment.literals (s : PathSegment) : List Literal :=
  (s.predicates.getD []).map KeyPredicate.value

mutual

/-- **The literals of a query**: those of its path, of what is expanded, of its filter and of its
stages. -/
def Query.literals : Query → List Literal
  | ⟨path, _, expand, filter, _, _, _, _, _, _, _, apply⟩ =>
    (path.getD []).flatMap PathSegment.literals ++
      ((match expand with
        | some items => ExpandItem.allLiterals items
        | none => []) ++
        (filter.toList.flatMap Expr.literals ++
          (apply.getD []).flatMap fun t => t.toArg.literals))

/-- The literals of an expanded path: those of its options. -/
def ExpandItem.literals : ExpandItem → List Literal
  | ⟨_, options⟩ => Query.literals options

/-- The literals of expanded paths. -/
def ExpandItem.allLiterals : List ExpandItem → List Literal
  | [] => []
  | i :: is => ExpandItem.literals i ++ ExpandItem.allLiterals is

end

mutual

/-- **The properties of a query**: those of what is expanded, of its filter and of its stages. -/
def Query.properties : Query → List Property
  | ⟨_, _, expand, filter, _, _, _, _, _, _, _, apply⟩ =>
    (match expand with
      | some items => ExpandItem.allProperties items
      | none => []) ++
      (filter.toList.flatMap Expr.properties ++
        (apply.getD []).flatMap fun t => t.toArg.properties)

/-- The properties of an expanded path: those of its options. -/
def ExpandItem.properties : ExpandItem → List Property
  | ⟨_, options⟩ => Query.properties options

/-- The properties of expanded paths. -/
def ExpandItem.allProperties : List ExpandItem → List Property
  | [] => []
  | i :: is => ExpandItem.properties i ++ ExpandItem.allProperties is

end

/-! ## Leaves of outlines -/

/-- The literal that a part is. -/
def Part.literal? : Part → Option Literal
  | .literal l => some l
  | _ => none

/-- The property that a part is. -/
def Part.property? : Part → Option Property
  | .property p => some p
  | _ => none

/-- The literals and the properties that are reached in outlines. -/
structure Outline.Leaves (enters : Part → Bool) (os : List Outline) (ls : List Literal)
    (ps : List Property) : Prop where
  literals : (os.flatMap (reached enters)).filterMap Part.literal? = ls
  properties : (os.flatMap (reached enters)).filterMap Part.property? = ps

namespace Outline.Leaves
variable {enters : Part → Bool} {os os' : List Outline} {ls ls' : List Literal}
  {ps ps' : List Property}

theorem nil : Leaves enters [] [] [] := ⟨rfl, rfl⟩

theorem append (h : Leaves enters os ls ps) (h' : Leaves enters os' ls' ps') :
    Leaves enters (os ++ os') (ls ++ ls') (ps ++ ps') := by
  constructor
  · rw [List.flatMap_append, List.filterMap_append, h.literals, h'.literals]
  · rw [List.flatMap_append, List.filterMap_append, h.properties, h'.properties]

theorem cons {o : Outline} (h : Leaves enters [o] ls ps) (h' : Leaves enters os ls' ps') :
    Leaves enters (o :: os) (ls ++ ls') (ps ++ ps') := h.append h'

theorem each {α : Type} {g : α → Outline} {f : α → List Literal} {f' : α → List Property}
    (h : ∀ a, Leaves enters [g a] (f a) (f' a)) (l : List α) :
    Leaves enters (l.map g) (l.flatMap f) (l.flatMap f') := by
  induction l with
  | nil => exact nil
  | cons a l ih => exact (h a).cons ih

/-- Where there are no properties in any outline, there are none in all of them. -/
theorem eachOnly {α : Type} {g : α → Outline} {f : α → List Literal}
    (h : ∀ a, Leaves enters [g a] (f a) []) (l : List α) :
    Leaves enters (l.map g) (l.flatMap f) [] := by
  have heach := each h l
  rwa [List.flatMap_eq_nil_iff.2 fun _ _ => rfl] at heach

theorem literal (l : Literal) : Leaves enters [l.outline] [l] [] := by
  constructor <;> simp [Literal.outline, reached_node, Part.literal?, Part.property?]

theorem property (p : Property) : Leaves enters [p.outline] [] [p] := by
  constructor <;> simp [Property.outline, reached_node, Part.literal?, Part.property?]

/-- What is in a part that is gone into counts, and the part itself does not. -/
theorem node {part : Part} (h : Leaves enters os ls ps) (henters : enters part = true)
    (hliteral : part.literal? = none) (hproperty : part.property? = none) :
    Leaves enters [.node part os] ls ps := by
  constructor
  · simp [reached_node, henters, List.filterMap_cons_none hliteral, h.literals]
  · simp [reached_node, henters, List.filterMap_cons_none hproperty, h.properties]

section Trees
variable (hinto : ∀ p : Part, p.literal? = none → p.property? = none → enters p = true)
include hinto

/-- What is in a part that is neither a literal nor a property counts, and it alone. -/
theorem within {p : Part} (h : Leaves enters os ls ps) (hliteral : p.literal? = none)
    (hproperty : p.property? = none) : Leaves enters [.node p os] ls ps :=
  h.node (hinto p hliteral hproperty) hliteral hproperty

theorem expr_and_exprs : (∀ e, Leaves enters [Expr.outline e] e.literals e.properties) ∧
    ∀ es, Leaves enters (Expr.outlines es) (Expr.allLiterals es) (Expr.allProperties es) := by
  refine Expr.outline.mutual_induct _ _ ?property ?literal ?now ?cast ?call ?lambda ?math
    ?comparison ?logical ?nil ?cons
  case property => exact fun p => (property p).within hinto rfl rfl
  case literal => exact fun l => (literal l).within hinto rfl rfl
  case now => exact fun _ => nil.within hinto rfl rfl
  case cast => exact fun value _ => (literal value).within hinto rfl rfl
  case call | lambda => exact fun _ _ ih => (ih.within hinto rfl rfl).within hinto rfl rfl
  case math | comparison | logical =>
    exact fun _ _ _ hleft hright => (hleft.cons hright).within hinto rfl rfl
  case nil => exact nil
  case cons => exact fun _ _ he hes => he.cons hes

theorem expr (e : Expr) : Leaves enters [e.outline] e.literals e.properties :=
  (expr_and_exprs hinto).1 e

theorem named (name : String) (value : NamedValue) :
    Leaves enters [value.outline name] value.literals value.properties := by
  cases value with
  | expr e => exact (expr hinto e).within hinto rfl rfl
  | aggregate a => exact ((property a.property).within hinto rfl rfl).within hinto rfl rfl

theorem arg_and_args :
    (∀ a, Leaves enters [StageArg.outline a] a.literals a.properties) ∧
    ∀ as, Leaves enters (StageArg.outlines as) (StageArg.allLiterals as)
      (StageArg.allProperties as) := by
  refine StageArg.outline.mutual_induct _ _ ?expr ?named ?stage ?nil ?cons
  case expr => exact expr hinto
  case named => exact named hinto
  case stage => exact fun _ _ ih => ih.within hinto rfl rfl
  case nil => exact nil
  case cons => exact fun _ _ ha has => ha.cons has

theorem pathSegment (s : PathSegment) : Leaves enters [s.outline] s.literals [] := by
  have h := eachOnly (fun p : KeyPredicate => @literal enters p.value) (s.predicates.getD [])
  rw [← List.map_eq_flatMap] at h
  exact h.within hinto rfl rfl

/-- Nothing counts in parts that hold nothing. -/
theorem bare {α : Type} {g : α → Part} (hliteral : ∀ a, (g a).literal? = none)
    (hproperty : ∀ a, (g a).property? = none) (l : List α) :
    Leaves enters (l.map fun a => .node (g a) []) [] [] := by
  have h := eachOnly (fun a => nil.within hinto (hliteral a) (hproperty a)) l
  rwa [List.flatMap_eq_nil_iff.2 fun _ _ => rfl] at h

theorem query_and_items :
    (∀ q, Leaves enters [Query.outline q] q.literals q.properties) ∧
    (∀ is, Leaves enters (ExpandItem.outlines is) (ExpandItem.allLiterals is)
      (ExpandItem.allProperties is)) ∧
    ∀ i, Leaves enters [ExpandItem.outline i] i.literals i.properties := by
  refine Query.outline.mutual_induct _ _ _ ?query ?item ?nil ?cons
  case query =>
    intro path select expand filter orderBy callback format search count skip top apply hexpand
    have hpath := eachOnly (pathSegment hinto) (path.getD [])
    have hselect := bare hinto (g := .selectItem) (fun _ => rfl) (fun _ => rfl) (select.getD [])
    have hfilter := each (expr hinto) filter.toList
    have horder := bare hinto (g := .orderByItem) (fun _ => rfl) (fun _ => rfl) (orderBy.getD [])
    have happly := each (fun t : Transformation => (arg_and_args hinto).1 t.toArg) (apply.getD [])
    cases expand with
    | none =>
      exact (hpath.append (hselect.append
        (nil.append (hfilter.append (horder.append happly))))).within hinto
          (p := .query _) rfl rfl
    | some items =>
      exact (hpath.append (hselect.append
        (append hexpand (hfilter.append (horder.append happly))))).within hinto
          (p := .query _) rfl rfl
  case item => exact fun path options ih => ih.within hinto rfl rfl
  case nil => exact nil
  case cons => exact fun _ _ hi his => hi.cons his

/-- The literals and the properties that are reached in a query are those of its lists. -/
theorem query (q : Query) : Leaves enters [q.outline] q.literals q.properties :=
  (query_and_items hinto).1 q

end Trees

end Outline.Leaves

/-! ## Visitors of leaves -/

namespace Visitor
variable {m : Type → Type} [Monad m]

/-- **The visitor that does something at literals**, and nothing else of its own. -/
def ofLiterals (onLiteral : Literal → m Unit) : Visitor m where
  literal := fun l _ => onLiteral l

/-- **The visitor that does something at properties**, and nothing else of its own. -/
def ofProperties (onProperty : Property → m Unit) : Visitor m where
  property := fun p _ => onProperty p

/-- **The visitor that does something at every part**, and then goes into it. -/
def ofParts (onPart : Part → m Unit) : Visitor m where
  query := fun q descend => do onPart (.query q); descend
  pathSegment := fun s descend => do onPart (.pathSegment s); descend
  selectItem := fun i descend => do onPart (.selectItem i); descend
  expandItem := fun i descend => do onPart (.expandItem i); descend
  orderByItem := fun i descend => do onPart (.orderByItem i); descend
  transformation := fun t descend => do onPart (.transformation t); descend
  named := fun name value descend => do onPart (.named name value); descend
  aggregate := fun a descend => do onPart (.aggregate a); descend
  expr := fun e descend => do onPart (.expr e); descend
  call := fun function args descend => do onPart (.call function args); descend
  lambda := fun param body descend => do onPart (.lambda param body); descend
  property := fun p descend => do onPart (.property p); descend
  literal := fun l descend => do onPart (.literal l); descend

variable [LawfulMonad m]

theorem visitQuery_ofLiterals (onLiteral : Literal → m Unit) (q : Query) :
    (ofLiterals onLiteral).visitQuery q = visitEach onLiteral q.literals := by
  have hmeet : ∀ part inside, (ofLiterals onLiteral).meet part inside =
      part.literal?.elim inside onLiteral := fun part _ => by cases part <;> rfl
  have hleaves : Outline.Leaves (fun part => part.literal?.isNone) [q.outline] q.literals
      q.properties :=
    .query (fun _ hliteral _ => Option.isNone_iff_eq_none.2 hliteral) q
  rw [visitQuery_pick hmeet, ← hleaves.literals, List.flatMap_singleton]

theorem visitQuery_ofProperties (onProperty : Property → m Unit) (q : Query) :
    (ofProperties onProperty).visitQuery q = visitEach onProperty q.properties := by
  have hmeet : ∀ part inside, (ofProperties onProperty).meet part inside =
      part.property?.elim inside onProperty := fun part _ => by cases part <;> rfl
  have hleaves : Outline.Leaves (fun part => part.property?.isNone) [q.outline] q.literals
      q.properties :=
    .query (fun _ _ hproperty => Option.isNone_iff_eq_none.2 hproperty) q
  rw [visitQuery_pick hmeet, ← hleaves.properties, List.flatMap_singleton]

theorem visitQuery_ofParts (onPart : Part → m Unit) (q : Query) :
    (ofParts onPart).visitQuery q = visitEach onPart q.outline.parts := by
  have hmeet : (ofParts onPart).meet = fun part inside => (do
      onPart part
      if true then inside else pure ()) := by
    funext part inside
    cases part <;> rfl
  rw [visitQuery_eq, hmeet, Outline.visit_eq (fun _ => true), Outline.reached_all]

/-- What is counted is how often it is done. -/
theorem visitEach_count {α : Type} (l : List α) (n : Nat) :
    (visitEach (m := StateM Nat) (fun _ => modify fun n => n + 1) l n).2 = n + l.length := by
  induction l generalizing n with
  | nil => rfl
  | cons a l ih =>
    calc (visitEach (m := StateM Nat) (fun _ => modify fun n => n + 1) (a :: l) n).2
      _ = n + 1 + l.length := ih (n + 1)
      _ = n + (l.length + 1) := by omega

end Visitor

/-! ## Events of leaves -/

/-- **The tracing that leaves nothing out** and never breaks off. -/
def Tracing.whole : Tracing where
  skips := fun _ => false
  stops := fun _ _ => false

theorem Tracing.trace_whole (q : Query) :
    whole.trace q = ⟨q.outline.parts.map Part.event, none⟩ := by
  have hevents : whole.events q = q.outline.parts.map Part.event := by
    rw [← Outline.reached_all, Outline.reached, List.map_map]
    rfl
  rw [trace_eq, hevents, Trace.cut, List.find?_eq_none.2]
  exact fun _ _ => Bool.false_ne_true

/-- The events of a kind are those of the parts that are picked, if these are of that kind and no
others are. -/
theorem Part.filter_hook {α : Type} {pick : Part → Option α} {f : α → Event} {hook : Hook}
    (h : ∀ part : Part, (if part.event.hook = hook then some part.event else none) =
      (pick part).map f) (parts : List Part) :
    (parts.map event).filter (fun e => e.hook = hook) = (parts.filterMap pick).map f := by
  induction parts with
  | nil => rfl
  | cons part parts ih =>
    have hpart := h part
    cases hpick : pick part with
    | none =>
      have hne : part.event.hook ≠ hook := by simpa [hpick] using hpart
      rw [List.map_cons, List.filter_cons_of_neg (by simpa using hne),
        List.filterMap_cons_none hpick, ih]
    | some a =>
      obtain ⟨heq, hevent⟩ : part.event.hook = hook ∧ part.event = f a := by
        simpa [hpick] using hpart
      rw [List.map_cons, List.filter_cons_of_pos (by simpa using heq),
        List.filterMap_cons_some hpick, List.map_cons, ih, hevent]

theorem Query.countLiterals_eq (q : Query) : q.countLiterals = q.literals.length := by
  have h : q.countLiterals = ((Visitor.ofLiterals (m := StateM Nat)
      fun _ => modify fun n => n + 1).visitQuery q 0).2 := rfl
  rw [h, Visitor.visitQuery_ofLiterals, Visitor.visitEach_count, Nat.zero_add]

theorem Query.firstProperty_eq (q : Query) :
    q.firstProperty = q.properties.head?.map Property.name := by
  have h : Visitor.visitQuery (m := Except String) { property := fun p _ => throw p.name } q =
      Visitor.visitEach (fun p => throw p.name) q.properties :=
    Visitor.visitQuery_ofProperties _ q
  rw [firstProperty, h]
  cases q.properties <;> rfl

/-- **Every literal and every property of a query is visited once, in the order of the lists**, by
a visitor of literals, by one of properties, and by one of all parts.  The whole trace has their
events, and no others of these kinds.  So the literals are counted right, and the first property of
the trace is the one that is found. -/
theorem visits_leaves {m : Type → Type} [Monad m] [LawfulMonad m] (onLiteral : Literal → m Unit)
    (onProperty : Property → m Unit) (onPart : Part → m Unit) (q : Query) :
    (Visitor.ofLiterals onLiteral).visitQuery q = Visitor.visitEach onLiteral q.literals ∧
      (Visitor.ofProperties onProperty).visitQuery q =
        Visitor.visitEach onProperty q.properties ∧
      (Visitor.ofParts onPart).visitQuery q = Visitor.visitEach onPart q.outline.parts ∧
      q.outline.parts.filterMap Part.literal? = q.literals ∧
      q.outline.parts.filterMap Part.property? = q.properties ∧
      (Tracing.whole.trace q).events.filter (fun e => e.hook = .literal) =
        q.literals.map (fun l => (Part.literal l).event) ∧
      (Tracing.whole.trace q).events.filter (fun e => e.hook = .property) =
        q.properties.map (fun p => (Part.property p).event) ∧
      q.countLiterals = q.literals.length ∧
      q.firstProperty = q.properties.head?.map Property.name ∧
      (Tracing.whole.trace q).events.find? (fun e => e.hook = .property) =
        q.properties.head?.map fun p => (Part.property p).event := by
  obtain ⟨hliterals, hproperties⟩ := Outline.Leaves.query (fun _ _ _ => rfl) q
  rw [List.flatMap_singleton, Outline.reached_all] at hliterals hproperties
  have hliteralEvents : (q.outline.parts.map Part.event).filter (fun e => e.hook = .literal) =
      q.literals.map fun l => (Part.literal l).event :=
    hliterals ▸ Part.filter_hook (fun part => by cases part <;> rfl) q.outline.parts
  have hpropertyEvents : (q.outline.parts.map Part.event).filter (fun e => e.hook = .property) =
      q.properties.map fun p => (Part.property p).event :=
    hproperties ▸ Part.filter_hook (fun part => by cases part <;> rfl) q.outline.parts
  refine ⟨Visitor.visitQuery_ofLiterals onLiteral q, Visitor.visitQuery_ofProperties onProperty q,
    Visitor.visitQuery_ofParts onPart q, hliterals, hproperties, ?_, ?_, q.countLiterals_eq,
    q.firstProperty_eq, ?_⟩
  · rw [Tracing.trace_whole, hliteralEvents]
  · rw [Tracing.trace_whole, hpropertyEvents]
  · rw [Tracing.trace_whole, ← List.head?_filter, hpropertyEvents, List.head?_map]

/-- A query with literals and properties in every place: in predicates, in expanded options, in a
cast, in a lambda, and in a stage inside a stage. -/
def leafy : Query where
  path := some [⟨"Orders", some [.positional (.integer 1), .named "K" (.string "a")]⟩]
  expand := some [.mk "Lines" { filter := some (.math .add (.cast (.decimal "2.5") .int32)
    (.property (.ofName "L"))) }]
  filter := some (.call .any [.property (.ofName "Items"),
    .lambda "i" (.comparison .eq (.property (.ofName "i/Q")) (.literal (.integer 3)))])
  apply := some [⟨.expand, [.expr (.property (.ofName "N")),
      .stage .filter [.expr (.literal (.boolean true))]]⟩,
    ⟨.aggregate, [.named "T" (.aggregate ⟨.sum, .ofName "P"⟩)]⟩]

theorem visits_leafy :
    ((Visitor.ofLiterals (m := StateM (List Literal)) fun l => modify (· ++ [l])).visitQuery
        leafy []).2 =
      [.integer 1, .string "a", .decimal "2.5", .integer 3, .boolean true] ∧
    ((Visitor.ofParts (m := StateM (List Literal))
        fun p => modify (· ++ p.literal?.toList)).visitQuery leafy []).2 = leafy.literals ∧
    leafy.outline.parts.filterMap Part.property? =
      [.ofName "L", .ofName "Items", .ofName "i/Q", .ofName "N", .ofName "P"] ∧
    leafy.countLiterals = 5 ∧ leafy.firstProperty = some "L" := by
  obtain ⟨hliterals, -, hparts, -, hproperties, -, -, hcount, hfirst, -⟩ :=
    visits_leaves (m := StateM (List Literal)) (fun l => modify (· ++ [l])) (fun _ => pure ())
      (fun p => modify (· ++ p.literal?.toList)) leafy
  rw [hliterals, hparts, hproperties, hcount, hfirst]
  exact ⟨rfl, rfl, rfl, rfl, rfl⟩

end OData
