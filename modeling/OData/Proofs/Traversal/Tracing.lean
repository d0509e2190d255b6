import OData.Proofs.Traversal.Outline
import OData.Traversal.Trace

/-!
# Traces are cut from the outline

A trace records the parts of a query from the top.  It may be told to leave out what is in parts
of some kinds, and to break off after an event.  Both only ever cut it.  What is left out are the
parts around which there is one of those kinds; what else there is, is recorded in the order of the
outline up to the first event after which the trace breaks off, and with that event
(`trace_eq_cut`).  So nothing is recorded after a trace has broken off, however deep in the query
that is, and it breaks off if there is such an event at all.
-/
namespace OData

/-- The event of a visit to a part. -/
def Part.event : Part → Event
  | .query _ => ⟨.query, ""⟩
  | .pathSegment s => ⟨.pathSegment, s.name⟩
  | .selectItem i => ⟨.selectItem, i⟩
  | .expandItem i => ⟨.expandItem, i.path⟩
  | .orderByItem i => ⟨.orderByItem, s!"{i.path} {i.direction.word}"⟩
  | .transformation t => ⟨.transformation, t.kind.word⟩
  | .named name _ => ⟨.named, name⟩
  | .aggregate a => ⟨.aggregate, a.method.word⟩
  | .expr e => ⟨.expr, e.form⟩
  | .call function _ => ⟨.call, function.word⟩
  | .lambda param _ => ⟨.lambda, param⟩
  | .property p => ⟨.property, "|".intercalate p.segments⟩
  | .literal l => ⟨.literal, l.typeName⟩

/-- **Events, cut right after the first at which they are to stop.** -/
def Trace.cut (stops : Nat → Event → Bool) (events : List Event) : Trace :=
  match (events.zipIdx 1).find? fun e => stops e.2 e.1 with
  | some (_, n) => ⟨events.take n, some n⟩
  | none => ⟨events, none⟩

theorem Trace.brokeAt_cut {stops : Nat → Event → Bool} {events : List Event} :
    (cut stops events).brokeAt =
      ((events.zipIdx 1).find? fun e => stops e.2 e.1).map Prod.snd := by
  unfold cut
  split <;> simp [*]

namespace Tracing
variable (t : Tracing)

/-- **The events of a query that a tracing does not leave out**: those of the parts around which
there is no part of a kind that it skips, from the top. -/
def events (q : Query) : List Event :=
  ((q.outline.places []).filter fun p => p.around.all fun a => !t.skips a.event.hook).map
    fun p => p.part.event

/-- Records an event, then breaks off, or goes on. -/
def log (e : Event) : Recorded Unit := do
  modify fun events => e :: events
  let n := (← get).length
  if t.stops n e then throw n else pure ()

theorem log_apply (e : Event) (before : List Event) :
    t.log e before =
      if t.stops (before.length + 1) e then .error (before.length + 1) (e :: before)
      else .ok () (e :: before) := by
  have h : t.log e before = (if t.stops (before.length + 1) e then throw (before.length + 1)
      else pure () : Recorded Unit) (e :: before) := rfl
  rw [h]
  split <;> rfl

theorem record_eq (e : Event) (descend : Recorded Unit) :
    t.record e descend = (do t.log e; if !t.skips e.hook then descend else pure ()) := by
  funext before
  have h : t.record e descend before =
      (if t.stops (before.length + 1) e then throw (before.length + 1)
      else if t.skips e.hook then pure () else descend : Recorded Unit) (e :: before) := rfl
  rw [h]
  show _ = EStateM.bind (t.log e) _ before
  rw [EStateM.bind, log_apply]
  cases t.stops (before.length + 1) e with
  | true => rfl
  | false => cases t.skips e.hook <;> rfl

/-- At each part the visitor that records everything logs the event of the part. -/
theorem meet_visitor : t.visitor.meet = fun part inside => (do
    t.log part.event
    if !t.skips part.event.hook then inside else pure ()) := by
  funext part inside
  rw [← record_eq]
  cases part <;> rfl

/-- A tracing logs the events that it does not leave out, one after the other. -/
theorem visitQuery_eq (q : Query) :
    t.visitor.visitQuery q = Visitor.visitEach t.log (t.events q) := by
  rw [Visitor.visitQuery_eq, meet_visitor, Outline.visit_eq (fun part => !t.skips part.event.hook)
    (fun part => t.log part.event), ← Visitor.visitEach_map, Outline.reached, List.map_map]
  rfl

/-- To log events one after the other is to stop at the first at which that is to be done, if
there is one.  Those before are kept with the latest first. -/
theorem visitEach_log (events before : List Event) :
    Visitor.visitEach t.log events before =
      match (events.zipIdx (before.length + 1)).find? fun e => t.stops e.2 e.1 with
      | some (_, n) => .error n ((events.take (n - before.length)).reverse ++ before)
      | none => .ok () (events.reverse ++ before) := by
  induction events generalizing before with
  | nil => rfl
  | cons e events ih =>
    show EStateM.bind (t.log e) _ before = _
    rw [EStateM.bind, log_apply, List.zipIdx_cons, List.find?_cons]
    cases t.stops (before.length + 1) e with
    | true => simp
    | false =>
      simp only [Bool.false_eq_true, if_false]
      rw [ih, List.length_cons]
      -- What stops later is counted with the event that is logged now.
      cases hfind : (events.zipIdx (before.length + 1 + 1)).find? fun e => t.stops e.2 e.1 with
      | none => simp
      | some stop =>
        obtain ⟨e', n⟩ := stop
        have hmem := List.mem_of_find?_eq_some hfind
        have hle := (List.mk_mem_zipIdx_iff_le_and_getElem?_sub.1 hmem).1
        obtain ⟨k, rfl⟩ := Nat.exists_eq_add_of_le hle
        have hlater : before.length + 1 + 1 + k - (before.length + 1) = k + 1 := by omega
        have hnow : before.length + 1 + 1 + k - before.length = k + 1 + 1 := by omega
        simp [hlater, hnow]

theorem trace_eq (q : Query) : t.trace q = .cut t.stops (t.events q) := by
  rw [trace, visitQuery_eq, visitEach_log, Trace.cut, List.length_nil]
  cases ((t.events q).zipIdx (0 + 1)).find? fun e => t.stops e.2 e.1 with
  | none | some stop => simp

end Tracing

/-- **A trace is the events that it does not leave out, cut right after the first at which it
breaks off.**  It breaks off if there is such an event, and only then. -/
theorem trace_eq_cut (t : Tracing) (q : Query) :
    t.trace q = .cut t.stops (t.events q) ∧
      ((t.trace q).brokeAt.isSome ↔
        ∃ i e, (t.events q)[i]? = some e ∧ t.stops (i + 1) e = true) := by
  refine ⟨t.trace_eq q, ?_⟩
  rw [t.trace_eq, Trace.brokeAt_cut, Option.isSome_map, List.find?_isSome]
  constructor
  · rintro ⟨⟨e, n⟩, hmem, hstops⟩
    obtain ⟨hle, he⟩ := List.mk_mem_zipIdx_iff_le_and_getElem?_sub.1 hmem
    refine ⟨n - 1, e, he, ?_⟩
    rwa [Nat.sub_add_cancel hle]
  · rintro ⟨i, e, he, hstops⟩
    have hmem := List.mk_mem_zipIdx_iff_le_and_getElem?_sub.2 ⟨Nat.le_add_left 1 i, he⟩
    exact ⟨(e, i + 1), hmem, hstops⟩

/-- What is in expanded paths is left out, and the trace breaks off at the first literal after
that. -/
example : Tracing.trace ⟨(· == .expandItem), fun _ e => e.hook == .literal⟩
    { expand := some [.mk "Lines" { filter := some (.literal (.boolean true)) }]
      filter := some (.comparison .eq (.property (.ofName "K")) (.literal (.integer 1)))
      top := some 5 } =
    ⟨[⟨.query, ""⟩, ⟨.expandItem, "Lines"⟩, ⟨.expr, "eq"⟩, ⟨.expr, "property"⟩, ⟨.property, "K"⟩,
      ⟨.expr, "literal"⟩, ⟨.literal, "integer"⟩], some 7⟩ := by decide +kernel

end OData
