import OData.Grammar.Listing
import OData.Grammar.Pipeline
import OData.Grammar.ResourcePath
import OData.Proofs.Limits.Expressions

/-!
# All readers keep count

The readers of pipelines, of the flat lists and of resource paths keep count as those of
expressions do, and there is room for the stages that are read, whatever has been counted
before.  A stage holds stages only after its name, so its name is the token that the nesting
of stages ends by (`runs_stageFrom`).
-/
namespace OData.Grammar
variable {n d o : Nat} {ctx : Context}

/-! ## Pipelines -/

theorem runs_givenName : Runs (fun _ => True) n (n - 1) d o givenName := by
  refine Runs.consumeWord "as" ?_ (.refuseFor _)
  exact ((Runs.expectWord _).bind fun _ _ => .pure trivial).le (Nat.sub_le ..)

theorem runs_aggregateOf (value : Expr) (start : Span) :
    Runs (StageArg.Within ctx.settings d) n n d o (aggregateOf value start) := by
  refine Runs.previousSpan.bind fun _ _ => Runs.advance.bind fun _ _ => ?_
  cases value with
  | property p =>
    refine (Runs.expectWord _).bind fun word _ => ?_
    cases (Keyword.find? word.value : Option AggregateMethod) with
    | none => exact .refuse ..
    | some method =>
      refine runs_givenName.bind fun name _ => ?_
      exact (Runs.pure (.aggregate name _)).le (by omega)
  | _ => exact .refuse ..

theorem runs_valueArg :
    Runs (StageArg.Within ctx.settings d) n (n - 1) d o (valueArg ctx) := by
  refine Runs.here.bind fun start _ => runs_expression.bind fun value hvalue => ?_
  replace hvalue := hvalue.of_fewer (Nat.zero_le o)
  refine (Runs.isAtWord _).bind fun _ _ => .ite (fun _ => runs_aggregateOf value start) fun _ => ?_
  refine (Runs.isAtWord _).bind fun _ _ => .ite (fun _ => ?_) fun _ => .pure (.expr hvalue)
  exact (runs_givenName.bind fun name _ => .pure (.named name hvalue)).le (Nat.sub_le ..)

theorem runs_enclosed {P : List StageArg → Prop} {args : Parse (List StageArg)}
    (h : d < ctx.settings.maxDepth → Runs P (n - 1) (n - 1) (d + 1) o args) :
    Runs (fun as => d < ctx.settings.maxDepth ∧ P as) n n d o (enclosed ctx args) := by
  have hargs : Runs (fun as => d < ctx.settings.maxDepth ∧ P as) (n - 1) (n - 1) d o
      (nested ctx args) := .nested fun hd => (h hd).imp fun as has => ⟨hd, has⟩
  refine (Runs.expect .leftParen nofun).bind fun _ _ => hargs.bind fun as has => ?_
  refine (Runs.expect .rightParen nofun).bind fun _ _ => ?_
  have hless : n - 1 - 1 ≤ n := by omega
  exact Runs.mono (.pure has) hless fun _ has => has

theorem runs_filterArgs :
    Runs (fun as => (StageArg.stage .filter as).Within ctx.settings d) n n d o
      (filterArgs ctx) := by
  refine .nested fun hd => (Runs.expect .leftParen nofun).bind fun _ _ => ?_
  refine runs_boolean.bind fun e he => (Runs.expect .rightParen nofun).bind fun _ _ => ?_
  refine (Runs.pure (.stage .filter hd fun a ha => ?_)).le (by omega)
  rw [List.mem_singleton.1 ha]
  exact .expr (he.of_fewer (Nat.zero_le o))

theorem runs_identityArgs :
    Runs (fun as => (StageArg.stage .identity as).Within ctx.settings d) n n d o
      identityArgs := by
  refine Runs.consume .leftParen nofun ?_ (.pure .identity)
  refine (Runs.expect .rightParen nofun).bind fun _ _ => ?_
  exact (Runs.pure .identity).le (by omega)

section Stages
variable {inner : Parse Transformation} {N : Nat} (hinner : ∀ k < N, ∀ d,
  Runs (fun t : Transformation => t.toArg.Within ctx.settings d) k (k - 1) d o inner)
include hinner

theorem runs_stageArg (hn : n < N) :
    Runs (StageArg.Within ctx.settings d) n (n - 1) d o (stageArg ctx inner) :=
  Runs.cursor.bind fun _ _ => .ite
    (fun _ => (hinner n hn d).bind fun _ ht => .pure ht) fun _ => runs_valueArg

theorem runs_expandArgs (hn : n < N) :
    Runs (fun as => ∀ a ∈ as, StageArg.Within ctx.settings d a) n n d o (expandArgs inner) := by
  refine runs_memberPath.bind fun path _ => Runs.rounds fun k hk => ?_
  have hstage : ∀ j < k, Runs (fun t : Transformation => t.toArg.Within ctx.settings d) j j d o
      inner := fun j hj => (hinner j (by omega) d).le (Nat.sub_le ..)
  refine (Runs.following .comma nofun (Nat.le_succ k) hstage).bind fun stages hstages => ?_
  refine (Runs.pure (List.forall_mem_cons.2 ⟨?_, ?_⟩)).le (by omega)
  · exact .expr (.of_atom (.property _) _)
  · exact List.forall_mem_map.2 hstages

theorem runs_stageArgs (kind : StageKind) (hn : n < N) :
    Runs (fun as => (StageArg.stage kind as).Within ctx.settings d) n n d o
      (stageArgs ctx inner kind) := by
  have hplain (kind : StageKind) :
      Runs (fun as => (StageArg.stage kind as).Within ctx.settings d) n n d o
        (enclosed ctx (separated .comma (stageArg ctx inner))) := by
    refine (runs_enclosed fun _ => ?_).imp fun as has => .stage kind has.1 has.2
    refine (Runs.separated .comma nofun fun k hk => ?_).le (Nat.sub_le ..)
    exact runs_stageArg hinner (by omega)
  cases kind with
  | identity => exact runs_identityArgs
  | filter => exact runs_filterArgs
  | expand =>
    refine (runs_enclosed fun _ => ?_).imp fun as has => .stage .expand has.1 has.2
    exact runs_expandArgs hinner (by omega)
  | _ => exact hplain _

theorem runs_stageWith (hn : n ≤ N) :
    Runs (fun t : Transformation => t.toArg.Within ctx.settings d) n (n - 1) d o
      (stageWith ctx inner) := by
  refine .of_pos fun hpos => (Runs.expectWord _).bind fun name _ => ?_
  cases (Keyword.find? name.value : Option StageKind) with
  | none => exact .refuse ..
  | some kind =>
    exact (runs_stageArgs hinner kind (by omega)).bind fun args hargs => .pure hargs

end Stages

/-- **Stages do not outlast the tokens**, since each has its name in front. -/
theorem runs_stageFrom {fuel : Nat} (hn : n ≤ fuel) :
    Runs (fun t : Transformation => t.toArg.Within ctx.settings d) n (n - 1) d o
      (stageFrom ctx fuel) := by
  induction fuel generalizing n d with
  | zero => exact .of_pos fun hpos => absurd hpos (by omega)
  | succ fuel ih => exact runs_stageWith (fun k hk d => ih (Nat.le_of_lt_succ hk)) hn

theorem runs_stage :
    Runs (fun t : Transformation => t.toArg.Within ctx.settings d) n (n - 1) d o
      (stage ctx) :=
  Runs.rounds fun k hk => (runs_stageFrom (Nat.le_succ k)).le (by omega)

theorem runs_pipeline :
    Runs (fun ts => ∀ t ∈ ts, (Transformation.toArg t).Within ctx.settings d) n (n - 1) d o
      (pipeline ctx) :=
  .complete (.separated .slash nofun fun _ _ => runs_stage)

/-! ## Lists -/

theorem runs_dottedTail {rounds : Nat} (hn : n ≤ rounds) :
    Runs (fun _ => True) n n d o (dottedTail rounds) := by
  induction rounds generalizing n with
  | zero => exact .of_pos fun hpos => absurd hpos (by omega)
  | succ rounds ih =>
    refine .of_pos fun hpos => Runs.consume .dot nofun ?_ (.pure trivial)
    refine Runs.consume .star nofun ((Runs.pure trivial).le (by omega)) ?_
    refine (Runs.expectWord _).bind fun name _ => ?_
    refine (ih (n := n - 1 - 1) (by omega)).bind fun others _ => ?_
    exact (Runs.pure trivial).le (by omega)

theorem runs_selectPart : Runs (fun _ => True) n (n - 1) d o selectPart := by
  refine Runs.consume .star nofun (.pure trivial) ?_
  refine (Runs.expectWord _).bind fun name _ => Runs.rounds fun k hk => ?_
  exact ((runs_dottedTail (Nat.le_succ k)).bind fun _ _ => .pure trivial).le hk

theorem runs_selectItem : Runs (fun _ => True) n (n - 1) d o selectItem :=
  (Runs.separated .slash nofun fun _ _ => runs_selectPart).bind fun _ _ => .pure trivial

theorem runs_selection : Runs (fun _ => True) n (n - 1) d o selection :=
  (Runs.separated .comma nofun fun _ _ => runs_selectItem).complete.imp fun _ _ => trivial

theorem runs_sortDirection : Runs (fun _ => True) n n d o sortDirection := by
  refine Runs.consumeWord _ ((Runs.pure trivial).le (Nat.sub_le ..)) ?_
  exact Runs.consumeWord _ ((Runs.pure trivial).le (Nat.sub_le ..)) (.pure trivial)

theorem runs_orderByItem : Runs (fun _ => True) n (n - 1) d o orderByItem :=
  runs_memberPath.bind fun _ _ => runs_sortDirection.bind fun _ _ => .pure trivial

theorem runs_ordering : Runs (fun _ => True) n (n - 1) d o ordering :=
  (Runs.separated .comma nofun fun _ _ => runs_orderByItem).complete.imp fun _ _ => trivial

theorem runs_expandPath : Runs (fun _ => True) n (n - 1) d o expandPath :=
  .complete (.consume .star nofun (.pure trivial) runs_memberPath)

/-! ## Resource paths -/

theorem runs_keyPredicate : Runs (fun _ => True) n (n - 1) d o (keyPredicate ctx) := by
  have hpositional : Runs (fun _ => True) n (n - 1) d o
      (do let value ← literal ctx; pure (KeyPredicate.positional value) : Parse _) :=
    (runs_literal ctx).bind fun _ _ => .pure trivial
  refine Runs.cursor.bind fun c _ => ?_
  cases c.current.kind with
  | word name =>
    refine .ite (fun _ => ?_) fun _ => hpositional
    exact Runs.advance.bind fun _ _ => Runs.advance.bind fun _ _ =>
      (runs_literal ctx).bind fun _ _ => .pure trivial
  | _ => exact hpositional

theorem runs_keyPredicates : Runs (fun _ => True) n n d o (keyPredicates ctx) := by
  refine Runs.consume .rightParen nofun ((Runs.pure trivial).le (Nat.sub_le ..)) ?_
  refine (Runs.separated .comma nofun fun _ _ => runs_keyPredicate).bind fun _ _ => ?_
  refine (Runs.expect .rightParen nofun).bind fun _ _ => ?_
  exact (Runs.pure trivial).le (by omega)

theorem runs_resourceSegment : Runs (fun _ => True) n (n - 1) d o (resourceSegment ctx) := by
  refine (Runs.expectWord _).bind fun name _ => Runs.consume .leftParen nofun ?_ (.pure trivial)
  exact (runs_keyPredicates.bind fun _ _ => .pure trivial).le (Nat.sub_le ..)

theorem runs_resourcePath : Runs (fun _ => True) n (n - 1) d o (resourcePath ctx) := by
  have hsegments (n : Nat) : Runs (fun _ => True) n (n - 1) d o
      (separated .slash (resourceSegment ctx)) :=
    (Runs.separated .slash nofun fun _ _ => runs_resourceSegment).imp fun _ _ => trivial
  exact .complete (.consume .slash nofun ((hsegments _).le (Nat.sub_le ..)) (hsegments _))

end OData.Grammar
