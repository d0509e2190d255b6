import OData.Grammar.Listing
import OData.Grammar.Pipeline
import OData.Grammar.ResourcePath
import OData.Proofs.Grammar.Comparison

/-!
# The grammars agree with themselves

Every reader of the language, run on the two sides of a comparison, agrees with itself:
it reads the same value on both, or is refused on both at corresponding places.  There
is one lemma for each reader, built by the rules of comparisons along the text of its
definition.  The two places where spans matter are the null that takes a string only if
that is adjacent to it, and the refusals, whose places are those of tokens and of joins
of tokens.
-/
namespace OData.Grammar.Comparison
variable {W : Comparison}

/-! ## Literals and names -/

section Literals

theorem nullLiteral {s s' : State} (hs : W.States s s')
    (hk : s.cursor.current.kind = .word "null") :
    W.Outcomes Eq s s' (Grammar.nullLiteral s) (Grammar.nullLiteral s') := by
  have hadv := Agree.advanced hs
  have hnext := hadv.cursor.current.1
  -- A null and a string after it are adjacent on both sides or on neither.
  have hadjacent : ∀ hint, s.advanced.cursor.current.kind = .string hint →
      (s.advanced.cursor.current.span.start = s.cursor.current.span.stop ↔
        s'.advanced.cursor.current.span.start = s'.cursor.current.span.stop) := by
    obtain ⟨⟨before, rest⟩, depth, operators⟩ := s
    obtain ⟨⟨before', rest'⟩, depth', operators'⟩ := s'
    intro hint hstring
    cases hs.cursor.rest with
    | @last t t' _ _ =>
      have hself : t.kind = .string hint := hstring
      have hnull : t.kind = .word "null" := hk
      rw [hnull] at hself
      cases hself
    | cons _ _ hadjacent _ => exact hadjacent hk hint hstring
  rw [nullLiteral_apply, nullLiteral_apply, ← hnext]
  split
  · next hint hstring =>
    by_cases ha : s.advanced.cursor.current.span.start = s.cursor.current.span.stop
    · rw [if_pos ha, if_pos ((hadjacent hint hstring).1 ha)]
      exact .ok rfl (Agree.advanced hadv) rfl rfl
    · rw [if_neg ha, if_neg fun h => ha ((hadjacent hint hstring).2 h)]
      exact .ok rfl hadv rfl rfl
  · exact .ok rfl hadv rfl rfl

theorem tokenLiteral_eq (k : Kind) : tokenLiteral W.left k = tokenLiteral W.right k := by
  have hp := W.parameters
  unfold tokenLiteral Settings.knows
  rw [hp]

theorem earlier_of_tokenLiteral {ctx : Context} {k : Kind} {c : Cause}
    (h : tokenLiteral ctx k = .error c) : c.earlier = none := by
  unfold tokenLiteral at h
  repeat' split at h
  all_goals cases h <;> rfl

theorem literal : W.Agree Eq (Grammar.literal W.left) (Grammar.literal W.right) := by
  intro s s' hs
  have hcurrent := hs.cursor.current
  unfold Grammar.literal
  rw [current_bind, current_bind, ← hcurrent.1]
  by_cases hk : s.cursor.current.kind = .word "null"
  · rw [if_pos hk, if_pos hk]
    exact nullLiteral hs hk
  · rw [if_neg hk, if_neg hk, ← tokenLiteral_eq]
    cases hl : tokenLiteral W.left s.cursor.current.kind with
    | ok l => exact .ok rfl (Agree.advanced hs) rfl rfl
    | error c => exact .error ⟨W.refl (earlier_of_tokenLiteral hl), hcurrent.2⟩ rfl rfl

end Literals

theorem pathSegment : W.Agree Eq Grammar.pathSegment Grammar.pathSegment := by
  refine .bind .current ?_
  rintro ⟨k, p⟩ ⟨k', p'⟩ ⟨hk, -⟩
  obtain rfl : k = k' := hk
  cases k with
  | word w =>
    exact .ite (fun _ => .refuseFor _) fun _ => .bind_eq .advance fun _ => .pure rfl
  | _ => exact .refuseFor _

theorem memberPath : W.Agree Eq Grammar.memberPath Grammar.memberPath :=
  .bind_eq (.list (.separated _ pathSegment)) fun _ => .pure rfl

theorem unitAccessor : W.Agree Eq Grammar.unitAccessor Grammar.unitAccessor := by
  refine .bind_eq (.consume .dot) fun found => .ite (fun _ => ?_) fun _ => .pure rfl
  refine .bind (.expectWord _) ?_
  rintro ⟨name, p⟩ ⟨name', p'⟩ ⟨hname, hp⟩
  obtain rfl : name = name' := hname
  cases (Keyword.find? name : Option TimeUnit) with
  | none => exact .refuse rfl hp
  | some unit =>
    exact .bind (.expect _) fun _ _ _ => .bind (.expect _) fun _ _ _ => .pure rfl

theorem typeName : W.Agree Eq Grammar.typeName Grammar.typeName := by
  refine .bind (.expectWord _) ?_
  rintro ⟨first, p⟩ ⟨first', p'⟩ ⟨hfirst, hp⟩
  obtain rfl : first = first' := hfirst
  refine .bind_eq .rounds fun n => .bind (.following (.expectWord _) n) fun others others' h => ?_
  have hvalues : others.map Spanned.value = others'.map Spanned.value := by
    induction h with
    | nil => rfl
    | cons hab _ ih => rw [List.map_cons, List.map_cons, hab.1, ih]
  simp only [← hvalues]
  split
  · exact .pure rfl
  · exact .bind .previousSpan fun q q' hq => .refuse rfl (W.join hp hq)

/-! ## Expressions -/

theorem requireBoolean (e : Expr) {start start' : Span} (h : W.place start start') :
    W.Agree Eq (Grammar.requireBoolean e start) (Grammar.requireBoolean e start') :=
  .ite (fun _ => .pure rfl) fun _ => .bind .previousSpan fun _ _ hp => .refuse rfl (W.join h hp)

theorem condition {p p' : Parse Expr} (h : W.Agree Eq p p') :
    W.Agree Eq (Grammar.condition p) (Grammar.condition p') :=
  .bind .here fun _ _ hstart => h.bind_eq fun e => (requireBoolean e hstart).bind_eq fun _ =>
    .pure rfl

section Chains
variable {ω : Type} {operator? : String → Option ω} {operand operand' : Parse Expr}

theorem links (h : W.Agree Eq operand operand') (n : Nat) :
    W.Agree Eq (Grammar.links W.left operator? operand n)
      (Grammar.links W.right operator? operand' n) := by
  induction n with
  | zero => exact .throw trivial
  | succ n ih =>
    refine .bind_eq .currentWord? fun w => ?_
    cases w.bind operator? with
    | none => exact .pure rfl
    | some op =>
      exact .bind_eq .charge fun _ => .bind_eq .advance fun _ => h.bind_eq fun e =>
        ih.bind_eq fun others => .pure rfl

theorem chainFrom (build : ω → Expr → Expr → Expr) (first : Expr)
    (h : W.Agree Eq operand operand') :
    W.Agree Eq (Grammar.chainFrom W.left operator? build first operand)
      (Grammar.chainFrom W.right operator? build first operand') :=
  .bind_eq .rounds fun n => (links h n).bind_eq fun _ => .bind_eq (.release _) fun _ => .pure rfl

theorem mathChain {operator? : String → Option MathOp} (h : W.Agree Eq operand operand') :
    W.Agree Eq (Grammar.mathChain W.left operator? operand)
      (Grammar.mathChain W.right operator? operand') :=
  h.bind_eq fun first => chainFrom _ first h

theorem logicalChain (op : LogicalOp) (h : W.Agree Eq operand operand') :
    W.Agree Eq (Grammar.logicalChain W.left op operand)
      (Grammar.logicalChain W.right op operand') := by
  refine .bind .here fun start start' hstart => h.bind_eq fun first => ?_
  refine .bind_eq (.isAtWord _) fun found => .ite (fun _ => ?_) fun _ => .pure rfl
  exact (requireBoolean first hstart).bind_eq fun _ => chainFrom _ first (condition h)

end Chains

section Atoms
variable {inner inner' : Level → Parse Expr} (hinner : ∀ l, W.Agree Eq (inner l) (inner' l))
include hinner

omit hinner in
theorem nowCall : W.Agree Eq Grammar.nowCall Grammar.nowCall :=
  .bind_eq .advance fun _ => .bind (.expect _) fun _ _ _ => .bind (.expect _) fun _ _ _ =>
    unitAccessor.bind_eq fun _ => .pure rfl

theorem castCall :
    W.Agree Eq (Grammar.castCall W.left inner) (Grammar.castCall W.right inner') := by
  refine .bind_eq .advance fun _ => .nested (.bind (.expect _) fun _ _ _ => ?_)
  refine .bind .here fun start start' hstart => (hinner .sum).bind_eq fun value => ?_
  refine .bind .previousSpan fun q q' hq => .bind (.expect _) fun _ _ _ => ?_
  refine typeName.bind_eq fun target => .bind (.expect _) fun _ _ _ => ?_
  cases value with
  | literal l => exact .pure rfl
  | _ =>
    rw [← W.option]
    exact .refuse rfl (W.join hstart hq)

theorem arguments : W.Agree Eq (Grammar.arguments inner) (Grammar.arguments inner') :=
  .bind_eq (.isAt _) fun _ => .ite (fun _ => .pure rfl) fun _ => .list (.separated _ (hinner .sum))

theorem functionCall (function : Builtin) :
    W.Agree Eq (Grammar.functionCall W.left inner function)
      (Grammar.functionCall W.right inner' function) := by
  refine .bind .here fun start start' hstart => .bind_eq .advance fun _ => .nested ?_
  refine .bind (.expect _) fun _ _ _ => (arguments hinner).bind_eq fun args => ?_
  refine .bind (.expect _) fun _ _ _ => .ite (fun _ => .pure rfl) fun _ => ?_
  exact .bind .previousSpan fun q q' hq => .refuse rfl (W.join hstart hq)

theorem lambda : W.Agree Eq (Grammar.lambda inner) (Grammar.lambda inner') := by
  refine .bind (.expectWord _) ?_
  rintro ⟨param, p⟩ ⟨param', p'⟩ ⟨hparam, -⟩
  obtain rfl : param = param' := hparam
  refine .ite (fun _ => .bind .previousSpan fun _ _ hq => .refuse rfl hq) fun _ => ?_
  exact .bind (.expect _) fun _ _ _ => (condition (hinner .whole)).bind_eq fun _ => .pure rfl

theorem collectionCall (collection : Property) (function : Builtin) :
    W.Agree Eq (Grammar.collectionCall W.left inner collection function)
      (Grammar.collectionCall W.right inner' collection function) := by
  refine .bind .here fun start start' hstart => .bind_eq .advance fun _ => .nested ?_
  refine .bind (.expect _) fun _ _ _ => .bind_eq (.isAt _) fun closes => ?_
  refine .ite (fun _ => .ite (fun _ => ?_) fun _ => ?_) fun _ => ?_
  · exact .bind .here fun q q' hq => .refuse rfl (W.join hstart hq)
  · exact .bind (.expect _) fun _ _ _ => .pure rfl
  · exact (lambda hinner).bind_eq fun body => .bind (.expect _) fun _ _ _ => .pure rfl

omit hinner in
theorem pathTail (n : Nat) : W.Agree Eq (Grammar.pathTail n) (Grammar.pathTail n) := by
  induction n with
  | zero => exact .throw trivial
  | succ n ih =>
    refine .bind_eq (.isAt _) fun slash => .ite (fun _ => ?_) fun _ => .pure rfl
    refine .bind .cursor fun c c' hc => ?_
    -- What is ahead is the same on both sides, so both paths end or both go on.
    have hahead : collectionFunctionAhead c = collectionFunctionAhead c' := by
      unfold collectionFunctionAhead
      rw [hc.ahead 2, hc.ahead 1]
    rw [← hahead]
    refine .bind_eq .advance fun _ => ?_
    cases collectionFunctionAhead c with
    | some function => exact .pure rfl
    | none => exact pathSegment.bind_eq fun segment => ih.bind_eq fun others => .pure rfl

theorem propertyPath :
    W.Agree Eq (Grammar.propertyPath W.left inner) (Grammar.propertyPath W.right inner') := by
  refine pathSegment.bind_eq fun first => .bind_eq .rounds fun n => (pathTail n).bind_eq ?_
  rintro ⟨others, function?⟩
  cases function? with
  | some function => exact collectionCall hinner _ function
  | none => exact unitAccessor.bind_eq fun unit => .pure rfl

theorem callOf (w : String) :
    W.Agree Eq (Grammar.callOf W.left inner w) (Grammar.callOf W.right inner' w) := by
  unfold Grammar.callOf
  split
  · exact nowCall
  · exact castCall hinner
  · split
    · exact .refuseHere rfl
    · exact .ite (fun _ => .refuseHere rfl) fun _ => functionCall hinner _

theorem wordAtom (w : String) :
    W.Agree Eq (Grammar.wordAtom W.left inner w) (Grammar.wordAtom W.right inner' w) := by
  refine .ite (fun _ => literal.bind_eq fun l => .pure rfl) fun _ => ?_
  refine .bind .cursor fun c c' hc => ?_
  rw [← hc.ahead 1]
  refine .ite (fun _ => callOf hinner w) fun _ => .ite (fun _ => .refuseHere rfl) fun _ => ?_
  exact propertyPath hinner

theorem group : W.Agree Eq (Grammar.group W.left inner) (Grammar.group W.right inner') :=
  .nested (.bind_eq .advance fun _ => (hinner .whole).bind_eq fun _ =>
    .bind (.expect _) fun _ _ _ => .pure rfl)

theorem atom : W.Agree Eq (Grammar.atom W.left inner) (Grammar.atom W.right inner') := by
  refine .bind .current ?_
  rintro ⟨k, p⟩ ⟨k', p'⟩ ⟨hk, -⟩
  obtain rfl : k = k' := hk
  have hliteral : W.Agree Eq
      (if k.isLiteral then do let l ← Grammar.literal W.left; pure (.literal l)
        else Grammar.refuseFor "expression" : Parse Expr)
      (if k.isLiteral then do let l ← Grammar.literal W.right; pure (.literal l)
        else Grammar.refuseFor "expression") :=
    .ite (fun _ => literal.bind_eq fun l => .pure rfl) fun _ => .refuseFor _
  cases k with
  | leftParen => exact group hinner
  | word w => exact wordAtom hinner w
  | _ => exact hliteral

theorem product :
    W.Agree Eq (Grammar.product W.left inner) (Grammar.product W.right inner') :=
  mathChain (atom hinner)

theorem sum : W.Agree Eq (Grammar.sum W.left inner) (Grammar.sum W.right inner') :=
  mathChain (product hinner)

omit hinner in
theorem comparisonAhead : W.Agree Eq Grammar.comparisonAhead Grammar.comparisonAhead :=
  .bind_eq .currentWord? fun _ => .pure rfl

theorem comparison :
    W.Agree Eq (Grammar.comparison W.left inner) (Grammar.comparison W.right inner') := by
  refine (sum hinner).bind_eq fun left => comparisonAhead.bind_eq fun op => ?_
  cases op with
  | none => exact .pure rfl
  | some op =>
    refine .bind_eq .advance fun _ => (sum hinner).bind_eq fun right => ?_
    refine comparisonAhead.bind_eq fun next => ?_
    cases next with
    | some _ => exact .refuseHere rfl
    | none => exact .pure rfl

theorem disjunction :
    W.Agree Eq (Grammar.disjunction W.left inner) (Grammar.disjunction W.right inner') :=
  logicalChain .or (logicalChain .and (comparison hinner))

end Atoms

theorem levelFrom (n : Nat) :
    ∀ l, W.Agree Eq (Grammar.levelFrom W.left n l) (Grammar.levelFrom W.right n l) := by
  induction n with
  | zero => exact fun l => .throw trivial
  | succ n ih =>
    rintro (_ | _)
    · exact disjunction ih
    · exact sum ih

theorem level (l : Level) : W.Agree Eq (Grammar.level W.left l) (Grammar.level W.right l) :=
  .bind_eq .rounds fun n => levelFrom n l

theorem boolean : W.Agree Eq (Grammar.boolean W.left) (Grammar.boolean W.right) :=
  condition (level .whole)

theorem filter : W.Agree Eq (Grammar.filter W.left) (Grammar.filter W.right) :=
  .complete boolean

/-! ## Pipelines -/

theorem isStageAhead_eq {c c' : Cursor} (h : W.Cursors c c') :
    isStageAhead c = isStageAhead c' := by
  unfold isStageAhead
  rw [h.current.1, h.ahead 1]

theorem givenName : W.Agree Eq Grammar.givenName Grammar.givenName := by
  refine .bind_eq (.consumeWord _) fun _ => .ite (fun _ => ?_) fun _ => .refuseFor _
  exact .bind (.expectWord _) fun _ _ hname => .pure hname.1

theorem aggregateOf (value : Expr) {start start' : Span} (h : W.place start start') :
    W.Agree Eq (Grammar.aggregateOf value start) (Grammar.aggregateOf value start') := by
  refine .bind .previousSpan fun q q' hq => .bind_eq .advance fun _ => ?_
  cases value with
  | property property =>
    refine .bind (.expectWord _) ?_
    rintro ⟨word, p⟩ ⟨word', p'⟩ ⟨hword, hp⟩
    obtain rfl : word = word' := hword
    cases (Keyword.find? word : Option AggregateMethod) with
    | none => exact .refuse rfl hp
    | some method => exact givenName.bind_eq fun name => .pure rfl
  | _ => exact .refuse rfl (W.join h hq)

theorem valueArg : W.Agree Eq (Grammar.valueArg W.left) (Grammar.valueArg W.right) := by
  refine .bind .here fun start start' hstart => (level .whole).bind_eq fun value => ?_
  refine .bind_eq (.isAtWord _) fun _ => .ite (fun _ => aggregateOf value hstart) fun _ => ?_
  refine .bind_eq (.isAtWord _) fun _ => .ite (fun _ => ?_) fun _ => .pure rfl
  exact givenName.bind_eq fun name => .pure rfl

section Stages
variable {inner inner' : Parse Transformation} (hinner : W.Agree Eq inner inner')

include hinner in
theorem stageArg :
    W.Agree Eq (Grammar.stageArg W.left inner) (Grammar.stageArg W.right inner') := by
  refine .bind .cursor fun c c' hc => ?_
  rw [← isStageAhead_eq hc]
  exact .ite (fun _ => hinner.bind_eq fun stage => .pure rfl) fun _ => valueArg

theorem enclosed {args args' : Parse (List StageArg)} (h : W.Agree Eq args args') :
    W.Agree Eq (Grammar.enclosed W.left args) (Grammar.enclosed W.right args') :=
  .bind (.expect _) fun _ _ _ => (Agree.nested h).bind_eq fun _ => .bind (.expect _) fun _ _ _ =>
    .pure rfl

theorem filterArgs : W.Agree Eq (Grammar.filterArgs W.left) (Grammar.filterArgs W.right) :=
  .nested (.bind (.expect _) fun _ _ _ => boolean.bind_eq fun _ => .bind (.expect _) fun _ _ _ =>
    .pure rfl)

theorem identityArgs : W.Agree Eq Grammar.identityArgs Grammar.identityArgs :=
  .bind_eq (.consume _) fun _ => .ite (fun _ => .bind (.expect _) fun _ _ _ => .pure rfl) fun _ =>
    .pure rfl

include hinner

theorem expandArgs : W.Agree Eq (Grammar.expandArgs inner) (Grammar.expandArgs inner') :=
  memberPath.bind_eq fun _ => .bind_eq .rounds fun n =>
    .bind_eq (.list (hinner.following n)) fun _ => .pure rfl

theorem stageArgs (kind : StageKind) :
    W.Agree Eq (Grammar.stageArgs W.left inner kind) (Grammar.stageArgs W.right inner' kind) := by
  have hplain := enclosed (.list (.separated .comma (stageArg hinner)))
  cases kind with
  | identity => exact identityArgs
  | filter => exact filterArgs
  | expand => exact enclosed (expandArgs hinner)
  | _ => exact hplain

theorem stageWith :
    W.Agree Eq (Grammar.stageWith W.left inner) (Grammar.stageWith W.right inner') := by
  refine .bind (.expectWord _) ?_
  rintro ⟨name, p⟩ ⟨name', p'⟩ ⟨hname, hp⟩
  obtain rfl : name = name' := hname
  cases (Keyword.find? name : Option StageKind) with
  | none => exact .refuse rfl hp
  | some kind => exact (stageArgs hinner kind).bind_eq fun _ => .pure rfl

end Stages

theorem stageFrom (n : Nat) :
    W.Agree Eq (Grammar.stageFrom W.left n) (Grammar.stageFrom W.right n) := by
  induction n with
  | zero => exact .throw trivial
  | succ n ih => exact stageWith ih

theorem stage : W.Agree Eq (Grammar.stage W.left) (Grammar.stage W.right) :=
  .bind_eq .rounds fun n => stageFrom n

theorem pipeline : W.Agree Eq (Grammar.pipeline W.left) (Grammar.pipeline W.right) :=
  .complete (.list (.separated _ stage))

/-! ## Lists -/

theorem dottedTail (n : Nat) : W.Agree Eq (Grammar.dottedTail n) (Grammar.dottedTail n) := by
  induction n with
  | zero => exact .throw trivial
  | succ n ih =>
    refine .bind_eq (.consume _) fun _ => .ite (fun _ => ?_) fun _ => .pure rfl
    refine .bind_eq (.consume _) fun _ => .ite (fun _ => .pure rfl) fun _ => ?_
    exact .bind (.expectWord _) fun _ _ hname => ih.bind_eq fun others => .pure (by rw [hname.1])

theorem selectPart : W.Agree Eq Grammar.selectPart Grammar.selectPart := by
  refine .bind_eq (.consume _) fun _ => .ite (fun _ => .pure rfl) fun _ => ?_
  refine .bind (.expectWord _) fun _ _ hname => .bind_eq .rounds fun n => ?_
  exact (dottedTail n).bind_eq fun others => .pure (by rw [hname.1])

theorem selection : W.Agree Eq Grammar.selection Grammar.selection :=
  .complete (.list (.separated _ (.bind_eq (.list (.separated _ selectPart)) fun _ => .pure rfl)))

theorem orderByItem : W.Agree Eq Grammar.orderByItem Grammar.orderByItem := by
  refine memberPath.bind_eq fun path => .bind_eq ?_ fun direction => .pure rfl
  refine .bind_eq (.consumeWord _) fun _ => .ite (fun _ => .pure rfl) fun _ => ?_
  exact .bind_eq (.consumeWord _) fun _ => .pure rfl

theorem ordering : W.Agree Eq Grammar.ordering Grammar.ordering :=
  .complete (.list (.separated _ orderByItem))

theorem expandPath : W.Agree Eq Grammar.expandPath Grammar.expandPath :=
  .complete (.bind_eq (.consume _) fun _ => .ite (fun _ => .pure rfl) fun _ => memberPath)

/-! ## Resource paths -/

theorem keyPredicate : W.Agree Eq (Grammar.keyPredicate W.left) (Grammar.keyPredicate W.right) := by
  refine .bind .cursor fun c c' hc => ?_
  have hpositional : W.Agree Eq
      (do let value ← Grammar.literal W.left; pure (KeyPredicate.positional value) : Parse _)
      (do let value ← Grammar.literal W.right; pure (KeyPredicate.positional value)) :=
    literal.bind_eq fun _ => .pure rfl
  rw [← hc.current.1, ← hc.ahead 1]
  cases c.current.kind with
  | word name =>
    refine .ite (fun _ => ?_) fun _ => hpositional
    exact .bind_eq .advance fun _ => .bind_eq .advance fun _ => literal.bind_eq fun _ => .pure rfl
  | _ => exact hpositional

theorem keyPredicates :
    W.Agree Eq (Grammar.keyPredicates W.left) (Grammar.keyPredicates W.right) := by
  refine .bind_eq (.consume _) fun _ => .ite (fun _ => .pure rfl) fun _ => ?_
  refine .bind_eq (.list (.separated _ keyPredicate)) fun _ => ?_
  exact .bind (.expect _) fun _ _ _ => .pure rfl

theorem resourceSegment :
    W.Agree Eq (Grammar.resourceSegment W.left) (Grammar.resourceSegment W.right) := by
  refine .bind (.expectWord _) ?_
  rintro ⟨name, p⟩ ⟨name', p'⟩ ⟨hname, -⟩
  obtain rfl : name = name' := hname
  refine .bind_eq (.consume _) fun _ => .ite (fun _ => ?_) fun _ => .pure rfl
  exact keyPredicates.bind_eq fun _ => .pure rfl

theorem resourcePath :
    W.Agree Eq (Grammar.resourcePath W.left) (Grammar.resourcePath W.right) :=
  .complete (.bind_eq (.consume _) fun _ => .list (.separated _ resourceSegment))

end OData.Grammar.Comparison
