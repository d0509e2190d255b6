import OData.Grammar.Expression
import OData.Proofs.Limits.Trees
import OData.Proofs.Limits.Walk

/-!
# Expressions keep count

Every reader of expressions keeps count (`Runs`), moves past a token, and reads trees that
there is room for in the brackets and with the operators that it started with
(`Expr.Within`).  Between brackets the readers call each other downwards only; what is in
brackets is read by `inner`, of which is known that it keeps count when there are fewer
than `N` tokens ahead.  That is enough, since there is a token in front of everything in
brackets, and it is what the nesting of brackets ends by (`runs_levelFrom`).
-/
namespace OData.Grammar
variable {n k d o : Nat}

/-! ## Literals and names -/

theorem runs_nullLiteral {s : State} (hs : s.At n d o)
    (hk : s.cursor.current.kind = .word "null") :
    Outcome (fun _ => True) s (n - 1) d o (nullLiteral s) := by
  have hadvanced : s.advanced.At (n - 1) d o := hs.advanced (by simp [hk])
  have hlead : s.cursor.Leads s.advanced.cursor := s.cursor.leads_advance
  rw [nullLiteral_apply]
  split
  · split
    · exact .ok trivial hadvanced.advanced_le (hlead.trans s.advanced.cursor.leads_advance)
    · exact .ok trivial hadvanced hlead
  · exact .ok trivial hadvanced hlead

theorem runs_literal (ctx : Context) : Runs (fun _ => True) n (n - 1) d o (literal ctx) := by
  intro s hs
  unfold literal
  rw [current_bind]
  split
  · next hk => exact runs_nullLiteral hs hk
  · cases hl : tokenLiteral ctx s.cursor.current.kind with
    | ok l =>
      have hk : s.cursor.current.kind ≠ .eof := by
        intro hk
        rw [hk] at hl
        cases hl
      exact .advance hs hk (.pure trivial)
    | error c => exact Runs.refuse c _ hs

theorem runs_pathSegment : Runs (fun _ => True) n (n - 1) d o pathSegment := by
  intro s hs
  unfold pathSegment
  rw [current_bind]
  cases hk : s.cursor.current.kind with
  | word w =>
    show Outcome _ _ _ _ _ ((if isOperatorWord w then refuseFor "property name" else do
      Grammar.advance
      pure w : Parse String) s)
    split
    · exact Runs.refuseFor _ hs
    · exact .advance hs (by rw [hk]; nofun) (.pure trivial)
  | _ => exact Runs.refuseFor _ hs

theorem runs_memberPath : Runs (fun _ => True) n (n - 1) d o memberPath :=
  (Runs.separated .slash nofun fun _ _ => runs_pathSegment).bind fun _ _ => .pure trivial

theorem runs_unitAccessor : Runs (fun _ => True) n n d o unitAccessor := by
  refine Runs.consume .dot nofun ?_ ?_
  · refine (Runs.expectWord _).bind fun name _ => ?_
    cases (Keyword.find? name.value : Option TimeUnit) with
    | none => exact .refuse ..
    | some unit =>
      refine (Runs.expect .leftParen nofun).bind fun _ _ => ?_
      refine (Runs.expect .rightParen nofun).bind fun _ _ => ?_
      exact (Runs.pure trivial).le (by omega)
  · exact .pure trivial

theorem runs_typeName : Runs (fun _ => True) n (n - 1) d o typeName := by
  refine (Runs.expectWord _).bind fun first _ => Runs.rounds fun k hk => ?_
  have hword : ∀ j < k, Runs (fun _ => True) j j d o (expectWord "type name segment") :=
    fun j _ => (Runs.expectWord _).le (Nat.sub_le ..)
  refine (Runs.following .dot nofun (Nat.le_succ k) hword).bind fun others _ => ?_
  simp only
  split
  · exact (Runs.pure trivial).le hk
  · exact Runs.previousSpan.bind fun _ _ => .refuse ..

/-! ## Conditions and chains -/

theorem runs_requireBoolean (e : Expr) (start : Span) :
    Runs (fun _ => True) n n d o (requireBoolean e start) :=
  .ite (fun _ => .pure trivial) fun _ => Runs.previousSpan.bind fun _ _ => .refuse ..

theorem runs_condition {P : Expr → Prop} {m : Nat} {p : Parse Expr} (h : Runs P n m d o p) :
    Runs P n m d o (condition p) :=
  Runs.here.bind fun start _ => h.bind fun e he =>
    (runs_requireBoolean e start).bind fun _ _ => .pure he

section Chains
variable {ω : Type} {ctx : Context} {t : Tier} {tier : ω → Tier} {operator? : String → Option ω}
  {operand : Parse Expr}
  (hoperator : ∀ (w : String) (op : ω), operator? w = some op → tier op = t)
  (hoperand : ∀ k ≤ n, ∀ o, Runs (Expr.Within ctx.settings t.tighter d o) k (k - 1) d o operand)
include hoperator hoperand

/-- Links are counted: when they are read each is counted, and there is room for it besides
those before it.  If they are refused nothing is known but that. -/
theorem links_of_at {rounds : Nat} (hn : n ≤ rounds) {s : State} (hs : s.At n d o) :
    (∃ ls u, links ctx operator? operand rounds s = .ok ls u ∧
      LinksWithin ctx.settings t tier d o ls ∧ u.At n d (o + ls.length) ∧
      s.cursor.Leads u.cursor) ∨
    Outcome (fun _ => False) s n d o (links ctx operator? operand rounds s) := by
  induction rounds generalizing n o s with
  | zero => exact absurd hs.pos (by omega)
  | succ rounds ih =>
    have hpos := hs.pos
    unfold links
    rw [currentWord?_bind]
    cases hop : s.cursor.current.kind.word?.bind operator? with
    | none => exact .inl ⟨[], s, rfl, trivial, hs, .refl _⟩
    | some op =>
      obtain ⟨w, hw, hop⟩ := Option.bind_eq_some_iff.1 hop
      have hk : s.cursor.current.kind ≠ .eof := by
        rw [kind_of_word? hw]
        nofun
      simp only
      by_cases ho : o < ctx.settings.maxOperatorDepth
      · have hcharge : charge ctx s = .ok () (s.charged 1) := charge_of_lt (hs.operators ▸ ho)
        have hnext : (s.charged 1).advanced.At (n - 1) d (o + 1) :=
          State.At.advanced { hs with operators := congrArg (· + 1) hs.operators } hk
        have hmoved : s.cursor.Leads (s.charged 1).advanced.cursor := s.cursor.leads_advance
        rw [bind_of_ok hcharge, bind_of_ok (advance_apply _)]
        -- The operand is read with its operator counted, and so are the links after it.
        have hfirst := (hoperand (n - 1) (Nat.sub_le ..) (o + 1) hnext).after hmoved
        generalize hr : operand (s.charged 1).advanced = r at hfirst
        cases hfirst with
        | refused hends hdepth hoperators hlead =>
          rw [bind_of_error hr]
          exact .inr (.refused hends hdepth (by omega) hlead)
        | @ok e u he hu hlead =>
          rw [bind_of_ok hr]
          have hrest := ih (n := n - 1 - 1) (o := o + 1)
            (fun k hk => hoperand k (by omega)) (by omega) hu
          rcases hrest with ⟨ls, v, hls, hwithin, hv, hlead'⟩ | hrest
          · rw [bind_of_ok hls]
            refine .inl ⟨_, v, rfl, ⟨ho, hoperator w op hop, he, hwithin⟩, ?_, hlead.trans hlead'⟩
            have hcount : o + 1 + ls.length = o + ((op, e) :: ls).length := by
              rw [List.length_cons]
              omega
            exact hcount ▸ hv.mono (by omega)
          · refine .inr ?_
            generalize hr' : links ctx operator? operand rounds u = r' at hrest
            cases hrest with
            | ok hfalse => exact hfalse.elim
            | refused hends hdepth hoperators hlead' =>
              rw [bind_of_error hr']
              exact .refused hends hdepth (by omega) (hlead.trans hlead')
      · have hcharge := charge_apply ctx s
        rw [if_neg (hs.operators ▸ ho)] at hcharge
        rw [bind_of_error hcharge]
        exact .inr (.refused hs.ends hs.depth (Nat.le_of_eq hs.operators.symm) (.refl _))

/-- A chain is no longer counted when its tree is built. -/
theorem runs_chainFrom {build : ω → Expr → Expr → Expr} (ht : t ≠ .atom)
    (hbuild : ∀ {o : Nat} {op : ω} {x y : Expr}, tier op = t →
      o < ctx.settings.maxOperatorDepth → x.Within ctx.settings t.tighter d o →
      y.Within ctx.settings t d (o + 1) → (build op x y).Within ctx.settings t d o)
    {first : Expr} (hfirst : first.Within ctx.settings t.tighter d o) :
    Runs (Expr.Within ctx.settings t d o) n n d o
      (chainFrom ctx operator? build first operand) := by
  refine Runs.rounds fun k hk s hs => ?_
  have hlinks := links_of_at hoperator (fun j hj => hoperand j (by omega)) (Nat.le_succ k) hs
  rcases hlinks with ⟨ls, u, hls, hwithin, hu, hlead⟩ | hrefused
  · have hrelease : release ls.length u = .ok () { u with operators := o } := by
      rw [release_apply, hu.operators, if_pos (by omega), Nat.add_sub_cancel]
    rw [bind_of_ok hls, bind_of_ok hrelease]
    exact .ok (within_chain ht hbuild hfirst hwithin)
      ⟨hu.ends, Nat.le_trans hu.length hk, hu.depth, rfl⟩ hlead
  · generalize hr : links ctx operator? operand (k + 1) s = r at hrefused
    cases hrefused with
    | ok hfalse => exact hfalse.elim
    | refused hends hdepth hoperators hlead =>
      rw [bind_of_error hr]
      exact .refused hends hdepth hoperators hlead

end Chains

/-! ## Atoms -/

section Atoms
variable {ctx : Context} {inner : Level → Parse Expr} {N : Nat}
  (hinner : ∀ l, ∀ k < N, ∀ d o,
    Runs (Expr.Within ctx.settings (Level.tier l) d o) k (k - 1) d o (inner l))

theorem runs_nowCall :
    Runs (Expr.Within ctx.settings .atom d o) n (n - 1) d o nowCall := by
  refine Runs.advance.bind fun _ _ => (Runs.expect .leftParen nofun).bind fun _ _ => ?_
  refine (Runs.expect .rightParen nofun).bind fun _ _ => ?_
  exact (runs_unitAccessor.bind fun unit _ => .pure (.now unit)).le (Nat.sub_le ..)

theorem runs_pathTail {rounds : Nat} (hn : n ≤ rounds) :
    Runs (fun _ => True) n n d o (pathTail rounds) := by
  induction rounds generalizing n with
  | zero => exact .of_pos fun hpos => absurd hpos (by omega)
  | succ rounds ih =>
    intro s hs
    have hpos := hs.pos
    unfold pathTail
    rw [isAt_bind]
    by_cases hat : s.cursor.isAt .slash = true
    · have hkind : s.cursor.current.kind = .slash := by simpa [Cursor.isAt] using hat
      rw [if_pos hat, cursor_bind]
      refine .advance hs (by simp [hkind]) ?_
      cases collectionFunctionAhead s.cursor with
      | some function => exact (Runs.pure trivial).le (Nat.sub_le ..)
      | none =>
        refine runs_pathSegment.bind fun segment _ => ?_
        refine (ih (n := n - 1 - 1) (by omega)).bind fun others _ => ?_
        exact (Runs.pure trivial).le (by omega)
    · rw [if_neg hat]
      exact Runs.pure trivial hs

include hinner

theorem runs_castCall (hn : n ≤ N) :
    Runs (Expr.Within ctx.settings .atom d o) n (n - 1) d o (castCall ctx inner) := by
  refine .of_pos fun hpos => Runs.advance.bind fun _ _ => .nested fun hd => ?_
  refine (Runs.expect .leftParen nofun).bind fun _ _ => Runs.here.bind fun start _ => ?_
  refine (hinner .sum (n - 1) (by omega) _ _).bind fun value _ => ?_
  refine Runs.previousSpan.bind fun _ _ => (Runs.expect .comma nofun).bind fun _ _ => ?_
  refine runs_typeName.bind fun target _ => (Runs.expect .rightParen nofun).bind fun _ _ => ?_
  cases value with
  | literal l => exact (Runs.pure (.cast l target hd)).le (by omega)
  | _ => exact .refuse ..

theorem runs_arguments (hn : n < N) :
    Runs (fun args => ∀ a ∈ args, Expr.Within ctx.settings .sum d o a) n n d o
      (arguments inner) := by
  refine (Runs.isAt _).bind fun _ _ => .ite (fun _ => ?_) fun _ => ?_
  · exact .pure fun _ h => absurd h List.not_mem_nil
  · refine (Runs.separated .comma nofun fun k hk => ?_).le (Nat.sub_le ..)
    exact hinner .sum k (by omega) d o

theorem runs_functionCall (f : Builtin) (hn : n ≤ N) :
    Runs (Expr.Within ctx.settings .atom d o) n (n - 1) d o (functionCall ctx inner f) := by
  refine .of_pos fun hpos => Runs.here.bind fun start _ => Runs.advance.bind fun _ _ => ?_
  refine .nested fun hd => (Runs.expect .leftParen nofun).bind fun _ _ => ?_
  refine (runs_arguments hinner (by omega)).bind fun args hargs => ?_
  refine (Runs.expect .rightParen nofun).bind fun _ _ => .ite (fun _ => ?_) fun _ => ?_
  · exact (Runs.pure (.call f hd hargs)).le (by omega)
  · exact Runs.previousSpan.bind fun _ _ => .refuse ..

/-- What a lambda binds is not in its own brackets. -/
theorem runs_lambda (hn : n ≤ N) :
    Runs (fun e => ∃ param body, e = .lambda param body ∧
      Expr.Within ctx.settings .disjunction d o body) n n d o (lambda inner) := by
  refine .of_pos fun hpos => (Runs.expectWord _).bind fun param _ => .ite (fun _ => ?_) fun _ => ?_
  · exact Runs.previousSpan.bind fun _ _ => .refuse ..
  · refine (Runs.expect .colon nofun).bind fun _ _ => ?_
    refine (runs_condition (hinner .whole (n - 1 - 1) (by omega) d o)).bind fun body hbody => ?_
    exact (Runs.pure ⟨param.value, body, rfl, hbody⟩).le (by omega)

theorem runs_collectionCall (collection : Property) (f : Builtin) (hn : n ≤ N) :
    Runs (Expr.Within ctx.settings .atom d o) n (n - 1) d o
      (collectionCall ctx inner collection f) := by
  refine .of_pos fun hpos => Runs.here.bind fun start _ => Runs.advance.bind fun _ _ => ?_
  refine .nested fun hd => (Runs.expect .leftParen nofun).bind fun _ _ => ?_
  refine (Runs.isAt _).bind fun _ _ => .ite (fun _ => .ite (fun _ => ?_) fun _ => ?_) fun _ => ?_
  · exact Runs.here.bind fun _ _ => .refuse ..
  · refine (Runs.expect .rightParen nofun).bind fun _ _ => ?_
    have hargs : ∀ a ∈ [Expr.property collection],
        Expr.Within ctx.settings .sum (d + 1) o a := by
      intro a ha
      rw [List.mem_singleton.1 ha]
      exact .of_atom (.property collection) _
    exact (Runs.pure (.call f hd hargs)).le (Nat.sub_le ..)
  · refine (runs_lambda hinner (Nat.le_trans (Nat.sub_le ..) hn)).bind ?_
    rintro _ ⟨param, body, rfl, hbody⟩
    refine (Runs.expect .rightParen nofun).bind fun _ _ => ?_
    exact (Runs.pure (.quantified f collection param hd hbody)).le (Nat.sub_le ..)

theorem runs_propertyPath (hn : n ≤ N) :
    Runs (Expr.Within ctx.settings .atom d o) n (n - 1) d o (propertyPath ctx inner) := by
  refine runs_pathSegment.bind fun first _ => Runs.rounds fun k hk => ?_
  refine (runs_pathTail (Nat.le_succ k)).bind ?_
  rintro ⟨others, function?⟩ -
  cases function? with
  | some f => exact (runs_collectionCall hinner _ f (by omega)).le (by omega)
  | none => exact (runs_unitAccessor.bind fun unit _ => .pure (.property _)).le hk

theorem runs_callOf (w : String) (hn : n ≤ N) :
    Runs (Expr.Within ctx.settings .atom d o) n (n - 1) d o (callOf ctx inner w) := by
  unfold callOf
  split
  · exact runs_nowCall
  · exact runs_castCall hinner hn
  · split
    · exact .refuseHere _
    · exact .ite (fun _ => .refuseHere _) fun _ => runs_functionCall hinner _ hn

theorem runs_wordAtom (w : String) (hn : n ≤ N) :
    Runs (Expr.Within ctx.settings .atom d o) n (n - 1) d o (wordAtom ctx inner w) := by
  refine .ite (fun _ => (runs_literal ctx).bind fun l _ => .pure (.literal l)) fun _ => ?_
  refine Runs.cursor.bind fun _ _ => .ite (fun _ => runs_callOf hinner w hn) fun _ => ?_
  exact .ite (fun _ => .refuseHere _) fun _ => runs_propertyPath hinner hn

/-- What is in parentheses is read past the token that opens them. -/
theorem group_of_at (hn : n ≤ N) {s : State} (hs : s.At n d o)
    (hk : s.cursor.current.kind = .leftParen) :
    Outcome (Expr.Within ctx.settings .atom d o) s (n - 1) d o (group ctx inner s) := by
  have hpos := hs.pos
  unfold group
  rw [nested_apply]
  split
  · next hd =>
    rw [hs.depth] at hd
    have hdeeper : s.deeper.At n (d + 1) o := { hs with depth := congrArg (· + 1) hs.depth }
    have hkind : s.deeper.cursor.current.kind ≠ .eof := by
      have hsame : s.deeper.cursor = s.cursor := rfl
      rw [hsame, hk]
      nofun
    refine Outcome.leave (.advance hdeeper hkind ?_)
    refine (hinner .whole (n - 1) (by omega) (d + 1) o).bind fun e he => ?_
    refine (Runs.expect .rightParen nofun).bind fun _ _ => ?_
    exact (Runs.pure (.group hd he)).le (by omega)
  · exact Runs.refuseHere _ hs

theorem runs_atom (hn : n ≤ N) :
    Runs (Expr.Within ctx.settings .atom d o) n (n - 1) d o (atom ctx inner) := by
  intro s hs
  have hliteral : ∀ k : Kind, Runs (Expr.Within ctx.settings .atom d o) n (n - 1) d o
      (if k.isLiteral then do let l ← literal ctx; pure (.literal l)
        else refuseFor "expression" : Parse Expr) := fun k =>
    .ite (fun _ => (runs_literal ctx).bind fun l _ => .pure (.literal l)) fun _ => .refuseFor _
  unfold atom
  rw [current_bind]
  cases hk : s.cursor.current.kind with
  | leftParen => exact group_of_at hinner hn hs hk
  | word w => exact runs_wordAtom hinner w hn hs
  | _ => exact hliteral _ hs

/-! ## Levels -/

omit hinner in
theorem runs_mathChain {t : Tier} (ht : t ≠ .atom) {operator? : String → Option MathOp}
    (hoperator : ∀ (w : String) (op : MathOp), operator? w = some op → op.tier = t)
    {operand : Parse Expr} (hoperand : ∀ k ≤ n, ∀ o,
      Runs (Expr.Within ctx.settings t.tighter d o) k (k - 1) d o operand) :
    Runs (Expr.Within ctx.settings t d o) n (n - 1) d o (mathChain ctx operator? operand) := by
  refine (hoperand n (Nat.le_refl n) o).bind fun first hfirst => ?_
  refine runs_chainFrom hoperator (fun k hk => hoperand k (by omega)) ht ?_ hfirst
  rintro o op x y rfl ho hx hy
  exact .math op ho hx hy

omit hinner in
theorem runs_logicalChain (op : LogicalOp) {operand : Parse Expr} (hoperand : ∀ k ≤ n, ∀ o,
      Runs (Expr.Within ctx.settings op.tier.tighter d o) k (k - 1) d o operand) :
    Runs (Expr.Within ctx.settings op.tier d o) n (n - 1) d o (logicalChain ctx op operand) := by
  have ht : op.tier ≠ .atom := by cases op <;> decide
  refine Runs.here.bind fun start _ => (hoperand n (Nat.le_refl n) o).bind fun first hfirst => ?_
  refine (Runs.isAtWord _).bind fun _ _ => .ite (fun _ => ?_) fun _ => .pure (.loosen ht hfirst)
  refine (runs_requireBoolean _ _).bind fun _ _ => ?_
  have hoperator (w : String) (op' : LogicalOp) (h : theConnective op w = some op') :
      op'.tier = op.tier := by rw [(theConnective_eq_some_iff.1 h).1]
  have hcondition : ∀ k ≤ n - 1, ∀ o, Runs (Expr.Within ctx.settings op.tier.tighter d o) k (k - 1)
      d o (condition operand) := fun k hk o => runs_condition (hoperand k (by omega) o)
  refine runs_chainFrom hoperator hcondition ht ?_ hfirst
  intro o op' x y hop ho hx hy
  rw [← hop] at hx hy ⊢
  exact .logical op' ho hx hy

theorem runs_product (hn : n ≤ N) :
    Runs (Expr.Within ctx.settings .product d o) n (n - 1) d o (product ctx inner) :=
  runs_mathChain (t := .product) nofun (fun _ _ h => (multiplicative?_eq_some_iff.1 h).2)
    fun _ hk _ => runs_atom hinner (Nat.le_trans hk hn)

theorem runs_sum (hn : n ≤ N) :
    Runs (Expr.Within ctx.settings .sum d o) n (n - 1) d o (sum ctx inner) :=
  runs_mathChain (t := .sum) nofun (fun _ _ h => (additive?_eq_some_iff.1 h).2)
    fun _ hk _ => runs_product hinner (Nat.le_trans hk hn)

omit hinner in
theorem runs_comparisonAhead : Runs (fun _ => True) n n d o comparisonAhead :=
  .look fun _ => rfl

theorem runs_comparison (hn : n ≤ N) :
    Runs (Expr.Within ctx.settings .comparison d o) n (n - 1) d o (comparison ctx inner) := by
  refine (runs_sum hinner hn).bind fun left hleft => runs_comparisonAhead.bind fun op _ => ?_
  cases op with
  | none => exact .pure (.loosen nofun hleft)
  | some op =>
    refine Runs.advance.bind fun _ _ => ?_
    refine (runs_sum hinner (by omega)).bind fun right hright => ?_
    refine runs_comparisonAhead.bind fun next _ => ?_
    cases next with
    | some _ => exact .refuseHere _
    | none => exact (Runs.pure (.comparison op hleft hright)).le (Nat.sub_le ..)

theorem runs_disjunction (hn : n ≤ N) :
    Runs (Expr.Within ctx.settings .disjunction d o) n (n - 1) d o (disjunction ctx inner) :=
  runs_logicalChain .or fun _ hk _ => runs_logicalChain .and fun _ hj _ =>
    runs_comparison hinner (by omega)

end Atoms

section Levels
variable {ctx : Context}

/-- **Brackets do not outlast the tokens**, since each has a token in front. -/
theorem runs_levelFrom {fuel : Nat} (l : Level) (hn : n ≤ fuel) :
    Runs (Expr.Within ctx.settings l.tier d o) n (n - 1) d o (levelFrom ctx fuel l) := by
  induction fuel generalizing n d o l with
  | zero => exact .of_pos fun hpos => absurd hpos (by omega)
  | succ fuel ih =>
    have hinner : ∀ l, ∀ k < fuel + 1, ∀ d o, Runs (Expr.Within ctx.settings (Level.tier l) d o) k
        (k - 1) d o (levelFrom ctx fuel l) := fun l k hk d o => ih l (Nat.le_of_lt_succ hk)
    cases l with
    | whole => exact runs_disjunction hinner hn
    | sum => exact runs_sum hinner hn

theorem runs_level (l : Level) :
    Runs (Expr.Within ctx.settings l.tier d o) n (n - 1) d o (level ctx l) :=
  Runs.rounds fun k hk => (runs_levelFrom l (Nat.le_succ k)).le (by omega)

theorem runs_expression :
    Runs (Expr.Within ctx.settings .disjunction d o) n (n - 1) d o (expression ctx) :=
  runs_level .whole

theorem runs_boolean :
    Runs (Expr.Within ctx.settings .disjunction d o) n (n - 1) d o (boolean ctx) :=
  runs_condition runs_expression

theorem runs_filter :
    Runs (Expr.Within ctx.settings .disjunction d o) n (n - 1) d o (filter ctx) :=
  .complete runs_boolean

end Levels

end OData.Grammar
