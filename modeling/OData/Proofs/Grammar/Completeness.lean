import OData.Proofs.Grammar.Reading

/-!
# What is derived is read

The levels of the expression grammar read all that is derived at their tiers, as
long as nothing follows that goes on with it (`Tier.Stops`): a closing mark may
follow, or a word that is no operator or one of a looser tier.

As in `Soundness`, the levels are taken one after the other over `inner`, which
reads what is in brackets.  What it is known to read is shorter than the whole by the
bracket, so the induction that ties the knot is on the number of tokens.
-/
namespace OData.Grammar

/-! ## What may follow -/

/-- The tier of an operator, if the word is one. -/
def Tier.ofOperator? (w : String) : Option Tier :=
  ((Keyword.find? w : Option LogicalOp).map LogicalOp.tier).or
    (((Keyword.find? w : Option ComparisonOp).map fun _ => .comparison).or
      ((Keyword.find? w : Option MathOp).map MathOp.tier))

/-- **What may stand behind an expression** of a tier: a closing mark, or a word that is no
operator or one of a looser tier. -/
def Tier.Stops (t : Tier) : Kind → Prop
  | .rightParen | .comma | .eof => True
  | .word w => ∀ u, Tier.ofOperator? w = some u → u.rank < t.rank
  | _ => False

theorem Tier.ofOperator?_logical (op : LogicalOp) : Tier.ofOperator? op.word = some op.tier := by
  cases op <;> decide

theorem Tier.ofOperator?_comparison (op : ComparisonOp) :
    Tier.ofOperator? op.word = some .comparison := by
  cases op <;> decide

theorem Tier.ofOperator?_math (op : MathOp) : Tier.ofOperator? op.word = some op.tier := by
  cases op <;> decide

namespace Tier.Stops
variable {t u : Tier} {k : Kind}

theorem mono (h : t.Stops k) (htu : t.rank ≤ u.rank) : u.Stops k := by
  cases k with
  | word w => exact fun v hv => Nat.lt_of_lt_of_le (h v hv) htu
  | _ => exact h

/-- An operator stops every tier that is tighter than its own. -/
theorem of_operator {w : String} (hw : ofOperator? w = some u) (hut : u.rank < t.rank) :
    t.Stops (.word w) := by
  intro v hv
  rw [hw] at hv
  cases hv
  exact hut

theorem ne_string (h : t.Stops k) (text : String) : k ≠ .string text := by
  rintro rfl
  exact h

theorem ne_dot (h : t.Stops k) : k ≠ .dot := by
  rintro rfl
  exact h

theorem ne_slash (h : t.Stops k) : k ≠ .slash := by
  rintro rfl
  exact h

theorem ne_leftParen (h : t.Stops k) : k ≠ .leftParen := by
  rintro rfl
  exact h

/-- No operator of a tier goes on with an expression that stops. -/
theorem bind_eq_none {ω : Type} {operator? : String → Option ω} (h : t.Stops k)
    (hop : ∀ {w op}, operator? w = some op → ofOperator? w = some t) :
    k.word?.bind operator? = none := by
  cases k with
  | word w =>
    cases ho : operator? w with
    | none => exact ho
    | some op => exact absurd (h t (hop ho)) (Nat.lt_irrefl _)
  | _ => rfl

end Tier.Stops

/-! ## Chains -/

/-- The operands of a chain are no longer than the chain. -/
theorem Linked.bounded {ω : Type} {operator? : String → Option ω} {D : List Token → Expr → Prop}
    {w : List Token} {l : List (ω × Expr)} (h : Linked operator? D w l) {n : Nat}
    (hn : w.length ≤ n) : Linked operator? (fun w e => w.length ≤ n ∧ D w e) w l := by
  induction h with
  | nil => exact .nil
  | cons p hop hD _ ih =>
    simp only [List.length_cons, List.length_append] at hn
    exact .cons p hop ⟨by omega, hD⟩ (ih (by omega))

section Chains
variable {ctx : Context} {ω : Type} {t : Tier} {operator? : String → Option ω}
  {operand : Parse Expr} {D : List Token → Expr → Prop}

/-- What stands behind an operand of a chain stops it. -/
theorem Linked.stops {w r : List Token} {x : Token} {l : List (ω × Expr)}
    (h : Linked operator? D w l) (ht : t ≠ .atom)
    (hop : ∀ {w op}, operator? w = some op → Tier.ofOperator? w = some t) (hx : t.Stops x.kind) :
    ∃ y r', w ++ x :: r = y :: r' ∧ t.tighter.Stops y.kind := by
  have hlt : t.rank < t.tighter.rank := by cases t <;> first | decide | exact absurd rfl ht
  cases h with
  | nil => exact ⟨x, r, rfl, hx.mono (Nat.le_of_lt hlt)⟩
  | cons p ho hD hL => exact ⟨_, _, rfl, .of_operator (hop ho) hlt⟩

/-- The links of a chain leave their operators counted. -/
theorem links_of_linked (ht : t ≠ .atom)
    (hop : ∀ {w op}, operator? w = some op → Tier.ofOperator? w = some t)
    (hoperand : Complete ctx.settings operand t.tighter.Stops D) {w : List Token}
    {l : List (ω × Expr)} (h : Linked operator? D w l) {x : Token} (hx : t.Stops x.kind) :
    ∀ {n : Nat} {s : State} {r : List Token}, l.length < n → s.cursor.rest = w ++ x :: r →
      s.Room ctx.settings w.length →
      links ctx operator? operand n s = .ok l ((s.past w).charged l.length) := by
  induction h with
  | nil =>
    intro n s r hn hs _
    obtain ⟨n, rfl⟩ := Nat.exists_eq_succ_of_ne_zero (Nat.ne_of_gt hn)
    rw [links, currentWord?_bind, current_of_rest hs]
    simp only [hx.bind_eq_none hop]
    rfl
  | @cons v w e l word op p ho hD hL ih =>
    intro n s r hn hs hroom
    obtain ⟨n, rfl⟩ := Nat.exists_eq_succ_of_ne_zero (Nat.ne_of_gt (Nat.zero_lt_of_lt hn))
    simp only [State.Room, List.length_cons, List.length_append] at hroom
    -- The operator is counted before its operand is read, so the room has to be larger by one.
    have hcharge : charge ctx s = .ok () (s.charged 1) := charge_of_lt (by omega)
    have hs₁ : (s.charged 1).cursor.rest = ⟨.word word, p⟩ :: (v ++ (w ++ x :: r)) := by
      rw [← List.append_assoc]
      exact hs
    have hadvance := advance_of_rest hs₁ (by simp)
    have hs₂ : ((s.charged 1).past [⟨.word word, p⟩]).cursor.rest = v ++ (w ++ x :: r) :=
      State.past_rest (by exact hs₁)
    have hread : operand ((s.charged 1).past [⟨.word word, p⟩]) =
        .ok e ((s.charged 1).past (⟨.word word, p⟩ :: v)) := by
      obtain ⟨y, r', hy, hk⟩ := hL.stops (r := r) ht hop hx
      rw [hy] at hs₂
      have hroom₂ : ((s.charged 1).past [⟨.word word, p⟩]).Room ctx.settings v.length := by
        simp only [State.Room, State.charged, State.past]
        omega
      rw [hoperand hk hD hs₂ hroom₂, State.past_past]
      rfl
    have hrest : links ctx operator? operand n ((s.charged 1).past (⟨.word word, p⟩ :: v)) =
        .ok l ((s.past (⟨.word word, p⟩ :: (v ++ w))).charged (l.length + 1)) := by
      have hs₃ : ((s.charged 1).past (⟨.word word, p⟩ :: v)).cursor.rest = w ++ x :: r :=
        State.past_rest (by exact hs₁)
      have hroom₃ : ((s.charged 1).past (⟨.word word, p⟩ :: v)).Room ctx.settings w.length := by
        simp only [State.Room, State.charged, State.past]
        omega
      rw [ih (Nat.lt_of_succ_lt_succ hn) hs₃ hroom₃, State.past_past, State.charged_past,
        State.charged_charged, Nat.add_comm]
      rfl
    rw [links, currentWord?_bind, current_of_rest hs]
    simp only [Kind.word?, Option.bind_some, ho]
    rw [bind_of_ok hcharge, bind_of_ok hadvance, bind_of_ok hread, bind_of_ok hrest]
    rfl

theorem reads_chainFrom (build : ω → Expr → Expr → Expr) (ht : t ≠ .atom)
    (hop : ∀ {w op}, operator? w = some op → Tier.ofOperator? w = some t)
    (hoperand : Complete ctx.settings operand t.tighter.Stops D) {w r : List Token}
    {l : List (ω × Expr)} (h : Linked operator? D w l) {x : Token} (hx : t.Stops x.kind)
    (first : Expr) :
    Reads ctx.settings w.length (chainFrom ctx operator? build first operand) (w ++ x :: r) w
      (Expr.chain build first l) := by
  refine .rounds ?_
  intro s hs hroom
  have hn : l.length < (w ++ x :: r).length + 1 := by
    have := h.length_le
    rw [List.length_append]
    omega
  rw [bind_of_ok (links_of_linked ht hop hoperand h hx hn hs hroom),
    bind_of_ok (release_charged ..)]
  rfl

/-- A chain of arithmetic is read as the nesting that is derived. -/
theorem complete_mathChain {operator? : String → Option MathOp} {n : Nat} (op₀ : MathOp)
    (hop : ∀ {w op}, operator? w = some op ↔ w = op.word ∧ op.tier = op₀.tier)
    (hoperand : Complete ctx.settings operand op₀.tier.tighter.Stops fun w e =>
      w.length ≤ n ∧ Derives ctx.settings op₀.tier.tighter w e) :
    Complete ctx.settings (mathChain ctx operator? operand) op₀.tier.Stops fun w e =>
      w.length ≤ n ∧ Derives ctx.settings op₀.tier w e := by
  rintro w r x e hx ⟨hn, h⟩
  have ht : op₀.tier ≠ .atom := by cases op₀ <;> decide
  have hop' : ∀ {w op}, operator? w = some op → Tier.ofOperator? w = some op₀.tier := by
    intro w op ho
    obtain ⟨rfl, ht⟩ := hop.1 ho
    rw [Tier.ofOperator?_math, ht]
  obtain ⟨v, u, first, l, rfl, rfl, hv, hu⟩ :=
    h.exists_math_links op₀ (fun ht => hop.2 ⟨rfl, ht⟩) rfl
  rw [List.length_append] at hn
  have hu' := hu.bounded (n := n) (by omega)
  -- Whatever follows the first operand, a link or the end of the chain, stops that operand.
  obtain ⟨y, r', hy, hk⟩ := hu'.stops (r := r) ht hop' hx
  have hfirst := hoperand (r := r') hk ⟨by omega, hv⟩
  rw [← hy] at hfirst
  rw [List.append_assoc]
  exact (hfirst.mono (by simp)).bind
    ((reads_chainFrom _ ht hop' hoperand hu' hx first).mono (by simp))

/-- A condition is read by what reads the expression. -/
theorem Complete.condition {p : Parse Expr} {stops : Kind → Prop}
    (h : Complete ctx.settings p stops D) :
    Complete ctx.settings (condition p) stops fun w e => D w e ∧ e.isBoolean = true := by
  rintro w r x e hx ⟨hD, hb⟩
  refine .anywhere fun _ => (h hx hD).map fun s => ?_
  rw [requireBoolean, hb]
  rfl

/-- A chain of one connective is read as the nesting that is derived. -/
theorem complete_logicalChain {n : Nat} (op : LogicalOp)
    (hoperand : Complete ctx.settings operand op.tier.tighter.Stops fun w e =>
      w.length ≤ n ∧ Derives ctx.settings op.tier.tighter w e) :
    Complete ctx.settings (logicalChain ctx op operand) op.tier.Stops fun w e =>
      w.length ≤ n ∧ Derives ctx.settings op.tier w e := by
  rintro w r x e hx ⟨hn, h⟩
  have ht : op.tier ≠ .atom := by cases op <;> decide
  have hop : ∀ {w op'}, theConnective op w = some op' → Tier.ofOperator? w = some op.tier := by
    intro w op' ho
    obtain ⟨rfl, rfl⟩ := theConnective_eq_some_iff.1 ho
    exact Tier.ofOperator?_logical _
  obtain ⟨v, u, first, l, rfl, rfl, hv, hb, hu⟩ := h.exists_logical_links op rfl
  rw [List.length_append] at hn
  have hu' := hu.bounded (n := n) (by omega)
  obtain ⟨y, r', hy, hk⟩ := hu'.stops (r := r) ht hop hx
  have hfirst := hoperand (r := r') hk ⟨by omega, hv⟩
  rw [← hy] at hfirst
  rw [List.append_assoc]
  refine .anywhere fun start => (hfirst.mono (by simp)).bind ?_
  -- Behind a connective there are conditions only, and then the first operand is one too.
  have hcondition : Complete ctx.settings (Grammar.condition operand) op.tier.tighter.Stops
      fun w e => w.length ≤ n ∧ DerivesCondition ctx.settings op.tier.tighter w e :=
    fun _ _ _ _ hx h => hoperand.condition hx ⟨⟨h.1, h.2.1⟩, h.2.2⟩
  have hchain := reads_chainFrom Expr.logical (r := r) ht hop hcondition hu' hx first
  cases hu with
  | nil =>
    -- The word that follows, if one does, is an operator of a looser tier.
    have hne : x.kind.word? ≠ some op.word := by
      intro hw
      obtain hw := kind_of_word? hw
      rw [hw] at hx
      exact Nat.lt_irrefl _ (hx _ (Tier.ofOperator?_logical op))
    refine .isAtWord ?_
    rw [beq_eq_false_iff_ne.2 hne]
    exact .pure _
  | @cons a b e l word op' p ho hD hL =>
    obtain ⟨rfl, rfl⟩ := theConnective_eq_some_iff.1 ho
    refine .isAtWord ?_
    have hw : ((⟨.word op'.word, p⟩ : Token).kind.word? == some op'.word) = true :=
      beq_self_eq_true _
    rw [hw]
    intro s hs hr
    have hok : requireBoolean first start s = .ok () s := by
      rw [requireBoolean, hb (.inl (by simp))]
      rfl
    rw [if_pos rfl, bind_of_ok hok]
    exact (hchain.mono (by simp)) hs hr

end Chains

/-! ## Looking ahead -/

theorem ahead_one {c : Cursor} {t u : Token} {r : List Token} (h : c.rest = t :: u :: r) :
    c.ahead 1 = u := by
  simp [Cursor.ahead, h]

theorem ahead_two {c : Cursor} {t u v : Token} {r : List Token} (h : c.rest = t :: u :: v :: r) :
    c.ahead 2 = v := by
  simp [Cursor.ahead, h]

/-- **What an expression begins with** is no closing mark. -/
theorem Derives.exists_cons {settings : Settings} :
    ∀ {t : Tier} {w : List Token} {e : Expr}, Derives settings t w e →
      ∃ x r, w = x :: r ∧ x.kind ≠ .rightParen
  | _, _, _, .loosen _ h => h.exists_cons
  | _, _, _, .logical _ _ h .. | _, _, _, .comparison _ _ h _ | _, _, _, .math _ _ h _ => by
    obtain ⟨x, r, rfl, hx⟩ := h.exists_cons
    exact ⟨x, _, rfl, hx⟩
  | _, _, _, .group .. | _, _, _, .now .. | _, _, _, .cast .. | _, _, _, .callNone ..
  | _, _, _, .call .. => ⟨_, _, rfl, by simp⟩
  | _, _, _, .literal h => by cases h <;> exact ⟨_, _, rfl, by simp⟩
  | _, _, _, .property h .. | _, _, _, .anyAtAll _ _ _ _ h _
  | _, _, _, .quantified _ _ _ _ _ _ _ h .. => by
    cases h with
    | mk hD _ =>
      cases hD
      exact ⟨_, _, rfl, by simp⟩

/-! ## Atoms -/

section Atoms
variable {ctx : Context} {inner : Level → Parse Expr} {n : Nat}

theorem isLiteralWord_of_notMem {w : String} (h : w ∉ reservedWords) : isLiteralWord w = false :=
  Bool.eq_false_iff.2 fun hw => h (mem_reservedWords.2 hw)

theorem isLiteralWord_builtin (f : Builtin) : isLiteralWord f.word = false := by
  cases f <;> decide

/-- A function is called by its name. -/
theorem callOf_builtin {f : Builtin} (h : f.isCollection = false) :
    callOf ctx inner f.word = functionCall ctx inner f := by
  have hf : (Keyword.find? f.word : Option Builtin) = some f := Keyword.find?_word f
  unfold callOf
  split
  · cases f <;> simp_all [Builtin.word]
  · cases f <;> simp_all [Builtin.word]
  · simp [hf, h]

/-- A word in front of a parenthesis is read as a call. -/
theorem Reads.call {limits : Settings} {m : Nat} {w : String} {p q : Span}
    {r v : List Token} {e : Expr} (hl : isLiteralWord w = false)
    (h : Reads limits m (callOf ctx inner w) (⟨.word w, p⟩ :: ⟨.leftParen, q⟩ :: r) v e) :
    Reads limits m (atom ctx inner) (⟨.word w, p⟩ :: ⟨.leftParen, q⟩ :: r) v e := by
  refine .current ?_
  show Reads _ _ (wordAtom ctx inner w) _ _ _
  rw [wordAtom, hl]
  refine .cursor fun c hc => ?_
  rw [ahead_one hc, if_pos rfl]
  exact h

/-- A name in front of anything else is read as a property. -/
theorem Reads.propertyAtom {limits : Settings} {m : Nat} {w : String} {p : Span} {x : Token}
    {r v : List Token} {e : Expr} (hn : w ∉ reservedWords) (hop : isOperatorWord w = false)
    (hx : x.kind ≠ .leftParen)
    (h : Reads limits m (propertyPath ctx inner) (⟨.word w, p⟩ :: x :: r) v e) :
    Reads limits m (atom ctx inner) (⟨.word w, p⟩ :: x :: r) v e := by
  refine .current ?_
  show Reads _ _ (wordAtom ctx inner w) _ _ _
  rw [wordAtom, isLiteralWord_of_notMem hn]
  refine .cursor fun c hc => ?_
  rw [ahead_one hc, if_neg hx, hop]
  exact h

/-- A literal is read as one. -/
theorem complete_literalAtom {w r : List Token} {x : Token} {l : Literal}
    (hx : ∀ text, x.kind ≠ .string text) (h : IsLiteral ctx.settings w l) :
    Reads ctx.settings w.length (atom ctx inner) (w ++ x :: r) w (.literal l) := by
  have hread : Reads ctx.settings w.length (do let l ← literal ctx; pure (.literal l))
      (w ++ x :: r) w (Expr.literal l) := (complete_literal _ ctx hx h).map fun _ => rfl
  cases h <;> exact .current hread

/-! ### Paths -/

/-- The segments of a path are read up to where it ends. -/
theorem reads_pathTail {limits : Settings} {m : Nat} {x : Token} {r v w : List Token}
    {others : List String} {f? : Option Builtin} (hx : x.kind ≠ .leftParen)
    (hend : ∀ {n}, 0 < n → Reads limits m (pathTail n) (x :: r) v ([], f?))
    (h : Followed .slash IsSegment w others) :
    ∀ {n : Nat}, others.length < n →
      Reads limits m (pathTail n) (w ++ x :: r) (w ++ v) (others, f?) := by
  induction h with
  | nil => exact hend
  | @cons _ w a as p hD hF ih =>
    cases hD with
    | mk q hop =>
    intro n hn
    obtain ⟨n, rfl⟩ := Nat.exists_eq_succ_of_ne_zero (Nat.ne_of_gt (Nat.zero_lt_of_lt hn))
    -- Two tokens after a slash stands no parenthesis, so the word between is no function.
    have hrest := ih (Nat.lt_of_succ_lt_succ hn)
    obtain ⟨y, r', hy, hk⟩ := hF.exists_cons x r
    have hy' : y.kind ≠ .leftParen := by
      rcases hk with hk | rfl
      · simp [hk]
      · exact hx
    simp only [List.cons_append, List.nil_append] at *
    rw [hy] at hrest ⊢
    refine .isAt ?_
    rw [beq_self_eq_true, if_pos rfl]
    refine .cursor fun c hc => .advance (by simp) ?_
    rw [collectionFunctionAhead, ahead_two hc, if_neg hy']
    refine .cons (a := a) ?_ (hrest.map fun _ => rfl)
    refine .current ?_
    simp only [hop, Bool.false_eq_true, if_false]
    exact .advance (by simp) (.pure _)

/-- A path is read up to what ends it, and then what is asked of it. -/
theorem reads_namePath {limits : Settings} {m : Nat} {x : Token} {r u v w r' : List Token}
    {name : String} {names : List String} {f : Option Builtin} {e : Expr}
    (hx : x.kind ≠ .leftParen) (hu : x :: r = u ++ r') (hn : name ∉ reservedWords)
    (h : IsPath v (name :: names))
    (hend : ∀ {n}, 0 < n → Reads limits m (pathTail n) (x :: r) u ([], f))
    (hrest : Reads limits m
      (match f with
        | some f => collectionCall ctx inner (Property.ofName ("/".intercalate (name :: names))) f
        | none => do
          let unit ← unitAccessor
          pure (.property ⟨"/".intercalate (name :: names), unit⟩)) r' w e) :
    Reads limits m (atom ctx inner) (v ++ x :: r) (v ++ (u ++ w)) e := by
  obtain @⟨_, v, _, _, hD, hF⟩ := h
  cases hD with
  | mk p hop =>
  obtain ⟨y, t, hy, hk⟩ := hF.exists_cons x r
  have hy' : y.kind ≠ .leftParen := by
    rcases hk with hk | rfl
    · simp [hk]
    · exact hx
  have hpath : Reads limits m (propertyPath ctx inner) (⟨.word name, p⟩ :: y :: t)
      (⟨.word name, p⟩ :: (v ++ (u ++ w))) e := by
    refine .cons (a := name) ?_ (.rounds ?_)
    · refine .current ?_
      simp only [hop, Bool.false_eq_true, if_false]
      exact .advance (by simp) (.pure _)
    · have hlen := hF.length_le
      rw [← hy, ← List.append_assoc]
      have htail := reads_pathTail hx hend hF (n := (v ++ x :: r).length + 1)
        (by rw [List.length_append]; omega)
      rw [hu, ← List.append_assoc] at htail
      rw [hu, ← List.append_assoc]
      exact htail.bind hrest
  simp only [List.cons_append, List.nil_append, hy]
  exact .propertyAtom hn hop hy' hpath

/-- The slash in front of a collection function ends a path. -/
theorem reads_collectionSlash {limits : Settings} {m : Nat} {f : Builtin} (p q r : Span)
    {t : List Token} (hf : f.isCollection = true) {n : Nat} (hn : 0 < n) :
    Reads limits m (pathTail n)
      (⟨.slash, p⟩ :: ⟨.word f.word, q⟩ :: ⟨.leftParen, r⟩ :: t) [⟨.slash, p⟩] ([], some f) := by
  obtain ⟨n, rfl⟩ := Nat.exists_eq_succ_of_ne_zero (Nat.ne_of_gt hn)
  have hfind : (Keyword.find? f.word : Option Builtin) = some f := Keyword.find?_word f
  refine .isAt ?_
  rw [beq_self_eq_true, if_pos rfl]
  refine .cursor fun c hc => .advance (by simp) ?_
  rw [collectionFunctionAhead, ahead_two hc, ahead_one hc, if_pos rfl]
  simp only [Kind.word?, Option.bind_some, hfind, Option.filter_some, hf, if_true]
  exact .pure _

/-! ### Brackets -/

variable (hinner : ∀ l, Complete ctx.settings (inner l) l.tier.Stops fun w e =>
  w.length < n ∧ Derives ctx.settings l.tier w e)
include hinner

theorem reads_arguments {w r : List Token} {x : Token} {args : List Expr}
    (hx : x.kind = .rightParen) (hw : w.length < n)
    (h : Separated .comma (Derives ctx.settings .sum) w args) :
    Reads ctx.settings w.length (arguments inner) (w ++ x :: r) w args := by
  have hitem : Complete ctx.settings (inner .sum) (fun k => k = .comma ∨ k = .rightParen)
      fun w e => w.length < n ∧ Derives ctx.settings .sum w e := by
    intro w r x e hx h
    refine hinner .sum ?_ h
    rcases hx with hx | hx <;> (rw [hx]; trivial)
  have hlist := complete_separated (by rintro _ rfl; simp) hitem hx (r := r) (h.bounded hw)
  obtain @⟨_, _, _, _, hD, hF⟩ := h
  obtain ⟨y, t, rfl, hy⟩ := hD.exists_cons
  refine .isAt ?_
  rw [beq_eq_false_iff_ne.2 hy]
  exact hlist

omit hinner in
theorem reads_functionCall {w : List Token} {args : List Expr} {f : Builtin} (p q r : Span)
    {x : Token} {u : List Token} (ha : f.arity.allows args.length = true)
    (hargs : Reads ctx.settings w.length (arguments inner) (w ++ ⟨.rightParen, r⟩ :: x :: u) w
      args) :
    Reads ctx.settings (w.length + 3) (functionCall ctx inner f)
      (⟨.word f.word, p⟩ :: ⟨.leftParen, q⟩ :: (w ++ ⟨.rightParen, r⟩ :: x :: u))
      (⟨.word f.word, p⟩ :: ⟨.leftParen, q⟩ :: (w ++ [⟨.rightParen, r⟩])) (.call f args) := by
  refine .anywhere fun _ => .advance (by simp) (.nested ?_)
  refine .expect (by simp) ((hargs.mono (by omega)).bind (.expect (by simp) ?_))
  simp only [ha, if_true]
  exact .pure _

theorem reads_collectionCall {w : List Token} {body : Expr} {f : Builtin} {param : String}
    (property : Property) (q r s t u : Span) {x : Token} {v : List Token}
    (hparam : isOperatorWord param = false) (hw : w.length < n)
    (hD : Derives ctx.settings .disjunction w body) (hb : body.isBoolean = true) :
    Reads ctx.settings (w.length + 5) (collectionCall ctx inner property f)
      (⟨.word f.word, q⟩ :: ⟨.leftParen, r⟩ :: ⟨.word param, s⟩ :: ⟨.colon, t⟩ ::
        (w ++ ⟨.rightParen, u⟩ :: x :: v))
      (⟨.word f.word, q⟩ :: ⟨.leftParen, r⟩ :: ⟨.word param, s⟩ :: ⟨.colon, t⟩ ::
        (w ++ [⟨.rightParen, u⟩])) (.call f [.property property, .lambda param body]) := by
  have hbody := (hinner .whole).condition (x := ⟨.rightParen, u⟩) (r := x :: v) trivial
    ⟨⟨hw, hD⟩, hb⟩
  have hlambda : Reads ctx.settings (w.length + 2) (lambda inner)
      (⟨.word param, s⟩ :: ⟨.colon, t⟩ :: (w ++ ⟨.rightParen, u⟩ :: x :: v))
      (⟨.word param, s⟩ :: ⟨.colon, t⟩ :: w) (.lambda param body) := by
    refine .expectWord (by simp) ?_
    simp only [hparam, Bool.false_eq_true, if_false]
    exact .expect (by simp) ((hbody.mono (by omega)).map fun _ => rfl)
  refine .anywhere fun _ => .advance (by simp) (.nested (.expect (by simp) (.isAt ?_)))
  show Reads _ _ (if false = true then _ else _) _ _ _
  rw [if_neg Bool.false_ne_true]
  exact Reads.bind (v := ⟨.word param, s⟩ :: ⟨.colon, t⟩ :: w) (hlambda.mono (by omega))
    (.expect (by simp) (.pure _))

theorem reads_castCall {v w : List Token} {l : Literal} {type : EdmType} (p q r s : Span)
    {x : Token} {u : List Token} (hv : v.length < n)
    (hD : Derives ctx.settings .sum v (.literal l)) (hY : IsType w type) :
    Reads ctx.settings (v.length + w.length + 4) (castCall ctx inner)
      (⟨.word "cast", p⟩ :: ⟨.leftParen, q⟩ ::
        (v ++ ⟨.comma, r⟩ :: (w ++ ⟨.rightParen, s⟩ :: x :: u)))
      (⟨.word "cast", p⟩ :: ⟨.leftParen, q⟩ :: (v ++ ⟨.comma, r⟩ :: (w ++ [⟨.rightParen, s⟩])))
      (.cast l type) := by
  have hvalue := hinner .sum (x := ⟨.comma, r⟩) (r := w ++ ⟨.rightParen, s⟩ :: x :: u) trivial
    ⟨hv, hD⟩
  have htype := complete_typeName ctx.settings (x := ⟨.rightParen, s⟩) (r := x :: u) (by simp) hY
  refine .advance (by simp) (.nested (.expect (by simp) (.anywhere fun _ => ?_)))
  refine (hvalue.mono (by omega)).bind (.previousSpan fun _ => .expect (by simp) ?_)
  exact (htype.mono (by omega)).bind (.expect (by simp) (.pure _))

/-- Atoms are read, when what is in brackets is. -/
theorem complete_atom : Complete ctx.settings (atom ctx inner) Tier.atom.Stops fun w e =>
    w.length ≤ n ∧ Derives ctx.settings .atom w e := by
  rintro w r x e hx ⟨hn, h⟩
  -- The tier is a variable in the cases; at this one only the rules for atoms remain.
  generalize ht : Tier.atom = t at h
  cases h with
  | loosen h _ => exact absurd ht.symm h
  | logical op => cases op <;> cases ht
  | comparison => cases ht
  | math op => cases op <;> cases ht
  | literal h => exact complete_literalAtom hx.ne_string h
  | @group w e p q h =>
    simp only [List.length_cons, List.length_append, List.length_nil] at hn
    have hread := hinner .whole (x := ⟨.rightParen, q⟩) (r := x :: r) trivial ⟨by omega, h⟩
    rw [List.cons_append, List.append_assoc]
    refine .current (.mono (.nested (n := w.length) ?_) (by simp))
    exact .advance (by simp) (hread.bind (.expect (by simp) (.pure _)))
  | now p q s h =>
    refine .call (by decide) (.advance (by simp) (.expect (by simp) (.expect (by simp) ?_)))
    have hunit := complete_unitAccessor ctx.settings (r := r) hx.ne_dot h
    exact (hunit.mono (by simp only [List.length_cons]; omega)).map fun _ => rfl
  | @cast v w l type p q s t hD hY =>
    simp only [List.length_cons, List.length_append, List.length_nil] at hn
    have hread := reads_castCall hinner p q s t (x := x) (u := r) (by omega) hD hY
    simp only [List.cons_append, List.append_assoc, List.nil_append]
    exact .call (by decide) (hread.mono (by simp; omega))
  | callNone f p q s hf ha =>
    refine .call (isLiteralWord_builtin f) ?_
    rw [callOf_builtin hf]
    refine reads_functionCall (w := []) p q s ha (.isAt ?_)
    rw [beq_self_eq_true, if_pos rfl]
    exact .pure _
  | @call w args f p q s hf hD ha =>
    simp only [List.length_cons, List.length_append, List.length_nil] at hn
    have hargs := reads_arguments (x := ⟨.rightParen, s⟩) (r := x :: r) hinner rfl (by omega) hD
    simp only [List.cons_append, List.append_assoc, List.nil_append]
    refine .call (isLiteralWord_builtin f) ?_
    rw [callOf_builtin hf]
    exact (reads_functionCall p q s ha hargs).mono (by simp)
  | @property v w name names unit hD hN hU =>
    -- A path ends at a dot or at what follows the atom: neither goes on with it.
    obtain ⟨y, t, hy, hk⟩ : ∃ y t, w ++ x :: r = y :: t ∧
        (y.kind ≠ .leftParen ∧ y.kind ≠ .slash) := by
      cases hU with
      | none => exact ⟨x, r, rfl, hx.ne_leftParen, hx.ne_slash⟩
      | some => exact ⟨_, _, rfl, by simp, by simp⟩
    have hunit := (complete_unitAccessor ctx.settings (r := r) hx.ne_dot hU).mono
      (n := (v ++ w).length) (by simp)
    rw [List.append_assoc, hy]
    rw [hy] at hunit
    refine reads_namePath (u := []) (f := none) hk.1 rfl hN hD ?_ (hunit.map fun _ => rfl)
    intro n hn
    obtain ⟨n, rfl⟩ := Nat.exists_eq_succ_of_ne_zero (Nat.ne_of_gt hn)
    refine .isAt ?_
    rw [beq_eq_false_iff_ne.2 hk.2]
    exact .pure _
  | @anyAtAll v name names p q s t hD hN =>
    have hslash : ∀ {m n}, 0 < n → Reads ctx.settings m (pathTail n) _ _ ([], some .any) :=
      fun hn => reads_collectionSlash p q s (t := ⟨.rightParen, t⟩ :: x :: r) rfl hn
    rw [List.append_assoc]
    refine reads_namePath (by simp) rfl hN hD hslash ?_
    refine .anywhere fun _ => .advance (by simp) (.mono (.nested (n := 0) ?_) (by simp))
    refine .expect (by simp) (.isAt ?_)
    rw [beq_self_eq_true, if_pos rfl, if_neg (by decide)]
    exact .expect (by simp) (.pure _)
  | @quantified v w name names param body f p q s t u y hD hN hf hparam hbody hb =>
    simp only [List.length_cons, List.length_append, List.length_nil] at hn
    have hslash : ∀ {m n}, 0 < n → Reads ctx.settings m (pathTail n) _ _ ([], some f) :=
      fun hn => reads_collectionSlash p q s
        (t := ⟨.word param, t⟩ :: ⟨.colon, u⟩ :: (w ++ ⟨.rightParen, y⟩ :: x :: r)) hf hn
    have hcall := reads_collectionCall hinner (f := f)
      (Property.ofName ("/".intercalate (name :: names)))
      q s t u y (x := x) (v := r) hparam (by omega) hbody hb
    simp only [List.append_assoc, List.cons_append, List.nil_append]
    exact reads_namePath (by simp) rfl hN hD hslash (hcall.mono (by simp; omega))

/-! ## Levels -/

theorem complete_product : Complete ctx.settings (product ctx inner) Tier.product.Stops
    fun w e => w.length ≤ n ∧ Derives ctx.settings .product w e :=
  complete_mathChain .mul multiplicative?_eq_some_iff (complete_atom hinner)

theorem complete_sum : Complete ctx.settings (sum ctx inner) Tier.sum.Stops
    fun w e => w.length ≤ n ∧ Derives ctx.settings .sum w e :=
  complete_mathChain .add additive?_eq_some_iff (complete_product hinner)

omit hinner in
theorem reads_comparisonAhead {limits : Settings} {m : Nat} {x : Token} {r w : List Token}
    {f : Option ComparisonOp → Parse Expr} {e : Expr}
    (h : Reads limits m (f (x.kind.word?.bind Keyword.find?)) (x :: r) w e) :
    Reads limits m (comparisonAhead >>= f) (x :: r) w e := by
  intro s hs hr
  have h := h hs hr
  rw [← current_of_rest hs] at h
  exact h

theorem complete_comparison : Complete ctx.settings (comparison ctx inner) Tier.comparison.Stops
    fun w e => w.length ≤ n ∧ Derives ctx.settings .comparison w e := by
  rintro w r x e hx ⟨hn, h⟩
  -- No comparison follows, neither after one operand nor after two.
  have hnone : x.kind.word?.bind (Keyword.find? : String → Option ComparisonOp) = none :=
    hx.bind_eq_none fun {w op} ho => by
      rw [Keyword.find?_eq_some_iff.1 ho]
      exact Tier.ofOperator?_comparison op
  have hx' : Tier.sum.Stops x.kind := hx.mono (by decide)
  generalize ht : Tier.comparison = t at h
  cases h with
  | loosen _ h =>
    subst ht
    refine (complete_sum hinner hx' ⟨hn, h⟩).bind_nil (reads_comparisonAhead ?_)
    rw [hnone]
    exact .pure _
  | @comparison v w left right op p hL hR =>
    simp only [List.length_append, List.length_cons] at hn
    have hop : Tier.sum.Stops (Kind.word op.word) :=
      .of_operator (Tier.ofOperator?_comparison op) (by decide)
    have hfind : (Keyword.find? op.word : Option ComparisonOp) = some op := Keyword.find?_word op
    have hleft := complete_sum hinner (x := ⟨.word op.word, p⟩) (r := w ++ x :: r) hop
      ⟨by omega, hL⟩
    have hright := complete_sum hinner (r := r) hx' ⟨by omega, hR⟩
    rw [List.append_assoc]
    refine (hleft.mono (by simp)).bind (reads_comparisonAhead ?_)
    simp only [Kind.word?, Option.bind_some, hfind]
    refine .advance (by simp) ((hright.mono (by simp; omega)).bind_nil (reads_comparisonAhead ?_))
    rw [hnone]
    exact .pure _
  | logical op => cases op <;> cases ht
  | math op => cases op <;> cases ht
  | _ => cases ht

theorem complete_disjunction :
    Complete ctx.settings (disjunction ctx inner) Tier.disjunction.Stops
      fun w e => w.length ≤ n ∧ Derives ctx.settings .disjunction w e :=
  complete_logicalChain .or (complete_logicalChain .and (complete_comparison hinner))

end Atoms

theorem complete_levelFrom (ctx : Context) (n : Nat) :
    ∀ l, Complete ctx.settings (levelFrom ctx n l) l.tier.Stops fun w e =>
      w.length < n ∧ Derives ctx.settings l.tier w e := by
  induction n with
  | zero => rintro l w r x e _ ⟨hn, -⟩; cases hn
  | succ n ih =>
    rintro l w r x e hx ⟨hn, h⟩
    cases l with
    | whole => exact complete_disjunction ih hx ⟨Nat.le_of_lt_succ hn, h⟩
    | sum => exact complete_sum ih hx ⟨Nat.le_of_lt_succ hn, h⟩

/-- Every expression that is derived is read where what follows does not go on with it. -/
theorem complete_level (ctx : Context) (l : Level) :
    Complete ctx.settings (level ctx l) l.tier.Stops (Derives ctx.settings l.tier) := by
  intro w r x e hx h
  refine .rounds (complete_levelFrom ctx _ l hx ⟨?_, h⟩)
  simp only [List.length_append, List.length_cons]
  omega

theorem complete_boolean (ctx : Context) :
    Complete ctx.settings (boolean ctx) Tier.disjunction.Stops
      (DerivesCondition ctx.settings .disjunction) :=
  (complete_level ctx .whole).condition

/-- What is derived from all the tokens is read. -/
theorem Complete.complete {α : Type} {limits : Settings} {p : Parse α} {stops : Kind → Prop}
    {D : List Token → α → Prop} (hp : Complete limits p stops D) (hstop : stops .eof)
    {ts : List Token} (hts : Ends ts) {a : α} (hD : D ts.dropLast a) {s : State}
    (hs : s.cursor.rest = ts) (hr : s.Room limits ts.length) :
    ∃ t, Grammar.complete p s = .ok a t := by
  obtain ⟨body, stop, rfl, hk, hb⟩ := hts
  rw [List.dropLast_concat] at hD
  rw [List.length_append] at hr
  have hread := (hp (x := stop) (r := []) (by rw [hk]; exact hstop) hD).mono
    (n := body.length + [stop].length) (by omega) hs hr
  have hrest : (s.past body).cursor.rest = [stop] := State.past_rest hs
  have hat : (s.past body).cursor.isAt .eof = true := by
    simp [Cursor.isAt, current_of_rest hrest, hk]
  refine ⟨(s.past body).advanced, ?_⟩
  rw [Grammar.complete, bind_of_ok hread, bind_of_ok ((expect_apply ..).trans (if_pos hat))]
  rfl

end OData.Grammar
