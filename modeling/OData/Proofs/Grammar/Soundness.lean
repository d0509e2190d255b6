import OData.Proofs.Grammar.Chain
import OData.Proofs.Grammar.Run

/-!
# What is read is derived

Whatever a part of the expression grammar reads, the tokens that it moved past are
a way to write it.  `Sound p D` says so for a reading `p` and a rule `D`; nothing
is asked of the limits, and nothing is said of a reading that fails.

The levels are taken one after the other, each over the ones below it and over
`inner`, which reads what is in brackets.  Chains are read as a first operand and
links, which the rules of `Chain` turn into the nesting that derivations speak of.
-/
namespace OData.Grammar
variable {α β : Type}

/-- All that a reading reads is derived by a rule from the tokens that it takes. -/
def Sound (p : Parse α) (D : List Token → α → Prop) : Prop :=
  ∀ ⦃s t : State⦄ ⦃a : α⦄, Ends s.cursor.rest → p s = .ok a t → ∃ w, s.Takes w t ∧ D w a

theorem Sound.mono {p : Parse α} {D E : List Token → α → Prop} (h : Sound p D)
    (hDE : ∀ w a, D w a → E w a) : Sound p E := by
  intro s t a hs hp
  obtain ⟨w, hw, hd⟩ := h hs hp
  exact ⟨w, hw, hDE w a hd⟩

/-! ## Lists -/

theorem sound_following {sep : Kind} {item : Parse α} {D : List Token → α → Prop}
    (hsep : sep ≠ .eof) (hitem : Sound item D) (n : Nat) :
    Sound (following sep item n) (Followed sep D) := by
  induction n with
  | zero => intro s t as _ h; cases h
  | succ n ih =>
    intro s t as hs h
    rw [following, bind_eq_ok] at h
    obtain ⟨b, s₁, hb, h⟩ := h
    rcases of_consume hs hsep hb with ⟨rfl, p, hp⟩ | ⟨rfl, rfl, -⟩
    · simp only [if_true, bind_eq_ok] at h
      obtain ⟨a, s₂, ha, as', s₃, has, h⟩ := h
      cases h
      obtain ⟨v, hv, hD⟩ := hitem hp.ends ha
      obtain ⟨w, hw, hF⟩ := ih hv.ends has
      exact ⟨_, hp.cons (hv.trans hw), .cons p hD hF⟩
    · cases h
      exact ⟨[], .refl hs, .nil⟩

theorem sound_separated {sep : Kind} {item : Parse α} {D : List Token → α → Prop}
    (hsep : sep ≠ .eof) (hitem : Sound item D) :
    Sound (separated sep item) (Separated sep D) := by
  intro s t as hs h
  simp only [separated, bind_eq_ok, rounds_bind] at h
  obtain ⟨a, s₁, ha, as', s₂, has, h⟩ := h
  cases h
  obtain ⟨v, hv, hD⟩ := hitem hs ha
  obtain ⟨w, hw, hF⟩ := sound_following hsep hitem _ hv.ends has
  exact ⟨_, hv.trans hw, .mk hD hF⟩

/-! ## Names and literals -/

theorem sound_pathSegment : Sound pathSegment IsSegment := by
  intro s t name hs h
  rw [pathSegment, current_bind] at h
  cases hk : s.cursor.current.kind with
  | word w =>
    simp only [hk] at h
    cases hop : isOperatorWord w with
    | true => simp only [hop, if_true] at h; cases h
    | false =>
      simp only [hop, Bool.false_eq_true, if_false, bind_eq_ok] at h
      obtain ⟨_, s₁, ha, h⟩ := h
      obtain rfl := of_advance ha
      cases h
      exact ⟨_, .advanced hs hk (by simp), .mk _ hop⟩
  | _ => simp only [hk] at h; cases h

/-- A path is read by its segments. -/
def DerivesPath (w : List Token) (name : String) : Prop :=
  ∃ names, IsPath w names ∧ name = "/".intercalate names

theorem sound_memberPath : Sound memberPath DerivesPath := by
  intro s t name hs h
  rw [memberPath, bind_eq_ok] at h
  obtain ⟨names, s₁, hn, h⟩ := h
  cases h
  obtain ⟨w, hw, hD⟩ := sound_separated (by simp) sound_pathSegment hs hn
  exact ⟨w, hw, names, hD, rfl⟩

theorem sound_unitAccessor : Sound unitAccessor IsUnit := by
  intro s t unit hs h
  rw [unitAccessor, bind_eq_ok] at h
  obtain ⟨b, s₁, hb, h⟩ := h
  rcases of_consume hs (by simp) hb with ⟨rfl, p, hp⟩ | ⟨rfl, rfl, -⟩
  · simp only [if_true, bind_eq_ok] at h
    obtain ⟨name, s₂, hn, h⟩ := h
    have hq := of_expectWord hp.ends hn
    cases hu : (Keyword.find? name.value : Option TimeUnit) with
    | none => simp only [hu] at h; cases h
    | some unit =>
      simp only [hu, bind_eq_ok] at h
      obtain ⟨r, s₃, hr, u, s₄, hu', h⟩ := h
      cases h
      have hr := of_expect hq.ends (by simp) hr
      have hu' := of_expect hr.ends (by simp) hu'
      rw [Keyword.find?_eq_some_iff.1 hu] at hq
      exact ⟨_, hp.cons (hq.cons (hr.cons hu')), .some unit p name.span r u⟩
  · cases h
    exact ⟨[], .refl hs, .none⟩

theorem sound_typeName : Sound typeName IsType := by
  intro s t type hs h
  simp only [typeName, bind_eq_ok, rounds_bind] at h
  obtain ⟨first, s₁, hf, others, s₂, ho, h⟩ := h
  have hword : Sound (expectWord "type name segment") fun w a => IsName w a.value :=
    fun s t a hs h => ⟨_, of_expectWord hs h, .mk ..⟩
  have hv := of_expectWord hs hf
  obtain ⟨w, hw, hF⟩ := sound_following (by simp) hword _ hv.ends ho
  cases ht : (Keyword.find? (".".intercalate (first.value :: others.map Spanned.value)) :
      Option EdmType) with
  | none => simp only [ht] at h; cases h
  | some type' =>
    simp only [ht] at h
    cases h
    refine ⟨_, hv.trans hw, .mk (.mk (.mk ..) (hF.map _)) ?_⟩
    exact Keyword.find?_eq_some_iff.1 ht

theorem isLiteral_of_tokenLiteral {ctx : Context} {k : Kind} {l : Literal} (p : Span)
    (h : tokenLiteral ctx k = .ok l) : IsLiteral ctx.settings [⟨k, p⟩] l := by
  cases k with
  | string text => cases h; exact .string text p
  | decimal text => cases h; exact .decimal text p
  | double text => cases h; exact .double text p
  | negativeInfinity => cases h; exact .negativeInfinity p
  | integer text =>
    rw [tokenLiteral] at h
    split at h
    · next v hv => cases h; exact .integer p hv
    · cases h
  | parameter name =>
    rw [tokenLiteral] at h
    split at h
    · next hn => cases h; exact .parameter p hn
    · cases h
  | word w =>
    rw [tokenLiteral] at h
    split at h
    · next l' hl =>
      cases h
      unfold wordLiteral? at hl
      split at hl <;> cases hl
      · exact .yes p
      · exact .no p
      · exact .nan p
      · exact .infinity p
    · cases h
  | _ => cases h

theorem sound_nullLiteral {ctx : Context} {s t : State} {l : Literal} (hs : Ends s.cursor.rest)
    (hk : s.cursor.current.kind = .word "null") (h : nullLiteral s = .ok l t) :
    ∃ w, s.Takes w t ∧ IsLiteral ctx.settings w l := by
  simp only [nullLiteral, here_bind, bind_eq_ok, current_bind] at h
  obtain ⟨_, s₁, ha, h⟩ := h
  obtain rfl := of_advance ha
  have hn := State.Takes.advanced hs hk (by simp)
  have hnull : EStateM.Result.ok (ε := Stop) (.null none) s.advanced = .ok l t →
      ∃ w, s.Takes w t ∧ IsLiteral ctx.settings w l := by
    intro h
    cases h
    exact ⟨_, hn, .null _⟩
  cases hc : s.advanced.cursor.current.kind with
  | string hint =>
    simp only [hc] at h
    by_cases hg : s.advanced.cursor.current.span.start = s.cursor.current.span.stop
    · rw [if_pos hg, bind_eq_ok] at h
      obtain ⟨_, s₂, ha, h⟩ := h
      obtain rfl := of_advance ha
      cases h
      exact ⟨_, hn.cons (.advanced hn.ends hc (by simp)), .typedNull hint hg⟩
    · rw [if_neg hg] at h
      exact hnull h
  | _ => simp only [hc] at h; exact hnull h

theorem sound_literal (ctx : Context) : Sound (literal ctx) (IsLiteral ctx.settings) := by
  intro s t l hs h
  rw [literal, current_bind] at h
  by_cases hk : s.cursor.current.kind = .word "null"
  · rw [if_pos hk] at h
    exact sound_nullLiteral hs hk h
  · rw [if_neg hk] at h
    cases hl : tokenLiteral ctx s.cursor.current.kind with
    | error c => simp only [hl] at h; cases h
    | ok l' =>
      simp only [hl, bind_eq_ok] at h
      obtain ⟨_, s₁, ha, h⟩ := h
      obtain rfl := of_advance ha
      cases h
      refine ⟨_, .advanced hs rfl ?_, isLiteral_of_tokenLiteral _ hl⟩
      intro he
      rw [he] at hl
      cases hl

/-! ## Chains -/

variable {ctx : Context} {inner : Level → Parse Expr}

theorem of_requireBoolean {e : Expr} {start : Span} {s t : State} {u : Unit}
    (h : requireBoolean e start s = .ok u t) : t = s ∧ e.isBoolean = true := by
  rw [requireBoolean] at h
  cases hb : e.isBoolean with
  | true =>
    simp only [hb, if_true] at h
    cases h
    exact ⟨rfl, rfl⟩
  | false =>
    simp only [hb, Bool.false_eq_true, if_false, previousSpan_bind] at h
    cases h

theorem sound_condition {p : Parse Expr} {D : List Token → Expr → Prop} (hp : Sound p D) :
    Sound (condition p) fun w e => D w e ∧ e.isBoolean = true := by
  intro s t e hs h
  simp only [condition, here_bind, bind_eq_ok] at h
  obtain ⟨e', s₁, he, _, s₂, hb, h⟩ := h
  cases h
  obtain ⟨rfl, hbool⟩ := of_requireBoolean hb
  obtain ⟨w, hw, hD⟩ := hp hs he
  exact ⟨w, hw, hD, hbool⟩

/-- The links of a chain leave their operators counted. -/
theorem sound_links {ω : Type} {operator? : String → Option ω} {operand : Parse Expr}
    {D : List Token → Expr → Prop} (hoperand : Sound operand D) (n : Nat) :
    ∀ {s t : State} {l : List (ω × Expr)}, Ends s.cursor.rest →
      links ctx operator? operand n s = .ok l t →
      ∃ w, (s.charged l.length).Takes w t ∧ Linked operator? D w l := by
  induction n with
  | zero => intro s t l _ h; cases h
  | succ n ih =>
    intro s t l hs h
    rw [links, currentWord?_bind] at h
    cases ho : s.cursor.current.kind.word?.bind operator? with
    | none =>
      simp only [ho] at h
      cases h
      exact ⟨[], .refl hs, .nil⟩
    | some op =>
      simp only [ho, bind_eq_ok] at h
      obtain ⟨_, s₁, hc, _, s₂, ha, e, s₃, he, l', s₄, hl, h⟩ := h
      cases h
      obtain rfl := of_charge hc
      obtain rfl := of_advance ha
      obtain ⟨word, hword, hop⟩ := Option.bind_eq_some_iff.1 ho
      -- The link takes its tokens from the charged state, and the links after it from there.
      have hx : (s.charged 1).Takes [⟨.word word, _⟩] _ :=
        .advanced hs (kind_of_word? hword) (by simp)
      obtain ⟨v, hv, hD⟩ := hoperand hx.ends he
      obtain ⟨w, hw, hL⟩ := ih hv.ends hl
      have hall := ((hx.cons hv).charged l'.length).trans hw
      rw [State.charged_charged, Nat.add_comm] at hall
      exact ⟨_, hall, .cons _ hop hD hL⟩

theorem sound_chainFrom {ω : Type} {operator? : String → Option ω}
    {build : ω → Expr → Expr → Expr} {first e : Expr} {operand : Parse Expr}
    {D : List Token → Expr → Prop} (hoperand : Sound operand D) {s t : State}
    (hs : Ends s.cursor.rest) (h : chainFrom ctx operator? build first operand s = .ok e t) :
    ∃ w l, s.Takes w t ∧ Linked operator? D w l ∧ e = Expr.chain build first l := by
  simp only [chainFrom, rounds_bind, bind_eq_ok] at h
  obtain ⟨l, s₁, hl, _, s₂, hr, h⟩ := h
  cases h
  obtain ⟨w, hw, hL⟩ := sound_links hoperand _ hs hl
  -- As many operators are released as there are links, so the count is what it was.
  have he : s₁ = (s.past w).charged l.length := hw.eq_past
  rw [he, release_charged] at hr
  cases hr
  have hrest : s₁.cursor.rest = (s.past w).cursor.rest := by rw [he]; rfl
  exact ⟨w, l, ⟨hrest ▸ hw.rest, rfl, hrest ▸ hw.ends⟩, hL, rfl⟩

theorem sound_mathChain {t : Tier} {operator? : String → Option MathOp} {operand : Parse Expr}
    (ht : t ≠ .atom) (hop : ∀ {w op}, operator? w = some op → w = op.word ∧ op.tier = t)
    (hoperand : Sound operand (Derives ctx.settings t.tighter)) :
    Sound (mathChain ctx operator? operand) (Derives ctx.settings t) := by
  intro s t e hs h
  simp only [mathChain, bind_eq_ok] at h
  obtain ⟨first, s₁, hf, h⟩ := h
  obtain ⟨v, hv, hD⟩ := hoperand hs hf
  obtain ⟨w, l, hw, hL, rfl⟩ := sound_chainFrom hoperand hv.ends h
  exact ⟨_, hv.trans hw, .of_math_links ht hop hD hL⟩

theorem sound_logicalChain (op : LogicalOp) {operand : Parse Expr}
    (hoperand : Sound operand (Derives ctx.settings op.tier.tighter)) :
    Sound (logicalChain ctx op operand) (Derives ctx.settings op.tier) := by
  intro s t e hs h
  simp only [logicalChain, here_bind, bind_eq_ok, isAtWord_bind] at h
  obtain ⟨first, s₁, hf, h⟩ := h
  obtain ⟨v, hv, hD⟩ := hoperand hs hf
  cases hw : s₁.cursor.isAtWord op.word with
  | true =>
    simp only [hw, if_true, bind_eq_ok] at h
    obtain ⟨_, s₂, hb, h⟩ := h
    obtain ⟨rfl, hbool⟩ := of_requireBoolean hb
    obtain ⟨w, l, hw, hL, rfl⟩ := sound_chainFrom (sound_condition hoperand) hv.ends h
    exact ⟨_, hv.trans hw, (Derives.of_logical_links ⟨hD, hbool⟩ hL).1⟩
  | false =>
    simp only [hw, Bool.false_eq_true, if_false] at h
    cases h
    have ht : op.tier ≠ .atom := by cases op <;> decide
    exact ⟨v, hv, .loosen ht hD⟩

/-! ## Atoms -/

theorem sound_nested {p : Parse α} {D : List Token → α → Prop} (hp : Sound p D) :
    Sound (nested ctx p) D := by
  intro s t a hs h
  obtain ⟨u, hu, ho⟩ := of_nested h
  obtain ⟨w, hw, hD⟩ := hp (s := s.deeper) hs hu
  exact ⟨w, hw.outside ho, hD⟩

section Atoms
variable (hinner : ∀ l, Sound (inner l) (Derives ctx.settings l.tier))
variable {s t : State} {e : Expr}

theorem sound_nowCall (hs : Ends s.cursor.rest) (hw : s.cursor.current.kind = .word "now")
    (h : nowCall s = .ok e t) : ∃ w, s.Takes w t ∧ Derives ctx.settings .atom w e := by
  simp only [nowCall, bind_eq_ok] at h
  obtain ⟨_, s₁, ha, p, s₂, hp, q, s₃, hq, unit, s₄, hu, h⟩ := h
  cases h
  obtain rfl := of_advance ha
  have hn := State.Takes.advanced hs hw (by simp)
  have hp := of_expect hn.ends (by simp) hp
  have hq := of_expect hp.ends (by simp) hq
  obtain ⟨w, hw, hU⟩ := sound_unitAccessor hq.ends hu
  exact ⟨_, hn.cons (hp.cons (hq.cons hw)), .now _ p q hU⟩

include hinner

theorem sound_castCall (hs : Ends s.cursor.rest) (hw : s.cursor.current.kind = .word "cast")
    (h : castCall ctx inner s = .ok e t) :
    ∃ w, s.Takes w t ∧ Derives ctx.settings .atom w e := by
  simp only [castCall, bind_eq_ok] at h
  obtain ⟨_, s₁, ha, h⟩ := h
  obtain rfl := of_advance ha
  have hn := State.Takes.advanced hs hw (by simp)
  obtain ⟨u, h, ho⟩ := of_nested h
  simp only [bind_eq_ok, here_bind, previousSpan_bind] at h
  obtain ⟨p, s₂, hp, value, s₃, hv, q, s₄, hq, type, s₅, hy, r, s₆, hr, h⟩ := h
  have hp := of_expect (s := s.advanced.deeper) hn.ends (by simp) hp
  obtain ⟨v, hval, hV⟩ := hinner .sum hp.ends hv
  have hq := of_expect hval.ends (by simp) hq
  obtain ⟨w, hty, hY⟩ := sound_typeName hq.ends hy
  have hr := of_expect hty.ends (by simp) hr
  cases value with
  | literal l =>
    cases h
    have hin := hp.cons (hval.trans (hq.cons (hty.trans hr)))
    exact ⟨_, hn.cons (hin.outside ho), .cast _ p q r hV hY⟩
  | _ => cases h

theorem sound_arguments :
    Sound (arguments inner) fun w args =>
      (w = [] ∧ args = []) ∨ Separated .comma (Derives ctx.settings .sum) w args := by
  intro s t args hs h
  rw [arguments, isAt_bind] at h
  cases hc : s.cursor.isAt .rightParen with
  | true =>
    simp only [hc, if_true] at h
    cases h
    exact ⟨[], .refl hs, .inl ⟨rfl, rfl⟩⟩
  | false =>
    simp only [hc, Bool.false_eq_true, if_false] at h
    obtain ⟨w, hw, hS⟩ := sound_separated (by simp) (hinner .sum) hs h
    exact ⟨w, hw, .inr hS⟩

theorem sound_functionCall {f : Builtin} (hs : Ends s.cursor.rest)
    (hw : s.cursor.current.kind = .word f.word) (hf : f.isCollection = false)
    (h : functionCall ctx inner f s = .ok e t) :
    ∃ w, s.Takes w t ∧ Derives ctx.settings .atom w e := by
  simp only [functionCall, here_bind, bind_eq_ok] at h
  obtain ⟨_, s₁, ha, h⟩ := h
  obtain rfl := of_advance ha
  have hn := State.Takes.advanced hs hw (by simp)
  obtain ⟨u, h, ho⟩ := of_nested h
  simp only [bind_eq_ok] at h
  obtain ⟨p, s₂, hp, args, s₃, ha, q, s₄, hq, h⟩ := h
  have hp := of_expect (s := s.advanced.deeper) hn.ends (by simp) hp
  obtain ⟨w, ha, hA⟩ := sound_arguments hinner hp.ends ha
  have hq := of_expect ha.ends (by simp) hq
  cases har : f.arity.allows args.length with
  | false => simp only [har, Bool.false_eq_true, if_false, previousSpan_bind] at h; cases h
  | true =>
    simp only [har, if_true] at h
    cases h
    have hall := hn.cons ((hp.cons (ha.trans hq)).outside ho)
    rcases hA with ⟨rfl, rfl⟩ | hA
    · exact ⟨_, hall, .callNone f _ p q hf har⟩
    · exact ⟨_, hall, .call f _ p q hf hA har⟩

theorem sound_lambda :
    Sound (lambda inner) fun w e =>
      ∃ param p q v body, w = ⟨.word param, p⟩ :: ⟨.colon, q⟩ :: v ∧ e = .lambda param body ∧
        isOperatorWord param = false ∧ Derives ctx.settings .disjunction v body ∧
        body.isBoolean = true := by
  intro s t e hs h
  simp only [lambda, bind_eq_ok] at h
  obtain ⟨param, s₁, hp, h⟩ := h
  have hp := of_expectWord hs hp
  cases hop : isOperatorWord param.value with
  | true => simp only [hop, if_true, previousSpan_bind] at h; cases h
  | false =>
    simp only [hop, Bool.false_eq_true, if_false, bind_eq_ok] at h
    obtain ⟨q, s₂, hq, body, s₃, hb, h⟩ := h
    cases h
    have hq := of_expect hp.ends (by simp) hq
    obtain ⟨v, hv, hD, hB⟩ := sound_condition (hinner .whole) hq.ends hb
    exact ⟨_, hp.cons (hq.cons hv), param.value, param.span, q, v, body, rfl, rfl, hop, hD, hB⟩

theorem sound_collectionCall {v : List Token} {name : String} {names : List String} {p : Span}
    {f : Builtin} (hv : IsPath v (name :: names)) (hn : name ∉ reservedWords)
    (hs : Ends s.cursor.rest) (hw : s.cursor.current.kind = .word f.word)
    (hf : f.isCollection = true)
    (h : collectionCall ctx inner (Property.ofName ("/".intercalate (name :: names))) f s =
      .ok e t) :
    ∃ w, s.Takes w t ∧ Derives ctx.settings .atom (v ++ ⟨.slash, p⟩ :: w) e := by
  simp only [collectionCall, here_bind, bind_eq_ok] at h
  obtain ⟨_, s₁, ha, h⟩ := h
  obtain rfl := of_advance ha
  have hfun := State.Takes.advanced hs hw (by simp)
  obtain ⟨u, h, ho⟩ := of_nested h
  simp only [bind_eq_ok, isAt_bind] at h
  obtain ⟨q, s₂, hq, h⟩ := h
  have hq := of_expect (s := s.advanced.deeper) hfun.ends (by simp) hq
  cases hc : s₂.cursor.isAt .rightParen with
  | true =>
    simp only [hc, if_true] at h
    -- Only `any` may do without a lambda.
    by_cases hall : f = .all
    · simp only [if_pos hall, here_bind] at h
      cases h
    · simp only [if_neg hall, bind_eq_ok] at h
      obtain ⟨r, s₃, hr, h⟩ := h
      cases h
      have hr := of_expect hq.ends (by simp) hr
      have hany : f = .any := by cases f <;> simp_all [Builtin.isCollection]
      subst hany
      exact ⟨_, hfun.cons ((hq.cons hr).outside ho), .anyAtAll p _ q r hv hn⟩
  | false =>
    simp only [hc, Bool.false_eq_true, if_false, bind_eq_ok] at h
    obtain ⟨l, s₃, hl, r, s₄, hr, h⟩ := h
    cases h
    obtain ⟨w, hlam, param, a, b, v', body, rfl, rfl, hop, hD, hB⟩ :=
      sound_lambda hinner hq.ends hl
    have hr := of_expect hlam.ends (by simp) hr
    exact ⟨_, hfun.cons ((hq.cons (hlam.trans hr)).outside ho),
      .quantified f p _ q a b r hv hn hf hop hD hB⟩

omit hinner in
theorem of_collectionFunctionAhead {c : Cursor} {f : Builtin}
    (h : collectionFunctionAhead c = some f) :
    f.isCollection = true ∧ (c.ahead 1).kind = .word f.word ∧ (c.ahead 2).kind = .leftParen := by
  unfold collectionFunctionAhead at h
  split at h
  · next hp =>
    obtain ⟨hb, hf⟩ := Option.filter_eq_some_iff.1 h
    obtain ⟨w, hw, hk⟩ := Option.bind_eq_some_iff.1 hb
    rw [Keyword.find?_eq_some_iff.1 hk] at hw
    exact ⟨hf, kind_of_word? hw, hp⟩
  · cases h

omit hinner in
/-- The further segments of a path, and the slash in front of a collection function. -/
theorem sound_pathTail (n : Nat) :
    ∀ {s t : State} {others : List String} {f? : Option Builtin}, Ends s.cursor.rest →
      pathTail n s = .ok (others, f?) t →
      ∃ w, Followed .slash IsSegment w others ∧
        match f? with
        | none => s.Takes w t
        | some f => f.isCollection = true ∧ t.cursor.current.kind = .word f.word ∧
            ∃ p, s.Takes (w ++ [⟨.slash, p⟩]) t := by
  induction n with
  | zero => intro s t others f? _ h; cases h
  | succ n ih =>
    intro s t others f? hs h
    rw [pathTail, isAt_bind] at h
    cases hc : s.cursor.isAt .slash with
    | false =>
      simp only [hc, Bool.false_eq_true, if_false] at h
      cases h
      exact ⟨[], .nil, .refl hs⟩
    | true =>
      have hk : s.cursor.current.kind = .slash := by simpa [Cursor.isAt] using hc
      have hp := State.Takes.advanced hs hk (by simp)
      simp only [hc, if_true, cursor_bind, bind_eq_ok] at h
      obtain ⟨_, s₁, ha, h⟩ := h
      obtain rfl := of_advance ha
      cases hf : collectionFunctionAhead s.cursor with
      | some f =>
        simp only [hf] at h
        cases h
        obtain ⟨hcol, hword, -⟩ := of_collectionFunctionAhead hf
        exact ⟨[], .nil, hcol, by rw [hp.current_eq, hword], _, hp⟩
      | none =>
        simp only [hf, bind_eq_ok] at h
        obtain ⟨segment, s₂, hseg, ⟨others', f'?⟩, s₃, ht, h⟩ := h
        cases h
        obtain ⟨v, hv, hS⟩ := sound_pathSegment hp.ends hseg
        obtain ⟨w, hF, hw⟩ := ih hv.ends ht
        refine ⟨_, .cons s.cursor.current.span hS hF, ?_⟩
        cases f'? with
        | none => exact hp.cons (hv.trans hw)
        | some f =>
          obtain ⟨hcol, hword, p, hw⟩ := hw
          exact ⟨hcol, hword, p, by simpa using hp.cons (hv.trans hw)⟩

theorem sound_propertyPath {w : String} (hs : Ends s.cursor.rest)
    (hw : s.cursor.current.kind = .word w) (hn : w ∉ reservedWords)
    (h : propertyPath ctx inner s = .ok e t) :
    ∃ u, s.Takes u t ∧ Derives ctx.settings .atom u e := by
  simp only [propertyPath, bind_eq_ok, rounds_bind] at h
  obtain ⟨first, s₁, hf, ⟨others, f?⟩, s₂, ho, h⟩ := h
  obtain ⟨x, hx, hS⟩ := sound_pathSegment hs hf
  obtain ⟨v, hF, hv⟩ := sound_pathTail _ hx.ends ho
  -- The word looked at is the first segment of the path.
  have hfirst : first = w := by
    cases hS with
    | mk p hop =>
      have hcur := current_of_rest hx.rest
      rw [hcur] at hw
      exact Kind.word.inj hw
  subst hfirst
  cases f? with
  | none =>
    simp only [bind_eq_ok] at h
    obtain ⟨unit, s₃, hu, h⟩ := h
    cases h
    obtain ⟨y, hy, hU⟩ := sound_unitAccessor hv.ends hu
    exact ⟨_, (hx.trans hv).trans hy, .property (.mk hS hF) hn hU⟩
  | some f =>
    obtain ⟨hcol, hword, p, hv⟩ := hv
    obtain ⟨y, hy, hD⟩ := sound_collectionCall (p := p) hinner (.mk hS hF) hn hv.ends hword hcol h
    have hall := (hx.trans hv).trans hy
    simp only [List.append_assoc, List.cons_append, List.nil_append] at hall hD
    exact ⟨_, hall, hD⟩

theorem sound_callOf {w : String} (hs : Ends s.cursor.rest)
    (hw : s.cursor.current.kind = .word w) (h : callOf ctx inner w s = .ok e t) :
    ∃ u, s.Takes u t ∧ Derives ctx.settings .atom u e := by
  unfold callOf at h
  split at h
  · exact sound_nowCall hs hw h
  · exact sound_castCall hinner hs hw h
  · cases hf : (Keyword.find? w : Option Builtin) with
    | none => simp only [hf] at h; cases h
    | some f =>
      obtain rfl := Keyword.find?_eq_some_iff.1 hf
      cases hcol : f.isCollection with
      | true => simp only [hf, hcol, if_true] at h; cases h
      | false =>
        simp only [hf, hcol, Bool.false_eq_true, if_false] at h
        exact sound_functionCall hinner hs hw hcol h

theorem sound_wordAtom {w : String} (hs : Ends s.cursor.rest)
    (hw : s.cursor.current.kind = .word w) (h : wordAtom ctx inner w s = .ok e t) :
    ∃ u, s.Takes u t ∧ Derives ctx.settings .atom u e := by
  rw [wordAtom] at h
  cases hl : isLiteralWord w with
  | true =>
    simp only [hl, if_true, bind_eq_ok] at h
    obtain ⟨l, s₁, hl, h⟩ := h
    cases h
    obtain ⟨u, hu, hL⟩ := sound_literal ctx hs hl
    exact ⟨u, hu, .literal hL⟩
  | false =>
    have hn : w ∉ reservedWords := by rw [mem_reservedWords, hl]; simp
    simp only [hl, Bool.false_eq_true, if_false, cursor_bind] at h
    by_cases hp : (s.cursor.ahead 1).kind = .leftParen
    · rw [if_pos hp] at h
      exact sound_callOf hinner hs hw h
    · rw [if_neg hp] at h
      cases hop : isOperatorWord w with
      | true => simp only [hop, if_true] at h; cases h
      | false =>
        simp only [hop, Bool.false_eq_true, if_false] at h
        exact sound_propertyPath hinner hs hw hn h

theorem sound_group {s t : State} {e : Expr} (hs : Ends s.cursor.rest)
    (hk : s.cursor.current.kind = .leftParen) (h : group ctx inner s = .ok e t) :
    ∃ u, s.Takes u t ∧ Derives ctx.settings .atom u e := by
  obtain ⟨u, h, ho⟩ := of_nested h
  simp only [bind_eq_ok] at h
  obtain ⟨_, s₁, ha, e', s₂, he, p, s₃, hp, h⟩ := h
  cases h
  obtain rfl := of_advance ha
  have hopen : s.deeper.Takes [⟨.leftParen, _⟩] _ := .advanced hs hk (by simp)
  obtain ⟨w, hw, hD⟩ := hinner .whole hopen.ends he
  have hclose := of_expect hw.ends (by simp) hp
  exact ⟨_, (hopen.cons (hw.trans hclose)).outside ho, .group _ p hD⟩

omit hinner in
theorem sound_literalAtom {k : Kind} (hs : Ends s.cursor.rest)
    (h : (if k.isLiteral then do
            let l ← literal ctx
            pure (.literal l)
          else refuseFor "expression" : Parse Expr) s = .ok e t) :
    ∃ u, s.Takes u t ∧ Derives ctx.settings .atom u e := by
  cases hk : k.isLiteral with
  | false => simp only [hk, Bool.false_eq_true, if_false] at h; cases h
  | true =>
    simp only [hk, if_true, bind_eq_ok] at h
    obtain ⟨l, s₁, hl, h⟩ := h
    cases h
    obtain ⟨u, hu, hL⟩ := sound_literal ctx hs hl
    exact ⟨u, hu, .literal hL⟩

theorem sound_atom : Sound (atom ctx inner) (Derives ctx.settings .atom) := by
  intro s t e hs h
  rw [atom, current_bind] at h
  cases hk : s.cursor.current.kind with
  | leftParen =>
    simp only [hk] at h
    exact sound_group hinner hs hk h
  | word w =>
    simp only [hk] at h
    exact sound_wordAtom hinner hs hk h
  | _ =>
    simp only [hk] at h
    exact sound_literalAtom hs h

/-! ## Levels -/

theorem sound_product : Sound (product ctx inner) (Derives ctx.settings .product) :=
  sound_mathChain (by decide) multiplicative?_eq_some_iff.1 (sound_atom hinner)

theorem sound_sum : Sound (sum ctx inner) (Derives ctx.settings .sum) :=
  sound_mathChain (by decide) additive?_eq_some_iff.1 (sound_product hinner)

theorem sound_comparison : Sound (comparison ctx inner) (Derives ctx.settings .comparison) := by
  intro s t e hs h
  simp only [comparison, bind_eq_ok, comparisonAhead] at h
  obtain ⟨left, s₁, hl, op?, s₂, ho, h⟩ := h
  obtain ⟨v, hv, hL⟩ := sound_sum hinner hs hl
  obtain ⟨w?, s₃, hw, ho⟩ := ho
  cases hw
  cases ho
  cases hop : s₁.cursor.current.kind.word?.bind (Keyword.find? : String → Option ComparisonOp) with
  | none =>
    simp only [hop] at h
    cases h
    exact ⟨v, hv, .loosen (by decide) hL⟩
  | some op =>
    simp only [hop, bind_eq_ok] at h
    obtain ⟨_, s₄, ha, right, s₅, hr, op'?, s₆, ho', h⟩ := h
    obtain rfl := of_advance ha
    obtain ⟨word, hword, hfind⟩ := Option.bind_eq_some_iff.1 hop
    obtain rfl := Keyword.find?_eq_some_iff.1 hfind
    have hp := State.Takes.advanced hv.ends (kind_of_word? hword) (by simp)
    obtain ⟨w, hw, hR⟩ := sound_sum hinner hp.ends hr
    obtain ⟨w'?, s₇, hw', ho'⟩ := ho'
    cases hw'
    cases ho'
    cases hop' : s₅.cursor.current.kind.word?.bind
        (Keyword.find? : String → Option ComparisonOp) with
    | some op' => simp only [hop'] at h; cases h
    | none =>
      simp only [hop'] at h
      cases h
      exact ⟨_, hv.trans (hp.cons hw), .comparison op _ hL hR⟩

theorem sound_disjunction : Sound (disjunction ctx inner) (Derives ctx.settings .disjunction) :=
  sound_logicalChain .or (sound_logicalChain .and (sound_comparison hinner))

end Atoms

theorem sound_levelFrom (ctx : Context) (n : Nat) :
    ∀ l, Sound (levelFrom ctx n l) (Derives ctx.settings l.tier) := by
  induction n with
  | zero => intro l s t e _ h; cases h
  | succ n ih =>
    intro l
    cases l with
    | whole => exact sound_disjunction ih
    | sum => exact sound_sum ih

/-- Every expression that is read is derived from the tokens that it was read from. -/
theorem sound_level (ctx : Context) (l : Level) :
    Sound (level ctx l) (Derives ctx.settings l.tier) := by
  intro s t e hs h
  rw [level, rounds_bind] at h
  exact sound_levelFrom ctx _ l hs h

theorem sound_boolean (ctx : Context) :
    Sound (boolean ctx) (DerivesCondition ctx.settings .disjunction) :=
  sound_condition (sound_level ctx .whole)

/-- What is read to the end of the text is all of it. -/
theorem sound_complete {p : Parse α} {D : List Token → α → Prop} (hp : Sound p D) {s t : State}
    {a : α} (hs : Ends s.cursor.rest) (h : complete p s = .ok a t) :
    D s.cursor.rest.dropLast a := by
  simp only [complete, bind_eq_ok] at h
  obtain ⟨a', s₁, ha, q, s₂, hq, h⟩ := h
  cases h
  obtain ⟨w, hw, hD⟩ := hp hs ha
  rw [expect_apply] at hq
  split at hq
  · next hat =>
    obtain ⟨x, r, hr⟩ := List.exists_cons_of_ne_nil hw.ends.ne_nil
    have hx : x.kind = .eof := by simpa [Cursor.isAt, current_of_rest hr] using hat
    have he := hw.ends
    rw [hr] at he
    obtain rfl := he.eq_nil hx
    rw [hw.rest, hr, List.dropLast_concat]
    exact hD
  · cases hq

end OData.Grammar
