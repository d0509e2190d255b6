import OData.Grammar.Pipeline
import OData.Proofs.Grammar.Completeness
import OData.Proofs.Grammar.Soundness

/-!
# The grammar of pipelines

What a pipeline is, said without a parser, and that just this is read.

An argument of a stage is a stage or a value.  The grammar tells them apart by the two
tokens that the argument begins with (`BeginsStage`), so `identity` at the beginning
of an argument is never a property; that is the one place in the language where a
derivation has to be refused for what it looks like.
-/
namespace OData.Grammar

/-! ## Derivations -/

/-- **A value that is an argument of a stage**: an expression, possibly with a name, or an
aggregate with one. -/
inductive DerivesValue (settings : Settings) : List Token → StageArg → Prop
  | plain {w : List Token} {e : Expr} :
      Derives settings .disjunction w e → DerivesValue settings w (.expr e)
  | named {w : List Token} {e : Expr} (name : String) (p q : Span) :
      Derives settings .disjunction w e →
      DerivesValue settings (w ++ [⟨.word "as", p⟩, ⟨.word name, q⟩]) (.named name (.expr e))
  | aggregate {w : List Token} {property : Property} (method : AggregateMethod) (name : String)
      (p q r s : Span) :
      Derives settings .disjunction w (.property property) →
      DerivesValue settings
        (w ++ [⟨.word "with", p⟩, ⟨.word method.word, q⟩, ⟨.word "as", r⟩, ⟨.word name, s⟩])
        (.named name (.aggregate ⟨method, property⟩))

/-- **The tokens begin like a stage**: with the word `identity`, or with the name of a stage and a
parenthesis. -/
inductive BeginsStage : List Token → Prop
  | identity (p : Span) (r : List Token) : BeginsStage (⟨.word StageKind.identity.word, p⟩ :: r)
  | opening (kind : StageKind) (p q : Span) (r : List Token) :
      BeginsStage (⟨.word kind.word, p⟩ :: ⟨.leftParen, q⟩ :: r)

mutual

/-- **The tokens are a way to write the stage.** -/
inductive DerivesStage (settings : Settings) : List Token → Transformation → Prop
  | identity (p : Span) :
      DerivesStage settings [⟨.word StageKind.identity.word, p⟩] ⟨.identity, []⟩
  | identityCall (p q r : Span) :
      DerivesStage settings
        [⟨.word StageKind.identity.word, p⟩, ⟨.leftParen, q⟩, ⟨.rightParen, r⟩] ⟨.identity, []⟩
  /-- The argument of a filter is a condition. -/
  | filter {w : List Token} {e : Expr} (p q r : Span) :
      DerivesCondition settings .disjunction w e →
      DerivesStage settings
        (⟨.word StageKind.filter.word, p⟩ :: ⟨.leftParen, q⟩ :: (w ++ [⟨.rightParen, r⟩]))
        ⟨.filter, [.expr e]⟩
  /-- The arguments of an expansion are a path and stages. -/
  | expand {v w : List Token} {names : List String} {stages : List Transformation}
      (p q r : Span) :
      IsPath v names → Followed .comma (DerivesStage settings) w stages →
      DerivesStage settings
        (⟨.word StageKind.expand.word, p⟩ :: ⟨.leftParen, q⟩ :: (v ++ (w ++ [⟨.rightParen, r⟩])))
        ⟨.expand, .expr (.property (Property.ofName ("/".intercalate names))) ::
          stages.map Transformation.toArg⟩
  /-- The arguments of every other stage are a list of stages and values. -/
  | plain {w : List Token} {args : List StageArg} (kind : StageKind) (p q r : Span) :
      kind.isPlain = true → Separated .comma (DerivesArg settings) w args →
      DerivesStage settings
        (⟨.word kind.word, p⟩ :: ⟨.leftParen, q⟩ :: (w ++ [⟨.rightParen, r⟩])) ⟨kind, args⟩

/-- **The tokens are a way to write the argument** of a stage. -/
inductive DerivesArg (settings : Settings) : List Token → StageArg → Prop
  | stage {w : List Token} {t : Transformation} :
      DerivesStage settings w t → DerivesArg settings w t.toArg
  | value {w : List Token} {a : StageArg} :
      DerivesValue settings w a → ¬ BeginsStage w → DerivesArg settings w a

end

/-- The tokens are a way to write the pipeline: stages with a slash between each two. -/
def DerivesPipeline (settings : Settings) : List Token → List Transformation → Prop :=
  Separated .slash (DerivesStage settings)

/-! ## Telling stages from values -/

section Ahead
variable {c : Cursor} {w r : List Token} {x : Token}

theorem BeginsStage.append (h : BeginsStage w) (r : List Token) : BeginsStage (w ++ r) := by
  cases h with
  | identity p u => exact .identity p (u ++ r)
  | opening kind p q u => exact .opening kind p q (u ++ r)

/-- What begins like a stage in front of anything but a parenthesis does so by itself. -/
theorem BeginsStage.of_append (h : BeginsStage (w ++ x :: r)) (hne : w ≠ [])
    (hx : x.kind ≠ .leftParen) : BeginsStage w := by
  obtain ⟨y, u, rfl⟩ := List.exists_cons_of_ne_nil hne
  rw [List.cons_append] at h
  cases u with
  | nil =>
    cases h with
    | identity p _ => exact .identity p []
    | opening => exact absurd rfl hx
  | cons z u =>
    cases h with
    | identity p _ => exact .identity p (z :: u)
    | opening kind p q _ => exact .opening kind p q u

/-- A stage is seen at a cursor just if the tokens from it on begin like one. -/
theorem isStageAhead_iff : isStageAhead c = true ↔ BeginsStage c.rest := by
  constructor
  · intro h
    unfold isStageAhead at h
    split at h
    · next kind hk =>
      obtain ⟨name, hname, hkind⟩ := Option.bind_eq_some_iff.1 hk
      obtain rfl : name = kind.word := Keyword.find?_eq_some_iff.1 hkind
      obtain ⟨before, rest⟩ := c
      have hcurrent := kind_of_word? hname
      cases rest with
      | nil => cases hcurrent
      | cons x r =>
        obtain ⟨k, p⟩ := x
        obtain rfl : k = .word kind.word := hcurrent
        rw [Bool.or_eq_true, beq_iff_eq, beq_iff_eq] at h
        rcases h with rfl | hparen
        · exact .identity p r
        · cases r with
          | nil =>
            -- Behind the last token a cursor sees that token again, which is a word.
            cases hparen
          | cons y u =>
            obtain ⟨k, q⟩ := y
            obtain rfl : k = .leftParen := hparen
            exact .opening kind p q u
    · cases h
  · have hfind : ∀ kind : StageKind, (Keyword.find? kind.word : Option StageKind) = some kind :=
      Keyword.find?_word
    generalize hrest : c.rest = w
    rintro (⟨p, r⟩ | ⟨kind, p, q, r⟩)
    · simp [isStageAhead, current_of_rest hrest, Kind.word?, hfind]
    · simp [isStageAhead, current_of_rest hrest, ahead_one hrest, Kind.word?, hfind]

theorem DerivesStage.beginsStage {settings : Settings} {t : Transformation}
    (h : DerivesStage settings w t) : BeginsStage w := by
  cases h with
  | identity | identityCall => exact .identity ..
  | filter | expand | plain => exact .opening ..

end Ahead

/-! ## What is read is derived -/

section Soundness
variable {ctx : Context} {inner : Parse Transformation}

theorem of_givenName {s t : State} {name : String} (hs : Ends s.cursor.rest)
    (h : givenName s = .ok name t) :
    ∃ p q, s.Takes [⟨.word "as", p⟩, ⟨.word name, q⟩] t := by
  rw [givenName, bind_eq_ok] at h
  obtain ⟨b, s₁, hb, h⟩ := h
  rcases of_consumeWord hs hb with ⟨rfl, p, hp⟩ | ⟨rfl, rfl, -⟩
  · simp only [if_true, bind_eq_ok] at h
    obtain ⟨word, s₂, hw, h⟩ := h
    cases h
    exact ⟨p, word.span, hp.cons (of_expectWord hp.ends hw)⟩
  · cases h

theorem sound_valueArg (ctx : Context) : Sound (valueArg ctx) (DerivesValue ctx.settings) := by
  intro s t a hs h
  simp only [valueArg, here_bind, bind_eq_ok, isAtWord_bind] at h
  obtain ⟨value, s₁, hv, h⟩ := h
  obtain ⟨w, hw, hD⟩ := sound_level ctx .whole hs hv
  cases hwith : s₁.cursor.isAtWord "with" with
  | true =>
    simp only [hwith, if_true, aggregateOf, previousSpan_bind, bind_eq_ok] at h
    obtain ⟨_, s₂, ha, h⟩ := h
    obtain rfl := of_advance ha
    have hp := State.Takes.advanced hw.ends (isAtWord_eq_true.1 hwith) (by simp)
    cases value with
    | property property =>
      simp only [bind_eq_ok] at h
      obtain ⟨word, s₃, hword, h⟩ := h
      have hq := of_expectWord hp.ends hword
      cases hm : (Keyword.find? word.value : Option AggregateMethod) with
      | none => simp only [hm] at h; cases h
      | some method =>
        simp only [hm, bind_eq_ok] at h
        obtain ⟨name, s₄, hn, h⟩ := h
        cases h
        obtain ⟨r, q, hr⟩ := of_givenName hq.ends hn
        rw [Keyword.find?_eq_some_iff.1 hm] at hq
        exact ⟨_, hw.trans (hp.cons (hq.cons hr)), .aggregate method name _ _ _ _ hD⟩
    | _ => cases h
  | false =>
    simp only [hwith, Bool.false_eq_true, if_false, isAtWord_bind] at h
    cases has : s₁.cursor.isAtWord "as" with
    | true =>
      simp only [has, if_true, bind_eq_ok] at h
      obtain ⟨name, s₂, hn, h⟩ := h
      cases h
      obtain ⟨p, q, hp⟩ := of_givenName hw.ends hn
      exact ⟨_, hw.trans hp, .named name p q hD⟩
    | false =>
      simp only [has, Bool.false_eq_true, if_false] at h
      cases h
      exact ⟨w, hw, .plain hD⟩

theorem DerivesValue.ne_nil {settings : Settings} {w : List Token} {a : StageArg}
    (h : DerivesValue settings w a) : w ≠ [] := by
  cases h with
  | plain h =>
    obtain ⟨x, r, rfl, -⟩ := h.exists_cons
    simp
  | named | aggregate => simp

section Stages
variable (hinner : Sound inner (DerivesStage ctx.settings))
include hinner

theorem sound_stageArg : Sound (stageArg ctx inner) (DerivesArg ctx.settings) := by
  intro s t a hs h
  rw [stageArg, cursor_bind] at h
  cases hb : isStageAhead s.cursor with
  | true =>
    simp only [hb, if_true, bind_eq_ok] at h
    obtain ⟨stage, s₁, hst, h⟩ := h
    cases h
    obtain ⟨w, hw, hD⟩ := hinner hs hst
    exact ⟨w, hw, .stage hD⟩
  | false =>
    simp only [hb, Bool.false_eq_true, if_false] at h
    obtain ⟨w, hw, hD⟩ := sound_valueArg ctx hs h
    refine ⟨w, hw, .value hD fun hbegins => ?_⟩
    rw [isStageAhead_iff.2 (hw.rest ▸ hbegins.append _)] at hb
    cases hb

omit hinner in
theorem sound_enclosed {p : Parse (List StageArg)} {D : List Token → List StageArg → Prop}
    (hp : Sound p D) {s t : State} {args : List StageArg} (hs : Ends s.cursor.rest)
    (h : enclosed ctx p s = .ok args t) :
    ∃ w q r, s.Takes (⟨.leftParen, q⟩ :: (w ++ [⟨.rightParen, r⟩])) t ∧ D w args := by
  simp only [enclosed, bind_eq_ok] at h
  obtain ⟨q, s₁, hq, as, s₂, ha, r, s₃, hr, h⟩ := h
  cases h
  have hq := of_expect hs (by simp) hq
  obtain ⟨w, hw, hD⟩ := sound_nested hp hq.ends ha
  have hr := of_expect hw.ends (by simp) hr
  exact ⟨w, q, r, hq.cons (hw.trans hr), hD⟩

theorem sound_expandArgs : Sound (expandArgs inner) fun u args =>
    ∃ v w names stages, u = v ++ w ∧ IsPath v names ∧
      Followed .comma (DerivesStage ctx.settings) w stages ∧
      args = .expr (.property (Property.ofName ("/".intercalate names))) ::
        stages.map Transformation.toArg := by
  intro s t args hs h
  simp only [expandArgs, bind_eq_ok, rounds_bind] at h
  obtain ⟨path, s₁, hp, stages, s₂, hst, h⟩ := h
  cases h
  obtain ⟨v, hv, names, hN, rfl⟩ := sound_memberPath hs hp
  obtain ⟨w, hw, hF⟩ := sound_following (by simp) hinner _ hv.ends hst
  exact ⟨_, hv.trans hw, v, w, names, stages, rfl, hN, hF, rfl⟩

theorem sound_stageWith : Sound (stageWith ctx inner) (DerivesStage ctx.settings) := by
  intro s t stage hs h
  rw [stageWith, bind_eq_ok] at h
  obtain ⟨name, s₁, hn, h⟩ := h
  have hn := of_expectWord hs hn
  cases hk : (Keyword.find? name.value : Option StageKind) with
  | none => simp only [hk] at h; cases h
  | some kind =>
    rw [Keyword.find?_eq_some_iff.1 hk] at hn
    simp only [hk, bind_eq_ok] at h
    obtain ⟨args, s₂, ha, h⟩ := h
    cases h
    -- All stages but three have their arguments read in the same way.
    have hplain : kind.isPlain = true →
        enclosed ctx (separated .comma (stageArg ctx inner)) s₁ = .ok args t →
        ∃ w, s.Takes w t ∧ DerivesStage ctx.settings w ⟨kind, args⟩ := by
      intro hplain ha
      obtain ⟨w, q, r, hw, hD⟩ :=
        sound_enclosed (sound_separated (by simp) (sound_stageArg hinner)) hn.ends ha
      exact ⟨_, hn.cons hw, .plain kind _ q r hplain hD⟩
    cases kind with
    | identity =>
      simp only [stageArgs, identityArgs, bind_eq_ok] at ha
      obtain ⟨b, s₃, hb, ha⟩ := ha
      rcases of_consume hn.ends (by simp) hb with ⟨rfl, q, hq⟩ | ⟨rfl, rfl, -⟩
      · simp only [if_true, bind_eq_ok] at ha
        obtain ⟨r, s₄, hr, ha⟩ := ha
        cases ha
        have hr := of_expect hq.ends (by simp) hr
        exact ⟨_, hn.cons (hq.cons hr), .identityCall _ q r⟩
      · cases ha
        exact ⟨_, hn, .identity _⟩
    | filter =>
      obtain ⟨u, hu, ho⟩ := of_nested ha
      simp only [bind_eq_ok] at hu
      obtain ⟨q, s₃, hq, e, s₄, he, r, s₅, hr, hu⟩ := hu
      cases hu
      have hq := of_expect (s := s₁.deeper) hn.ends (by simp) hq
      obtain ⟨w, hw, hD⟩ := sound_boolean ctx hq.ends he
      have hr := of_expect hw.ends (by simp) hr
      exact ⟨_, hn.cons ((hq.cons (hw.trans hr)).outside ho), .filter _ q r hD⟩
    | expand =>
      obtain ⟨u, q, r, hu, v, w, names, stages, rfl, hN, hF, rfl⟩ :=
        sound_enclosed (sound_expandArgs hinner) hn.ends ha
      refine ⟨_, hn.cons hu, ?_⟩
      rw [List.append_assoc]
      exact .expand _ q r hN hF
    | _ => exact hplain rfl ha

end Stages

theorem sound_stageFrom (ctx : Context) (n : Nat) :
    Sound (stageFrom ctx n) (DerivesStage ctx.settings) := by
  induction n with
  | zero => intro s t a _ h; cases h
  | succ n ih => exact sound_stageWith ih

/-- **Every stage that is read is derived** from the tokens that it was read from. -/
theorem sound_stage (ctx : Context) : Sound (stage ctx) (DerivesStage ctx.settings) := by
  intro s t a hs h
  rw [stage, rounds_bind] at h
  exact sound_stageFrom ctx _ hs h

end Soundness

/-! ## What is derived is read -/

section Completeness
variable {ctx : Context} {inner : Parse Transformation} {n : Nat}

theorem Reads.givenName {limits : Settings} {m : Nat} {name : String} {p q : Span}
    {r w : List Token} {f : String → Parse StageArg} {a : StageArg} (hr : r ≠ [])
    (h : Reads limits m (f name) r w a) :
    Reads limits m (givenName >>= f) (⟨.word "as", p⟩ :: ⟨.word name, q⟩ :: r)
      (⟨.word "as", p⟩ :: ⟨.word name, q⟩ :: w) a := by
  refine Reads.bind (v := [⟨.word "as", p⟩, ⟨.word name, q⟩]) (r := r) (a := name) ?_ h
  exact .consumeWord (by simp) (.expectWord hr (.pure _))

/-- What may follow an argument of a stage. -/
def EndsArg (k : Kind) : Prop := k = .comma ∨ k = .rightParen

theorem EndsArg.stops {k : Kind} (h : EndsArg k) : Tier.disjunction.Stops k := by
  rcases h with rfl | rfl <;> trivial

theorem EndsArg.ne_word {k : Kind} (h : EndsArg k) (w : String) : (k.word? == some w) = false := by
  rcases h with rfl | rfl <;> rfl

theorem EndsArg.ne_leftParen {k : Kind} (h : EndsArg k) : k ≠ .leftParen := by
  rcases h with rfl | rfl <;> simp

theorem stops_with : Tier.disjunction.Stops (.word "with") := by
  intro u hu
  rw [show Tier.ofOperator? "with" = none by decide] at hu
  cases hu

theorem stops_as : Tier.disjunction.Stops (.word "as") := by
  intro u hu
  rw [show Tier.ofOperator? "as" = none by decide] at hu
  cases hu

theorem complete_valueArg (ctx : Context) :
    Complete ctx.settings (valueArg ctx) EndsArg (DerivesValue ctx.settings) := by
  intro w r x a hx h
  cases h with
  | plain hD =>
    refine .anywhere fun _ => (complete_level ctx .whole hx.stops hD).bind_nil (.isAtWord ?_)
    rw [hx.ne_word]
    refine .isAtWord ?_
    rw [hx.ne_word]
    exact .pure _
  | @named w e name p q hD =>
    have hvalue := complete_level ctx .whole (x := ⟨.word "as", p⟩)
      (r := ⟨.word name, q⟩ :: x :: r) stops_as hD
    rw [List.append_assoc]
    refine .anywhere fun _ => (hvalue.mono (by simp)).bind (.isAtWord ?_)
    rw [show ((⟨.word "as", p⟩ : Token).kind.word? == some "with") = false by rfl]
    refine .isAtWord ?_
    rw [show ((⟨.word "as", p⟩ : Token).kind.word? == some "as") = true by rfl]
    exact .givenName (by simp) (.pure _)
  | @aggregate w property method name p q s t hD =>
    have hvalue := complete_level ctx .whole (x := ⟨.word "with", p⟩)
      (r := ⟨.word method.word, q⟩ :: ⟨.word "as", s⟩ :: ⟨.word name, t⟩ :: x :: r) stops_with hD
    have hm : (Keyword.find? method.word : Option AggregateMethod) = some method :=
      Keyword.find?_word method
    rw [List.append_assoc]
    refine .anywhere fun _ => (hvalue.mono (by simp)).bind (.isAtWord ?_)
    rw [show ((⟨.word "with", p⟩ : Token).kind.word? == some "with") = true by rfl]
    refine .previousSpan fun _ => .advance (by simp) (.expectWord (by simp) ?_)
    simp only [hm]
    exact .givenName (by simp) (.pure _)

section Stages
variable (hinner : Complete ctx.settings inner (· ≠ .leftParen) fun w t =>
  w.length < n ∧ DerivesStage ctx.settings w t)
include hinner

theorem complete_stageArg : Complete ctx.settings (stageArg ctx inner) EndsArg fun w a =>
    w.length < n ∧ DerivesArg ctx.settings w a := by
  rintro w r x a hx ⟨hn, h⟩
  cases h with
  | stage h =>
    refine .cursor fun c hc => ?_
    rw [isStageAhead_iff.2 (hc ▸ h.beginsStage.append _), if_pos rfl]
    exact (hinner hx.ne_leftParen ⟨hn, h⟩).map fun _ => rfl
  | value h hb =>
    refine .cursor fun c hc => ?_
    have hnot : ¬ isStageAhead c = true := fun hahead =>
      hb ((hc ▸ isStageAhead_iff.1 hahead).of_append h.ne_nil hx.ne_leftParen)
    rw [if_neg hnot]
    exact complete_valueArg ctx hx h

omit hinner in
theorem reads_enclosed {p : Parse (List StageArg)} {w r : List Token} {q s : Span}
    {args : List StageArg} {x : Token}
    (h : Reads ctx.settings w.length p (w ++ ⟨.rightParen, s⟩ :: x :: r) w args) :
    Reads ctx.settings (w.length + 2) (enclosed ctx p)
      (⟨.leftParen, q⟩ :: (w ++ ⟨.rightParen, s⟩ :: x :: r))
      (⟨.leftParen, q⟩ :: (w ++ [⟨.rightParen, s⟩])) args := by
  refine .expect (by simp) ((Reads.mono (.nested h) (by omega)).bind ?_)
  exact .expect (by simp) (.pure _)

theorem complete_expandArgs {v w r : List Token} {x : Token} {names : List String}
    {stages : List Transformation} (hx : x.kind = .rightParen) (hw : w.length < n)
    (hN : IsPath v names) (hF : Followed .comma (DerivesStage ctx.settings) w stages) :
    Reads ctx.settings (v ++ w).length (expandArgs inner) (v ++ (w ++ x :: r)) (v ++ w)
      (.expr (.property (Property.ofName ("/".intercalate names))) ::
        stages.map Transformation.toArg) := by
  -- A stage ends where no parenthesis follows, hence in front of a comma.
  have hitem : Complete ctx.settings inner (fun k => k = .comma ∨ k = .rightParen)
      fun w t => w.length < n ∧ DerivesStage ctx.settings w t := by
    intro w r x t hx h
    exact hinner (EndsArg.ne_leftParen hx) h
  have hpath : Reads ctx.settings v.length memberPath (v ++ (w ++ x :: r)) v
      ("/".intercalate names) := by
    obtain ⟨y, r', hy, hk⟩ := hF.exists_cons x r
    rw [hy]
    refine complete_memberPath ctx.settings ?_ ⟨names, hN, rfl⟩
    rcases hk with hk | rfl
    · rw [hk]; simp
    · rw [hx]; simp
  have hn : stages.length < (w ++ x :: r).length + 1 := by
    have := hF.length_le
    rw [List.length_append]
    omega
  have hrest := reads_following (r := r) (by rintro _ rfl; simp) hitem (hF.bounded hw) hx hn
  rw [List.length_append]
  exact (hpath.mono (by omega)).bind (.rounds ((hrest.mono (by omega)).map fun _ => rfl))

theorem complete_stageWith : Complete ctx.settings (stageWith ctx inner) (· ≠ .leftParen)
    fun w t => w.length ≤ n ∧ DerivesStage ctx.settings w t := by
  rintro w r x t hx ⟨hn, h⟩
  have hfind : ∀ kind : StageKind, (Keyword.find? kind.word : Option StageKind) = some kind :=
    Keyword.find?_word
  cases h with
  | identity p =>
    refine .expectWord (by simp) ?_
    simp only [hfind]
    refine Reads.bind_nil (v := []) (a := []) (.consume_ne hx (.pure _)) (.pure _)
  | identityCall p q s =>
    refine .expectWord (by simp) ?_
    simp only [hfind]
    refine Reads.bind_nil (v := [_, _]) (r := x :: r) (a := []) ?_ (.pure _)
    exact .consume (by simp) (.expect (by simp) (.pure _))
  | @filter w e p q s hD =>
    have hread := complete_boolean ctx (x := ⟨.rightParen, s⟩) (r := x :: r) trivial hD
    simp only [List.cons_append, List.append_assoc, List.nil_append]
    refine .expectWord (by simp) ?_
    simp only [hfind]
    refine Reads.map (a := [.expr e]) (.mono (.nested (n := w.length) ?_) (by simp)) fun _ => rfl
    exact .expect (by simp) (hread.bind (.expect (by simp) (.pure _)))
  | @expand v w names stages p q s hN hF =>
    simp only [List.length_cons, List.length_append, List.length_nil] at hn
    have hread := complete_expandArgs hinner (x := ⟨.rightParen, s⟩) (r := x :: r) rfl (by omega)
      hN hF
    rw [← List.append_assoc] at hread
    have hargs := reads_enclosed (q := q) hread
    simp only [List.append_assoc] at hargs
    simp only [List.cons_append, List.append_assoc, List.nil_append]
    refine .expectWord (by simp) ?_
    simp only [hfind]
    refine Reads.map (hargs.mono ?_) fun _ => rfl
    simp only [List.length_cons, List.length_append, List.length_nil]
    omega
  | @plain w args kind p q s hk hA =>
    simp only [List.length_cons, List.length_append, List.length_nil] at hn
    have hlist : Complete ctx.settings (separated .comma (stageArg ctx inner)) (· = .rightParen)
        (Separated .comma fun w a => w.length < n ∧ DerivesArg ctx.settings w a) :=
      complete_separated (by rintro _ rfl; simp) (complete_stageArg hinner)
    have hread := hlist (r := x :: r) (x := ⟨.rightParen, s⟩) rfl (hA.bounded (by omega))
    have hargs := reads_enclosed (q := q) hread
    have hkind : stageArgs ctx inner kind =
        enclosed ctx (separated .comma (stageArg ctx inner)) := by
      cases kind <;> first | rfl | cases hk
    simp only [List.cons_append, List.append_assoc, List.nil_append]
    refine .expectWord (by simp) ?_
    simp only [hfind, hkind]
    refine Reads.map (hargs.mono ?_) fun _ => rfl
    simp only [List.length_cons, List.length_append, List.length_nil]
    omega

end Stages

theorem complete_stageFrom (ctx : Context) (n : Nat) :
    Complete ctx.settings (stageFrom ctx n) (· ≠ .leftParen) fun w t =>
      w.length < n ∧ DerivesStage ctx.settings w t := by
  induction n with
  | zero => rintro w r x t _ ⟨hn, -⟩; cases hn
  | succ n ih =>
    rintro w r x t hx ⟨hn, h⟩
    exact complete_stageWith ih hx ⟨Nat.le_of_lt_succ hn, h⟩

/-- Every stage that is derived is read, in front of anything but a parenthesis. -/
theorem complete_stage (ctx : Context) :
    Complete ctx.settings (stage ctx) (· ≠ .leftParen) (DerivesStage ctx.settings) := by
  intro w r x t hx h
  refine .rounds (complete_stageFrom ctx _ hx ⟨?_, h⟩)
  simp only [List.length_append, List.length_cons]
  omega

/-- Every pipeline that is derived is read in front of the end. -/
theorem complete_stages (ctx : Context) :
    Complete ctx.settings (separated .slash (stage ctx)) (· = .eof)
      (DerivesPipeline ctx.settings) := by
  refine complete_separated (by rintro _ rfl; simp) ?_
  intro w r x t hx h
  refine complete_stage ctx ?_ h
  rcases hx with hx | hx <;> (rw [hx]; simp)

end Completeness

end OData.Grammar
