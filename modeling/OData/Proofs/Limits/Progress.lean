import OData.Proofs.Limits.Steps

/-!
# Reading moves forwards and comes to an end

No reader needs the limit on brackets to come to an end.  Brackets and stages nest by recursion,
which the definitions bound by the number of tokens ahead; and the bound is never what stops it.
With any larger bound the outcome is the same, and with that one it is a value or a refusal,
whatever the limits are (`Reader.onward`).

Two facts make up the proof.  A larger bound changes nothing but runs that are short of it
(`Extends`): this goes through all the readers from the inside to the outside, and asks nothing of
the tokens.  And no run is short of it if there are no more tokens ahead than it allows
(`Reader.runs_given`), since every bracket and every stage has a token in front of what is in it.
So two bounds that are both large enough have a larger one, which they agree with
(`Extends.eq_of_ended`).
-/
namespace OData

/-! ## Where a cursor has been -/

/-- The tokens that a cursor moves over. -/
def Cursor.tokens (c : Cursor) : List Token := c.before.reverse ++ c.rest

namespace Cursor.Leads
variable {c c' : Cursor}

theorem tokens_eq (h : c.Leads c') : c'.tokens = c.tokens := by
  obtain ⟨w, hrest, hbefore⟩ := h
  rw [tokens, tokens, hrest, hbefore, List.reverse_append, List.reverse_reverse, List.append_assoc]

/-- What a cursor has moved past is no longer ahead. -/
theorem position_add (h : c.Leads c') :
    c'.position + c'.rest.length = c.position + c.rest.length := by
  obtain ⟨w, hrest, hbefore⟩ := h
  simp only [position, hrest, hbefore, List.length_append, List.length_reverse]
  omega

theorem position_le (h : c.Leads c') : c.position ≤ c'.position := by
  obtain ⟨w, -, hbefore⟩ := h
  simp only [position, hbefore, List.length_append]
  omega

end Cursor.Leads

namespace Grammar
variable {α β ω : Type}

/-! ## Larger bounds -/

/-- A run comes to an end: it reads a value or is refused. -/
inductive Ended : EStateM.Result Stop State α → Prop
  | ok (a : α) (t : State) : Ended (.ok a t)
  | refused (f : Failure) (t : State) : Ended (.error (.refused f) t)

/-- **One parser extends another**: it does the same wherever the other comes to an end. -/
def Extends (p p' : Parse α) : Prop := ∀ s, Ended (p s) → p' s = p s

theorem Ended.of_bind {p : Parse α} {f : α → Parse β} {s : State} (h : Ended ((p >>= f) s)) :
    Ended (p s) := by
  cases hr : p s with
  | ok a t => exact .ok a t
  | error e t =>
    rw [bind_of_error hr] at h
    cases h with
    | refused f => exact .refused f t

theorem Ended.of_leave {r : EStateM.Result Stop State α} (h : Ended (leave r)) : Ended r := by
  cases r with
  | ok a t => exact .ok a t
  | error e t =>
    cases ho : t.outside with
    | none =>
      simp only [leave, ho] at h
      cases h
    | some u =>
      simp only [leave, ho] at h
      cases h with
      | refused f => exact .refused f t

namespace Extends
variable {p p' : Parse α} {f f' : α → Parse β}

theorem refl (p : Parse α) : Extends p p := fun _ _ => rfl

/-- **Two parsers that one parser extends are equal where both come to an end.** -/
theorem eq_of_ended {q : Parse α} (h : Extends p q) (h' : Extends p' q) {s : State}
    (he : Ended (p s)) (he' : Ended (p' s)) : p s = p' s :=
  (h s he).symm.trans (h' s he')

theorem bind (hp : Extends p p') (hf : ∀ a, Extends (f a) (f' a)) :
    Extends (p >>= f) (p' >>= f') := by
  intro s h
  have hfirst := hp s h.of_bind
  cases hr : p s with
  | ok a t =>
    rw [bind_of_ok hr] at h ⊢
    rw [bind_of_ok (hfirst.trans hr)]
    exact hf a t h
  | error e t => rw [bind_of_error hr, bind_of_error (hfirst.trans hr)]

/-- What comes after the same. -/
theorem after (hf : ∀ a, Extends (f a) (f' a)) : Extends (p >>= f) (p >>= f') := (refl p).bind hf

theorem ite {c : Prop} [Decidable c] {q q' : Parse α} (hp : Extends p p') (hq : Extends q q') :
    Extends (if c then p else q) (if c then p' else q') := by
  by_cases hc : c
  · rwa [if_pos hc, if_pos hc]
  · rwa [if_neg hc, if_neg hc]

theorem nested {ctx : Context} (h : Extends p p') :
    Extends (Grammar.nested ctx p) (Grammar.nested ctx p') := by
  intro s he
  rw [nested_apply] at he ⊢
  rw [nested_apply]
  split
  · next hd =>
    rw [if_pos hd] at he
    rw [h s.deeper he.of_leave]
  · rfl

theorem following {sep : Kind} (h : Extends p p') (n : Nat) :
    Extends (Grammar.following sep p n) (Grammar.following sep p' n) := by
  induction n with
  | zero => exact refl _
  | succ n ih => exact after fun _ => ite (h.bind fun _ => ih.bind fun _ => refl _) (refl _)

theorem separated {sep : Kind} (h : Extends p p') :
    Extends (Grammar.separated sep p) (Grammar.separated sep p') :=
  h.bind fun _ => after fun n => (h.following n).bind fun _ => refl _

theorem complete (h : Extends p p') : Extends (Grammar.complete p) (Grammar.complete p') :=
  h.bind fun _ => refl _

end Extends

/-! ### Chains -/

namespace Extends
variable {ctx : Context}

section Chains
variable {operator? : String → Option ω} {operand operand' : Parse Expr}
  (h : Extends operand operand')
include h

theorem condition : Extends (Grammar.condition operand) (Grammar.condition operand') :=
  after fun _ => h.bind fun _ => refl _

theorem links (n : Nat) :
    Extends (Grammar.links ctx operator? operand n) (Grammar.links ctx operator? operand' n) := by
  induction n with
  | zero => exact refl _
  | succ n ih =>
    refine after fun word => ?_
    cases word.bind operator? with
    | none => exact refl _
    | some op => exact after fun _ => after fun _ => h.bind fun _ => ih.bind fun _ => refl _

theorem chainFrom (build : ω → Expr → Expr → Expr) (first : Expr) :
    Extends (Grammar.chainFrom ctx operator? build first operand)
      (Grammar.chainFrom ctx operator? build first operand') :=
  after fun n => (links h n).bind fun _ => refl _

theorem mathChain {operator? : String → Option MathOp} :
    Extends (Grammar.mathChain ctx operator? operand)
      (Grammar.mathChain ctx operator? operand') :=
  h.bind fun first => chainFrom h _ first

theorem logicalChain (op : LogicalOp) :
    Extends (Grammar.logicalChain ctx op operand) (Grammar.logicalChain ctx op operand') :=
  after fun _ => h.bind fun first => after fun _ =>
    ite (after fun _ => chainFrom h.condition _ first) (refl _)

end Chains

/-! ### Expressions -/

section Atoms
variable {inner inner' : Level → Parse Expr} (h : ∀ l, Extends (inner l) (inner' l))
include h

theorem castCall : Extends (Grammar.castCall ctx inner) (Grammar.castCall ctx inner') :=
  after fun _ => nested (after fun _ => after fun _ => (h .sum).bind fun _ => refl _)

theorem arguments : Extends (Grammar.arguments inner) (Grammar.arguments inner') :=
  after fun _ => ite (refl _) (h .sum).separated

theorem functionCall (function : Builtin) :
    Extends (Grammar.functionCall ctx inner function) (Grammar.functionCall ctx inner' function) :=
  after fun _ => after fun _ => nested (after fun _ => (arguments h).bind fun _ => refl _)

theorem lambda : Extends (Grammar.lambda inner) (Grammar.lambda inner') :=
  after fun _ => ite (refl _) (after fun _ => (h .whole).condition.bind fun _ => refl _)

theorem collectionCall (collection : Property) (function : Builtin) :
    Extends (Grammar.collectionCall ctx inner collection function)
      (Grammar.collectionCall ctx inner' collection function) :=
  after fun _ => after fun _ => nested (after fun _ => after fun _ =>
    ite (refl _) ((lambda h).bind fun _ => refl _))

theorem propertyPath :
    Extends (Grammar.propertyPath ctx inner) (Grammar.propertyPath ctx inner') := by
  refine after fun first => after fun n => after ?_
  rintro ⟨others, function?⟩
  cases function? with
  | some function => exact collectionCall h _ function
  | none => exact refl _

theorem callOf (w : String) :
    Extends (Grammar.callOf ctx inner w) (Grammar.callOf ctx inner' w) := by
  unfold Grammar.callOf
  split
  · exact refl _
  · exact castCall h
  · split
    · exact refl _
    · exact ite (refl _) (functionCall h _)

theorem wordAtom (w : String) :
    Extends (Grammar.wordAtom ctx inner w) (Grammar.wordAtom ctx inner' w) :=
  ite (refl _) (after fun _ => ite (callOf h w) (ite (refl _) (propertyPath h)))

theorem group : Extends (Grammar.group ctx inner) (Grammar.group ctx inner') :=
  nested (after fun _ => (h .whole).bind fun _ => refl _)

theorem atom : Extends (Grammar.atom ctx inner) (Grammar.atom ctx inner') := by
  refine after fun token => ?_
  cases token.kind with
  | leftParen => exact group h
  | word w => exact wordAtom h w
  | _ => exact refl _

theorem product : Extends (Grammar.product ctx inner) (Grammar.product ctx inner') :=
  mathChain (atom h)

theorem sum : Extends (Grammar.sum ctx inner) (Grammar.sum ctx inner') := mathChain (product h)

theorem comparison : Extends (Grammar.comparison ctx inner) (Grammar.comparison ctx inner') := by
  refine (sum h).bind fun left => after fun op => ?_
  cases op with
  | none => exact refl _
  | some op => exact after fun _ => (sum h).bind fun _ => refl _

theorem conjunction : Extends (Grammar.conjunction ctx inner) (Grammar.conjunction ctx inner') :=
  logicalChain (comparison h) .and

theorem disjunction : Extends (Grammar.disjunction ctx inner) (Grammar.disjunction ctx inner') :=
  logicalChain (conjunction h) .or

end Atoms

/-- **With a larger bound on brackets** a level is read as far. -/
theorem levelFrom {n m : Nat} (hle : n ≤ m) (l : Level) :
    Extends (Grammar.levelFrom ctx n l) (Grammar.levelFrom ctx m l) := by
  induction n generalizing m l with
  | zero => exact fun _ h => nomatch h
  | succ n ih =>
    obtain ⟨m, rfl⟩ := Nat.exists_eq_add_of_le' hle
    have hinner := fun l => ih (m := m + n) (Nat.le_add_left ..) l
    cases l with
    | whole => exact disjunction hinner
    | sum => exact sum hinner

/-! ### Stages -/

section Stages
variable {inner inner' : Parse Transformation} (h : Extends inner inner')
include h

theorem stageArg : Extends (Grammar.stageArg ctx inner) (Grammar.stageArg ctx inner') :=
  after fun _ => ite (h.bind fun _ => refl _) (refl _)

omit h in
theorem enclosed {args args' : Parse (List StageArg)} (h : Extends args args') :
    Extends (Grammar.enclosed ctx args) (Grammar.enclosed ctx args') :=
  after fun _ => h.nested.bind fun _ => refl _

theorem expandArgs : Extends (Grammar.expandArgs inner) (Grammar.expandArgs inner') :=
  after fun _ => after fun n => (h.following n).bind fun _ => refl _

theorem stageArgs (kind : StageKind) :
    Extends (Grammar.stageArgs ctx inner kind) (Grammar.stageArgs ctx inner' kind) := by
  cases kind with
  | identity | filter => exact refl _
  | expand => exact enclosed (expandArgs h)
  | _ => exact enclosed (stageArg h).separated

theorem stageWith : Extends (Grammar.stageWith ctx inner) (Grammar.stageWith ctx inner') := by
  refine after fun name => ?_
  cases (Keyword.find? name.value : Option StageKind) with
  | none => exact refl _
  | some kind => exact (stageArgs h kind).bind fun _ => refl _

end Stages

/-- **With a larger bound on stages** a stage is read as far. -/
theorem stageFrom {n m : Nat} (hle : n ≤ m) :
    Extends (Grammar.stageFrom ctx n) (Grammar.stageFrom ctx m) := by
  induction n generalizing m with
  | zero => exact fun _ h => nomatch h
  | succ n ih =>
    obtain ⟨m, rfl⟩ := Nat.exists_eq_add_of_le' hle
    exact stageWith (ih (Nat.le_add_left ..))

end Extends

/-! ## Readers -/

/-- **What reads some part of the language**, of which there is always some text. -/
inductive Reader where
  | filter | boolean | expression | conjunction | comparison | arithmetic | product | atom
  | literal | pathSegment | memberPath
  | stage | stageArg | pipeline
  | resourceSegment | resourcePath
  deriving DecidableEq, Repr

namespace Reader

/-- The type of what a reader reads. -/
def Value : Reader → Type
  | filter | boolean | expression | conjunction | comparison | arithmetic | product | atom => Expr
  | literal => Literal
  | pathSegment | memberPath => String
  | stage => Transformation
  | stageArg => StageArg
  | pipeline => List Transformation
  | resourceSegment => PathSegment
  | resourcePath => List PathSegment

/-- **Reads**, with brackets and stages nested as deep as there are tokens. -/
def read (ctx : Context) : (r : Reader) → Parse r.Value
  | filter => Grammar.filter ctx
  | boolean => Grammar.boolean ctx
  | expression => Grammar.expression ctx
  | conjunction => Grammar.conjunction ctx (level ctx)
  | comparison => Grammar.comparison ctx (level ctx)
  | arithmetic => Grammar.arithmetic ctx
  | product => Grammar.product ctx (level ctx)
  | atom => Grammar.atom ctx (level ctx)
  | literal => Grammar.literal ctx
  | pathSegment => Grammar.pathSegment
  | memberPath => Grammar.memberPath
  | stage => Grammar.stage ctx
  | stageArg => Grammar.stageArg ctx (Grammar.stage ctx)
  | pipeline => Grammar.pipeline ctx
  | resourceSegment => Grammar.resourceSegment ctx
  | resourcePath => Grammar.resourcePath ctx

/-- A reader, given how the inside of brackets is read and how stages are. -/
def given (ctx : Context) (inner : Level → Parse Expr) (stages : Parse Transformation) :
    (r : Reader) → Parse r.Value
  | filter => complete (condition (inner .whole))
  | boolean => condition (inner .whole)
  | expression => inner .whole
  | conjunction => Grammar.conjunction ctx inner
  | comparison => Grammar.comparison ctx inner
  | arithmetic => inner .sum
  | product => Grammar.product ctx inner
  | atom => Grammar.atom ctx inner
  | literal => Grammar.literal ctx
  | pathSegment => Grammar.pathSegment
  | memberPath => Grammar.memberPath
  | stage => stages
  | stageArg => Grammar.stageArg ctx stages
  | pipeline => complete (separated .slash stages)
  | resourceSegment => Grammar.resourceSegment ctx
  | resourcePath => Grammar.resourcePath ctx

/-- **Reads with brackets and stages nested at most `n` deep**, whatever the tokens are. -/
def within (ctx : Context) (n : Nat) (r : Reader) : Parse r.Value :=
  r.given ctx (levelFrom ctx n) (stageFrom ctx n)

variable {ctx : Context} {inner inner' : Level → Parse Expr}
  {stages stages' : Parse Transformation}

theorem read_eq_given (ctx : Context) (r : Reader) :
    r.read ctx = r.given ctx (level ctx) (Grammar.stage ctx) := by
  cases r <;> rfl

/-- A reader that is given what reads further reads further. -/
theorem extends_given (h : ∀ l, Extends (inner l) (inner' l)) (h' : Extends stages stages')
    (r : Reader) : Extends (r.given ctx inner stages) (r.given ctx inner' stages') := by
  cases r with
  | filter => exact (h .whole).condition.complete
  | boolean => exact (h .whole).condition
  | expression => exact h .whole
  | conjunction => exact .conjunction h
  | comparison => exact .comparison h
  | arithmetic => exact h .sum
  | product => exact .product h
  | atom => exact .atom h
  | stage => exact h'
  | stageArg => exact .stageArg h'
  | pipeline => exact h'.separated.complete
  | literal | pathSegment | memberPath | resourceSegment | resourcePath => exact .refl _

/-- **A reader keeps count and moves past a token**, given what does so where there are as many
tokens ahead. -/
theorem runs_given {N n d o : Nat}
    (hinner : ∀ l, ∀ k < N, ∀ d o,
      Runs (Expr.Within ctx.settings (Level.tier l) d o) k (k - 1) d o (inner l))
    (hstages : ∀ k < N, ∀ d o,
      Runs (fun t : Transformation => t.toArg.Within ctx.settings d) k (k - 1) d o stages)
    (r : Reader) (hn : n < N) : Runs (fun _ => True) n (n - 1) d o (r.given ctx inner stages) := by
  have hle := Nat.le_of_lt hn
  have hstage : ∀ k < N, ∀ d, Runs (fun t : Transformation => t.toArg.Within ctx.settings d) k
      (k - 1) d o stages := fun k hk d => hstages k hk d o
  cases r with
  | filter => exact (runs_condition (hinner .whole n hn d o)).complete.imp fun _ _ => trivial
  | boolean => exact (runs_condition (hinner .whole n hn d o)).imp fun _ _ => trivial
  | expression => exact (hinner .whole n hn d o).imp fun _ _ => trivial
  | conjunction =>
    have hoperand : ∀ k ≤ n, ∀ o, Runs (Expr.Within ctx.settings .comparison d o) k (k - 1) d o
        (Grammar.comparison ctx inner) := fun k hk _ => runs_comparison hinner (by omega)
    exact (runs_logicalChain .and hoperand).imp fun _ _ => trivial
  | comparison => exact (runs_comparison hinner hle).imp fun _ _ => trivial
  | arithmetic => exact (hinner .sum n hn d o).imp fun _ _ => trivial
  | product => exact (runs_product hinner hle).imp fun _ _ => trivial
  | atom => exact (runs_atom hinner hle).imp fun _ _ => trivial
  | literal => exact runs_literal ctx
  | pathSegment => exact runs_pathSegment
  | memberPath => exact runs_memberPath
  | stage => exact (hstage n hn d).imp fun _ _ => trivial
  | stageArg => exact (runs_stageArg hstage hn).imp fun _ _ => trivial
  | pipeline =>
    have hitems := Runs.separated .slash nofun fun k hk => hstage k (Nat.lt_of_le_of_lt hk hn) d
    exact hitems.complete.imp fun _ _ => trivial
  | resourceSegment => exact runs_resourceSegment
  | resourcePath => exact runs_resourcePath

theorem runs_read (ctx : Context) (r : Reader) {n d o : Nat} :
    Runs (fun _ => True) n (n - 1) d o (r.read ctx) := by
  rw [read_eq_given]
  exact runs_given (fun l _ _ _ _ => runs_level l) (fun _ _ _ _ => runs_stage) r
    (Nat.lt_succ_self n)

theorem runs_within (ctx : Context) (r : Reader) {n m d o : Nat} (hle : n ≤ m) :
    Runs (fun _ => True) n (n - 1) d o (r.within ctx m) :=
  runs_given (fun l _ hk _ _ => runs_levelFrom l (Nat.le_of_lt_succ hk))
    (fun _ hk _ _ => runs_stageFrom (Nat.le_of_lt_succ hk)) r (Nat.lt_succ_of_le hle)

end Reader

/-! ## Without a bound -/

section Unbounded
variable {ctx : Context} {s : State}

/-- A bound on brackets and the number of tokens ahead have a bound that is larger than both. -/
theorem exists_extends_level (ctx : Context) (n : Nat) : ∃ inner : Level → Parse Expr,
    (∀ l, Extends (levelFrom ctx n l) (inner l)) ∧ ∀ l, Extends (level ctx l) (inner l) :=
  ⟨fun l s => levelFrom ctx (max n (s.cursor.rest.length + 1)) l s,
    fun l s h => Extends.levelFrom (Nat.le_max_left ..) l s h,
    fun l s h => Extends.levelFrom (Nat.le_max_right ..) l s h⟩

/-- The same for a bound on stages. -/
theorem exists_extends_stage (ctx : Context) (n : Nat) : ∃ stages : Parse Transformation,
    Extends (stageFrom ctx n) stages ∧ Extends (stage ctx) stages :=
  ⟨fun s => stageFrom ctx (max n (s.cursor.rest.length + 1)) s,
    fun s h => Extends.stageFrom (Nat.le_max_left ..) s h,
    fun s h => Extends.stageFrom (Nat.le_max_right ..) s h⟩

theorem State.at_of_hasEnd (h : HasEnd s.cursor.rest) :
    s.At s.cursor.rest.length s.depth s.operators :=
  ⟨h, Nat.le_refl _, rfl, rfl⟩

theorem Runs.ended {P : α → Prop} {p : Parse α} {n m d o : Nat} (h : Runs P n m d o p)
    (hs : s.At n d o) : Ended (p s) := by
  have ho := h hs
  generalize p s = r at ho
  cases ho with
  | ok => exact .ok _ _
  | refused => exact .refused _ _

/-- No more brackets and stages nest than there are tokens ahead, so a bound that is as large
is never what stops a reader. -/
theorem Reader.within_eq_read (r : Reader) (h : HasEnd s.cursor.rest) {n : Nat}
    (hn : s.cursor.rest.length ≤ n) : r.within ctx n s = r.read ctx s := by
  obtain ⟨inner, hfrom, hlevel⟩ := exists_extends_level ctx n
  obtain ⟨stages, hfrom', hstage⟩ := exists_extends_stage ctx n
  have hs := State.at_of_hasEnd h
  have hread := (runs_read ctx r).ended hs
  rw [read_eq_given] at hread ⊢
  exact (extends_given hfrom hfrom' r).eq_of_ended (extends_given hlevel hstage r)
    ((runs_within ctx r hn).ended hs) hread

/-- Levels and stages are read as if there were no bound: what is in a bracket is a level
again, and a stage in a stage is a stage. -/
theorem level_and_stage_eq (ctx : Context) (h : HasEnd s.cursor.rest) :
    level ctx .whole s = disjunction ctx (level ctx) s ∧
      level ctx .sum s = sum ctx (level ctx) s ∧
      stage ctx s = stageWith ctx (stage ctx) s := by
  have hs := State.at_of_hasEnd h
  obtain ⟨inner, hfrom, hlevel⟩ := exists_extends_level ctx s.cursor.rest.length
  obtain ⟨stages, hfrom', hstage⟩ := exists_extends_stage ctx s.cursor.rest.length
  refine ⟨?_, ?_, ?_⟩
  · exact (Extends.disjunction hfrom).eq_of_ended (.disjunction hlevel)
      ((runs_level .whole).ended hs)
      ((runs_disjunction (fun l _ _ _ _ => runs_level l) (Nat.le_refl _)).ended hs)
  · exact (Extends.sum hfrom).eq_of_ended (.sum hlevel) ((runs_level .sum).ended hs)
      ((runs_sum (fun l _ _ _ _ => runs_level l) (Nat.le_refl _)).ended hs)
  · exact (Extends.stageWith hfrom').eq_of_ended (.stageWith hstage) (runs_stage.ended hs)
      ((runs_stageWith (fun _ _ _ => runs_stage) (Nat.le_refl _)).ended hs)

end Unbounded

/-! ## Progress -/

/-- **A run moves forwards and comes to an end.** -/
structure Onward (s : State) (r : EStateM.Result Stop State α) : Prop where
  /-- It reads a value or is refused. -/
  ended : Ended r
  /-- It leaves the tokens as they are. -/
  tokens : (left r).cursor.tokens = s.cursor.tokens
  /-- It never moves back. -/
  le : s.cursor.position ≤ (left r).cursor.position
  /-- It never moves past the last token. -/
  lt : (left r).cursor.position < s.cursor.tokens.length
  /-- If it reads a value, then it has moved past a token. -/
  progress : ∀ a t, r = .ok a t → s.cursor.position < t.cursor.position

theorem Onward.of_leads {s : State} {r : EStateM.Result Stop State α} (hr : Ended r)
    (hlead : s.cursor.Leads (left r).cursor) (hends : HasEnd (left r).cursor.rest)
    (hprogress : ∀ a t, r = .ok a t → t.cursor.rest.length < s.cursor.rest.length) :
    Onward s r := by
  have hadd := hlead.position_add
  have hpos := List.length_pos_iff.2 hends.ne_nil
  have htokens : s.cursor.tokens.length = s.cursor.position + s.cursor.rest.length := by
    rw [Cursor.tokens, List.length_append, List.length_reverse, Cursor.position]
  refine ⟨hr, hlead.tokens_eq, hlead.position_le, by omega, ?_⟩
  rintro a t rfl
  have hlt := hprogress a t rfl
  simp only [left] at hadd
  omega

/-- **Every reader moves forwards and comes to an end**, whatever the limits are, if the last of
the tokens ahead is the end of the text.  It does the same with brackets and stages nested at most
as deep as there are tokens ahead, or with any larger bound. -/
theorem Reader.onward (ctx : Context) (r : Reader) {s : State} (h : HasEnd s.cursor.rest) :
    Onward s (r.read ctx s) ∧
      ∀ n, s.cursor.rest.length ≤ n → r.within ctx n s = r.read ctx s := by
  refine ⟨?_, fun n hn => r.within_eq_read h hn⟩
  have hs := State.at_of_hasEnd h
  have hpos := hs.pos
  have ho := r.runs_read ctx hs
  generalize r.read ctx s = x at ho
  cases ho with
  | ok _ ht hlead =>
    refine .of_leads (.ok _ _) hlead ht.ends ?_
    rintro _ _ ⟨⟩
    have hlength := ht.length
    omega
  | refused hends _ _ hlead => exact .of_leads (.refused _ _) hlead hends nofun

/-- Brackets in brackets, with a comparison after them. -/
def bracketed : State := .start (Lexing.ofSlice (.ofString "((a add 1)) gt 2" 0)).tokens 0

/-- Limits that are no help. -/
def unlimited : Context :=
  ⟨{ Settings.standard with maxDepth := 1000000000, maxOperatorDepth := 1000000000 }, none⟩

theorem onward_bracketed :
    HasEnd bracketed.cursor.rest ∧ bracketed.cursor.rest.length = 10 ∧
      Onward bracketed (Reader.comparison.read unlimited bracketed) ∧
      Reader.comparison.within unlimited 10 bracketed =
        Reader.comparison.read unlimited bracketed ∧
      (left (Reader.comparison.read unlimited bracketed)).cursor.position = 9 := by
  have hend : HasEnd bracketed.cursor.rest := ⟨⟨.eof, Span.point 16⟩, by decide +kernel, rfl⟩
  have hlength : bracketed.cursor.rest.length = 10 := by decide +kernel
  obtain ⟨honward, hwithin⟩ := Reader.onward unlimited .comparison hend
  exact ⟨hend, hlength, honward, hwithin 10 (Nat.le_of_eq hlength), by decide +kernel⟩

end Grammar

end OData
