import OData.Proofs.Limits.Readers

/-!
# A parser that is used again

One parser can be taken through many steps, each of which goes on where the one before stopped.
A step that is refused is no end: it leaves the parser at the token that was refused, out of all
brackets that it went into, and with the operators counted whose chains it did not build.  So a
later step starts with operators of earlier ones, and with tokens ahead that may be anything but
for the last.

The counts come out right all the same (`Step.keeps_after`).  Two things take off a count: leaving
a bracket takes one off the depth, and building a chain takes its operators off.  Each ends the
run as overdrawn when there is less than that (`release_eq_overdrawn_iff`), and a run that is
overdrawn in a bracket or in a sequence is overdrawn as a whole (`nested_eq_overdrawn_iff`,
`bind_of_error`).  That a step is never overdrawn therefore says that there was enough in every
place.
-/
namespace OData.Grammar
variable {α : Type} {ctx : Context} {s t : State} {n : Nat}

/-- The state that a run leaves behind, however it ends. -/
def left : EStateM.Result Stop State α → State
  | .ok _ t | .error _ t => t

/-! ## Taking off a count -/

/-- **Operators are overdrawn** if fewer of them are counted than are taken off. -/
theorem release_eq_overdrawn_iff :
    release n s = .error .overdrawn t ↔ s.operators < n ∧ t = s := by
  rw [release_apply]
  by_cases h : n ≤ s.operators
  · rw [if_pos h]
    exact ⟨nofun, fun hlt => absurd h (Nat.not_le.2 hlt.1)⟩
  · rw [if_neg h]
    constructor
    · rintro ⟨⟩
      exact ⟨Nat.not_le.1 h, rfl⟩
    · rintro ⟨-, rfl⟩
      rfl

/-- Outside of all brackets there is no bracket to leave. -/
theorem State.outside_eq_none_iff : s.outside = none ↔ s.depth = 0 := by
  unfold State.outside
  split
  · next h => exact ⟨fun _ => h, fun _ => rfl⟩
  · next h => exact ⟨nofun, fun h' => absurd (h.symm.trans h') (Nat.succ_ne_zero _)⟩

/-- The depth is overdrawn if there is no bracket to leave; else leaving changes nothing about
how the inside ended. -/
theorem leave_eq_overdrawn_iff {r : EStateM.Result Stop State α} :
    leave r = .error .overdrawn t ↔
      t = left r ∧ t.depth = 0 ∨ ∃ u, r = .error .overdrawn u ∧ u.outside = some t := by
  have hnone := State.outside_eq_none_iff (s := left r)
  cases r with
  | ok a u | error e u =>
    cases ho : u.outside with
    | none | some v =>
      simp only [leave, left, ho] at hnone ⊢
      grind

/-- **A bracket is overdrawn** if it cannot be left or if its inside is overdrawn. -/
theorem nested_eq_overdrawn_iff {inside : Parse α} :
    nested ctx inside s = .error .overdrawn t ↔ s.depth < ctx.settings.maxDepth ∧
      (t = left (inside s.deeper) ∧ t.depth = 0 ∨
        ∃ u, inside s.deeper = .error .overdrawn u ∧ u.outside = some t) := by
  rw [nested_apply]
  by_cases hd : s.depth < ctx.settings.maxDepth
  · rw [if_pos hd, and_iff_right hd]
    exact leave_eq_overdrawn_iff
  · rw [if_neg hd]
    exact ⟨nofun, fun h => absurd h.1 hd⟩

/-! ## Steps -/

/-- **What a parser can be asked for.** -/
inductive Step where
  /-- All the tokens, as an expression that is true or false. -/
  | filter
  /-- An expression that is true or false. -/
  | boolean
  | expression
  /-- An expression without comparisons and connectives. -/
  | arithmetic
  | literal
  | memberPath
  /-- All the tokens, as stages. -/
  | pipeline
  deriving DecidableEq, Repr

namespace Step

/-- The type of what a step reads. -/
def Value : Step → Type
  | filter | boolean | expression | arithmetic => Expr
  | literal => Literal
  | memberPath => String
  | pipeline => List Transformation

/-- **Takes a step.** -/
def read (ctx : Context) : (step : Step) → Parse step.Value
  | filter => Grammar.filter ctx
  | boolean => Grammar.boolean ctx
  | expression => Grammar.expression ctx
  | arithmetic => Grammar.arithmetic ctx
  | literal => Grammar.literal ctx
  | memberPath => Grammar.memberPath
  | pipeline => Grammar.pipeline ctx

/-- **The state after some steps**, each of which may have been refused. -/
def after (ctx : Context) (s : State) (steps : List Step) : State :=
  steps.foldl (fun s step => left (step.read ctx s)) s

/-- All steps keep count. -/
theorem runs_read (ctx : Context) (step : Step) {d o : Nat} :
    Runs (fun _ => True) n (n - 1) d o (step.read ctx) := by
  cases step with
  | filter => exact runs_filter.imp fun _ _ => trivial
  | boolean => exact runs_boolean.imp fun _ _ => trivial
  | expression => exact runs_expression.imp fun _ _ => trivial
  | arithmetic => exact (runs_level .sum).imp fun _ _ => trivial
  | literal => exact runs_literal ctx
  | memberPath => exact runs_memberPath
  | pipeline => exact runs_pipeline.imp fun _ _ => trivial

end Step

/-- A run keeps count from a state. -/
structure Keeps (s : State) (r : EStateM.Result Stop State α) : Prop where
  /-- It is in as many brackets as before. -/
  depth : (left r).depth = s.depth
  /-- If it reads something, then as many operators are counted as before. -/
  read : ∀ a t, r = .ok a t → t.operators = s.operators
  /-- If it is refused, then no fewer operators are counted than before. -/
  refused : ∀ e t, r = .error e t → s.operators ≤ t.operators
  /-- It stops for no other reason, so that no count is overdrawn. -/
  cause : ∀ e t, r = .error e t → ∃ f, e = .refused f

/-- A step keeps count, and the end of the text is still ahead after it. -/
theorem Step.keeps (ctx : Context) (h : HasEnd s.cursor.rest) (step : Step) :
    Keeps s (step.read ctx s) ∧ HasEnd (left (step.read ctx s)).cursor.rest := by
  have hs : s.At s.cursor.rest.length s.depth s.operators := ⟨h, Nat.le_refl _, rfl, rfl⟩
  have ho := step.runs_read ctx hs
  generalize step.read ctx s = r at ho
  cases ho with
  | @ok a t _ ht _ =>
    refine ⟨⟨ht.depth, ?_, nofun, nofun⟩, ht.ends⟩
    rintro _ _ ⟨⟩
    exact ht.operators
  | @refused f t hends hdepth hoperators _ =>
    refine ⟨⟨hdepth, nofun, ?_, ?_⟩, hends⟩
    · rintro _ _ ⟨⟩
      exact hoperators
    · rintro _ _ ⟨⟩
      exact ⟨f, rfl⟩

/-- Steps leave a parser as deep as it was, and before the end of the text. -/
theorem Step.depth_after (ctx : Context) (h : HasEnd s.cursor.rest) (steps : List Step) :
    HasEnd (after ctx s steps).cursor.rest ∧ (after ctx s steps).depth = s.depth := by
  induction steps generalizing s with
  | nil => exact ⟨h, rfl⟩
  | cons step steps ih =>
    obtain ⟨hkeeps, hends⟩ := step.keeps ctx h
    obtain ⟨hafter, hdepth⟩ := ih hends
    exact ⟨hafter, hdepth.trans hkeeps.depth⟩

/-- **Every step of a parser keeps count**, whatever the tokens are, as long as the last of them
is the end of the text, and whatever steps were taken before, be they refused or not. -/
theorem Step.keeps_after (ctx : Context) {tokens : List Token} (h : HasEnd tokens) (depth : Nat)
    (steps : List Step) (step : Step) :
    let s := after ctx (State.start tokens depth) steps
    s.depth = depth ∧ Keeps s (step.read ctx s) := by
  obtain ⟨hends, hdepth⟩ := depth_after ctx (s := State.start tokens depth) h steps
  exact ⟨hdepth, (step.keeps ctx hends).1⟩

/-- Tokens that are read in three steps.  The first is refused at a name that is no condition, with
its `and` counted, the second goes on behind that name, and the third comes to the limit on
operators. -/
def reused : List Token :=
  (Lexing.ofSlice (.ofString "x eq 1 and y z/w filter(a eq 1 or b eq 2)" 0)).tokens

/-- The limits that they are read with. -/
def reusing : Context := ⟨{ Settings.standard with maxDepth := 3, maxOperatorDepth := 2 }, none⟩

/-- The steps before the last, and the state after them. -/
def reusedAfter : State := Step.after reusing (State.start reused 2) [.boolean, .memberPath]

theorem keeps_reused :
    HasEnd reused ∧ reusedAfter.operators = 1 ∧ reusedAfter.depth = 2 ∧
      Keeps reusedAfter (Step.pipeline.read reusing reusedAfter) ∧
      (left (Step.pipeline.read reusing reusedAfter)).operators = 1 := by
  have hend : HasEnd reused := ⟨⟨.eof, Span.point 41⟩, by decide +kernel, rfl⟩
  obtain ⟨hdepth, hkeeps⟩ := Step.keeps_after reusing hend 2 [.boolean, .memberPath] .pipeline
  exact ⟨hend, by decide +kernel, hdepth, hkeeps, by decide +kernel⟩

end OData.Grammar
