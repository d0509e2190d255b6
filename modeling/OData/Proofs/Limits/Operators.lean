import OData.Proofs.Limits.Lists
import OData.Proofs.Limits.Looser

/-!
# Operators above a node

An operator is counted from where it is read until the chain that it is in is built.  So it
is counted while its right operand is read, but not while its left operand is: that was read
before.  Hence the limit on operators bounds, of the connectives and the arithmetic above a
node of a tree, those that have the node in their right operand.

Those that have it in their left operand are bounded too, but by the grammar: going to the
left leads to a tighter tier, and only a bracket leads back.  There are four tiers of
operators, and the limit on depth bounds the brackets.  Both bounds together are a bound on
the height of what is parsed (`parse_operators`).
-/
namespace OData
open Grammar Options

/-! ## Nodes -/

/-- **A node of a tree**: `e.Node n m x` says that `x` stands in `e` below `n` operators, `m` of
which have it in their right operand.  Operators are connectives and arithmetic, but not
comparisons, calls and lambdas. -/
inductive Expr.Node : Expr → Nat → Nat → Expr → Prop
  | root (e : Expr) : Node e 0 0 e
  | logicalLeft {op : LogicalOp} {left right x : Expr} {n m : Nat} :
      Node left n m x → Node (.logical op left right) (n + 1) m x
  | logicalRight {op : LogicalOp} {left right x : Expr} {n m : Nat} :
      Node right n m x → Node (.logical op left right) (n + 1) (m + 1) x
  | mathLeft {op : MathOp} {left right x : Expr} {n m : Nat} :
      Node left n m x → Node (.math op left right) (n + 1) m x
  | mathRight {op : MathOp} {left right x : Expr} {n m : Nat} :
      Node right n m x → Node (.math op left right) (n + 1) (m + 1) x
  | comparisonLeft {op : ComparisonOp} {left right x : Expr} {n m : Nat} :
      Node left n m x → Node (.comparison op left right) n m x
  | comparisonRight {op : ComparisonOp} {left right x : Expr} {n m : Nat} :
      Node right n m x → Node (.comparison op left right) n m x
  | argument {f : Builtin} {args : List Expr} {a x : Expr} {n m : Nat} :
      a ∈ args → Node a n m x → Node (.call f args) n m x
  | body {param : String} {body x : Expr} {n m : Nat} :
      Node body n m x → Node (.lambda param body) n m x

/-- **An argument of a stage holds an expression**, itself or in a stage inside. -/
inductive StageArg.Holds : StageArg → Expr → Prop
  | expr (e : Expr) : Holds (.expr e) e
  | named (name : String) (e : Expr) : Holds (.named name (.expr e)) e
  | stage {kind : StageKind} {args : List StageArg} {a : StageArg} {e : Expr} :
      a ∈ args → Holds a e → Holds (.stage kind args) e

/-- **A query holds an expression**: as its filter, in its stages, or in the options of a path
that it expands. -/
inductive Query.Holds : Query → Expr → Prop
  | filter {q : Query} {e : Expr} : q.filter = some e → Holds q e
  | stage {q : Query} {stages : List Transformation} {t : Transformation} {e : Expr} :
      q.apply = some stages → t ∈ stages → t.toArg.Holds e → Holds q e
  | expand {q : Query} {items : List ExpandItem} {i : ExpandItem} {e : Expr} :
      q.expand = some items → i ∈ items → Holds i.options e → Holds q e

/-! ## Bounds -/

/-- The most operators that can have a node at a tier in their left operand, outside of
brackets. -/
def Grammar.Tier.lefts : Tier → Nat
  | .disjunction => 4
  | .conjunction => 3
  | .comparison => 2
  | .sum => 2
  | .product => 1
  | .atom => 0

theorem Grammar.Tier.lefts_tighter (t : Tier) : t.tighter.lefts ≤ t.lefts := by
  cases t <;> decide

/-- The left operand of an operator is at a tier of fewer operators. -/
theorem LogicalOp.lefts_tighter (op : LogicalOp) : op.tier.tighter.lefts < op.tier.lefts := by
  cases op <;> decide

theorem MathOp.lefts_tighter (op : MathOp) : op.tier.tighter.lefts < op.tier.lefts := by
  cases op <;> decide

/-- What there is room for has few operators above each node: with those counted already no
more than the limit have the node in their right operand; and at most four have it in their left
operand outside of brackets, and at most four more in each bracket. -/
theorem Expr.Within.counts_le {settings : Settings} {t : Tier} {d o n m : Nat} {e x : Expr}
    (h : Within settings t d o e) (ho : o ≤ settings.maxOperatorDepth) (hx : e.Node n m x) :
    o + m ≤ settings.maxOperatorDepth ∧ n ≤ m + t.lefts + 4 * (settings.maxDepth - d) := by
  induction h generalizing n m with
  | @loosen t _ _ _ _ _ ih =>
    have hbounds := ih ho hx
    have hlefts := t.lefts_tighter
    omega
  | logical op hlt _ _ ihleft ihright =>
    have hlefts := op.lefts_tighter
    cases hx with
    | root => omega
    | logicalLeft hx =>
      have hbounds := ihleft ho hx
      omega
    | logicalRight hx =>
      have hbounds := ihright hlt hx
      omega
  | math op hlt _ _ ihleft ihright =>
    have hlefts := op.lefts_tighter
    cases hx with
    | root => omega
    | mathLeft hx =>
      have hbounds := ihleft ho hx
      omega
    | mathRight hx =>
      have hbounds := ihright hlt hx
      omega
  | comparison op _ _ ihleft ihright =>
    cases hx with
    | root => omega
    | comparisonLeft hx => exact ihleft ho hx
    | comparisonRight hx => exact ihright ho hx
  | group _ _ ih =>
    -- A bracket leads back to the loosest tier.
    have hbounds := ih ho hx
    simp only [Tier.lefts] at hbounds ⊢
    omega
  | literal | now | property | cast =>
    cases hx
    omega
  | call f _ _ ih =>
    cases hx with
    | root => omega
    | argument ha hx =>
      have hbounds := ih _ ha ho hx
      simp only [Tier.lefts] at hbounds ⊢
      omega
  | quantified f p param _ _ ih =>
    cases hx with
    | root => omega
    | argument ha hx =>
      -- One argument is the collection, the other the lambda.
      simp only [List.mem_cons, List.not_mem_nil, or_false] at ha
      rcases ha with rfl | rfl
      · cases hx
        omega
      · cases hx with
        | root => omega
        | body hx =>
          have hbounds := ih ho hx
          simp only [Tier.lefts] at hbounds ⊢
          omega

section Held
variable {settings : Settings} {d : Nat} {e : Expr}

/-- For the expressions in a stage there is room in some number of brackets. -/
theorem StageArg.Within.of_holds {a : StageArg} (h : a.Within settings d) (he : a.Holds e) :
    ∃ d, e.Within settings .disjunction d 0 := by
  induction he generalizing d with
  | expr e =>
    cases h with
    | expr h => exact ⟨d, h⟩
  | named name e =>
    cases h with
    | named _ h => exact ⟨d, h⟩
  | stage ha _ ih =>
    cases h with
    | identity => exact absurd ha List.not_mem_nil
    | stage kind _ hargs => exact ih (hargs _ ha)

/-- So there is for the expressions in a query. -/
theorem Query.Within.of_holds {q : Query} (h : q.Within settings d) (he : q.Holds e) :
    ∃ d, e.Within settings .disjunction d 0 := by
  induction he generalizing d with
  | filter hq =>
    obtain ⟨hfilter, -, -, -⟩ := h
    exact ⟨d, hfilter _ hq⟩
  | stage hq ht he =>
    obtain ⟨-, happly, -, -⟩ := h
    exact (happly _ hq _ ht).of_holds he
  | expand hq hi _ ih =>
    obtain ⟨-, -, -, hnested⟩ := h
    exact ih (hnested _ hq _ hi)

end Held

/-! ## Too many operators -/

section Limits
variable {settings : Settings} {text : String} {limit : Nat} {q : Query}

/-- What is parsed under a looser limit is parsed as the same query, or has too many
operators. -/
theorem parse_of_looser (hlimit : settings.maxOperatorDepth ≤ limit)
    (h : parse { settings with maxOperatorDepth := limit } text = .query q) :
    parse settings text = .query q ∨
      ∃ mq, parse settings text = .malformed mq ∧ mq.diagnostic.code = some .depth := by
  have hlooser : settings.AtMost { settings with maxOperatorDepth := limit } :=
    ⟨rfl, Nat.le_refl _, hlimit⟩
  exact parse_or_cutsOff hlooser h

/-- For a query that is parsed there is room. -/
theorem within_of_parse (h : parse settings text = .query q) : q.Within settings 0 := by
  have hsettles := settles_read settings text
  rw [parse_eq_query.1 h] at hsettles
  cases hsettles with
  | ok hq => exact hq

/-- A node of a tree that is parsed has a bounded number of operators above it. -/
theorem operators_le (h : parse settings text = .query q) {e x : Expr} (he : q.Holds e) {n m : Nat}
    (hx : e.Node n m x) :
    m ≤ settings.maxOperatorDepth ∧
      n ≤ settings.maxOperatorDepth + 4 * (settings.maxDepth + 1) := by
  obtain ⟨d, hwithin⟩ := (within_of_parse h).of_holds he
  have hbounds := hwithin.counts_le (Nat.zero_le _) hx
  simp only [Tier.lefts] at hbounds
  omega

end Limits

/-- **The limit on operators.**  A node of a tree that is parsed has at most as many operators
above it with the node in their right operand as the limit says, and at most four more for the
whole and for each bracket that there may be.  A text that has more of the former, as a looser
limit shows, is malformed for its depth. -/
theorem parse_operators (settings : Settings) (text : String) :
    (∀ q, parse settings text = .query q → ∀ e, q.Holds e → ∀ n m x, e.Node n m x →
      m ≤ settings.maxOperatorDepth ∧
        n ≤ settings.maxOperatorDepth + 4 * (settings.maxDepth + 1)) ∧
    ∀ limit q, parse { settings with maxOperatorDepth := limit } text = .query q →
      ∀ e, q.Holds e → ∀ n m x, e.Node n m x → settings.maxOperatorDepth < m →
        ∃ mq, parse settings text = .malformed mq ∧ mq.diagnostic.code = some .depth := by
  refine ⟨fun q h e he n m x hx => operators_le h he hx, ?_⟩
  intro limit q h e he n m x hx hlt
  have hle : m ≤ limit := (operators_le h he hx).1
  rcases parse_of_looser (by omega) h with h | h
  · have := (operators_le h he hx).1
    omega
  · exact h

/-- The settings that allow for one operator. -/
def Settings.oneOperator : Settings := { Settings.standard with maxOperatorDepth := 1 }

/-- The condition `A mul B add C eq 1`. -/
def sumOfProduct : Expr :=
  .comparison .eq
    (.math .add (.math .mul (.property ⟨"A", none⟩) (.property ⟨"B", none⟩))
      (.property ⟨"C", none⟩))
    (.literal (.integer 1))

/-- A product to the left of a sum is within the limit of one operator, though its operands have
two above them. -/
theorem two_operators_above_left :
    ∃ q e n m x, parse Settings.oneOperator "$filter=A mul B add C eq 1" = .query q ∧
      q.Holds e ∧ e.Node n m x ∧ ¬ n ≤ Settings.oneOperator.maxOperatorDepth :=
  ⟨{ filter := some sumOfProduct }, sumOfProduct, 2, 0, .property ⟨"A", none⟩, by decide +kernel,
    .filter rfl, .comparisonLeft (.mathLeft (.mathLeft (.root _))), by decide⟩

/-- A product to the right of a sum is beyond it. -/
theorem two_operators_above_right :
    ∃ mq, parse Settings.oneOperator "$filter=A add B mul C eq 1" = .malformed mq ∧
      mq.diagnostic.code = some .depth := by
  have h : parse { Settings.oneOperator with maxOperatorDepth := 2 }
      "$filter=A add B mul C eq 1" = .query { filter := some (.comparison .eq
        (.math .add (.property ⟨"A", none⟩)
          (.math .mul (.property ⟨"B", none⟩) (.property ⟨"C", none⟩)))
        (.literal (.integer 1))) } := by decide +kernel
  exact (parse_operators Settings.oneOperator "$filter=A add B mul C eq 1").2 2 _ h _ (.filter rfl)
    2 2 (.property ⟨"C", none⟩) (.comparisonLeft (.mathRight (.mathRight (.root _)))) (by decide)

end OData
