import Mathlib.Data.Fintype.EquivFin
import Mathlib.Data.List.Basic
import OData.Proofs.Grammar.Chain

/-!
# The order of a chain

A chain is built from its end: the operator that was met last waits until the operand on its left
is known, which is one step later.  What comes out is the plain nesting to the right
(`Expr.chain_eq_nestRight`), in which every operator has the operand before it on its left and
everything after it on its right.

The finished tree does not tell which of its nodes were built for the chain, since an operand may
be a chain of the same level, in parentheses.  So the order is stated of an `Assembly`, a tree that
tells the nodes that are built from the expressions that are given.  There is no choice in it: the
results that it has for all ways to build nodes determine it (`Assembly.eq_of_result`).
-/
namespace OData.Expr
variable {ω : Type}

/-! ## Nesting to the right -/

/-- **A nesting to the right**: the first operator on top, with the first operand on its left and
the nesting of what is after it on its right. -/
def nestRight (build : ω → Expr → Expr → Expr) (first : Expr) : List (ω × Expr) → Expr
  | [] => first
  | (op, e) :: r => build op first (nestRight build e r)

theorem chain_eq_nestRight (build : ω → Expr → Expr → Expr) (first : Expr)
    (links : List (ω × Expr)) : chain build first links = nestRight build first links := by
  induction links generalizing first with
  | nil => exact chain_nil build first
  | cons l r ih => rw [chain_cons, ih, nestRight]

/-! ## Assemblies -/

/-- **How an expression is put together**: which expressions are given, and which nodes are built
above them. -/
inductive Assembly (ω : Type) where
  /-- A given expression, unchanged. -/
  | given (e : Expr)
  /-- A node that is built. -/
  | built (op : ω) (left right : Assembly ω)

namespace Assembly

/-- **The expression that is put together**, for a way to build nodes. -/
def result (build : ω → Expr → Expr → Expr) : Assembly ω → Expr
  | given e => e
  | built op left right => build op (left.result build) (right.result build)

/-- **What an assembly is made of, in order**: the given expressions and the operators of the
nodes between them. -/
def listing : Assembly ω → List (Expr ⊕ ω)
  | given e => [.inl e]
  | built op left right => left.listing ++ .inr op :: right.listing

/-- **The left children** of the nodes that are built, from left to right. -/
def lefts : Assembly ω → List (Assembly ω)
  | given _ => []
  | built _ left right => left.lefts ++ left :: right.lefts

/-! ### An assembly is determined by its results -/

/-- Nodes that show what they are built from, as far as expressions are made of some parts:
none of them is a given expression, and each shows its operator and its operands. -/
structure Tells (build : ω → Expr → Expr → Expr) (parts : List (Expr ⊕ ω)) : Prop where
  /-- A node is none of the given expressions. -/
  fresh : ∀ e, .inl e ∈ parts → ∀ op left right, build op left right ≠ e
  /-- A node can be taken apart. -/
  injective : ∀ op op', .inr op ∈ parts → ∀ left right left' right',
    build op left right = build op' left' right' → op = op' ∧ left = left' ∧ right = right'

/-- A node that shows what it is built from: a lambda of a given name, with a number for the
operator. -/
def labelled (name : String) (number : ω → Nat) (op : ω) (left right : Expr) : Expr :=
  .lambda name (.call .concat [.literal (.integer (number op)), left, right])

theorem labelled_inj {name : String} {number : ω → Nat} {op op' : ω}
    {left right left' right' : Expr} :
    labelled name number op left right = labelled name number op' left' right' ↔
      number op = number op' ∧ left = left' ∧ right = right' := by
  simp only [labelled, lambda.injEq, call.injEq, List.cons.injEq, literal.injEq,
    Literal.integer.injEq, Int.natCast_inj, true_and, and_true]

/-- The variable of a lambda. -/
def lambdaName? : Expr → Option String
  | .lambda name _ => some name
  | _ => none

/-- Some name is the variable of none of the given expressions. -/
theorem exists_fresh (parts : List (Expr ⊕ ω)) :
    ∃ name, ∀ e, .inl e ∈ parts → lambdaName? e ≠ some name := by
  obtain ⟨name, hname⟩ := Infinite.exists_notMem_finset
    (parts.filterMap fun p => p.getLeft?.bind lambdaName?).toFinset
  exact ⟨name, fun e he h => hname (List.mem_toFinset.2 (List.mem_filterMap.2 ⟨_, he, h⟩))⟩

/-- The operators among some parts can be numbered. -/
theorem exists_number (parts : List (Expr ⊕ ω)) :
    ∃ number : ω → Nat, ∀ op op', .inr op ∈ parts → number op = number op' → op = op' := by
  classical
  refine ⟨(parts.filterMap Sum.getRight?).idxOf, fun op op' hop h => ?_⟩
  have hmem : op ∈ parts.filterMap Sum.getRight? := List.mem_filterMap.2 ⟨_, hop, rfl⟩
  exact (List.idxOf_inj hmem).1 h

/-- For any parts there are nodes that show what they are built from. -/
theorem exists_tells (parts : List (Expr ⊕ ω)) : ∃ build, Tells build parts := by
  obtain ⟨name, hname⟩ := exists_fresh parts
  obtain ⟨number, hnumber⟩ := exists_number parts
  refine ⟨labelled name number, ?_, ?_⟩
  · rintro _ he op left right rfl
    exact hname _ he rfl
  · intro op op' hop left right left' right' h
    obtain ⟨hop', hargs⟩ := labelled_inj.1 h
    exact ⟨hnumber op op' hop hop', hargs⟩

/-- By nodes that show what they are built from, the result shows the assembly. -/
theorem Tells.eq_of_result {build : ω → Expr → Expr → Expr} {parts : List (Expr ⊕ ω)}
    (h : Tells build parts) {t u : Assembly ω} (ht : t.listing ⊆ parts) (hu : u.listing ⊆ parts)
    (hresult : t.result build = u.result build) : t = u := by
  -- No node is a given expression, so the two assemblies are of one kind at every place.
  induction t generalizing u with
  | given e =>
    cases u with
    | given e' => exact congrArg given hresult
    | built op left right => exact (h.fresh e (ht (by simp [listing])) _ _ _ hresult.symm).elim
  | built op left right ihleft ihright =>
    cases u with
    | given e => exact (h.fresh e (hu (by simp [listing])) _ _ _ hresult).elim
    | built op' left' right' =>
      simp only [listing, List.append_subset, List.cons_subset] at ht hu
      obtain ⟨rfl, hl, hr⟩ := h.injective op op' ht.2.1 _ _ _ _ hresult
      rw [ihleft ht.1 hu.1 hl, ihright ht.2.2 hu.2.2 hr]

/-- **What comes out for every way to build nodes determines the assembly.** -/
theorem eq_of_result {t u : Assembly ω} (h : ∀ build, t.result build = u.result build) : t = u := by
  obtain ⟨build, hbuild⟩ := exists_tells (t.listing ++ u.listing)
  exact hbuild.eq_of_result (List.subset_append_left ..) (List.subset_append_right ..) (h build)

end Assembly

/-! ## Chains -/

/-- A nesting to the right has an assembly, with everything in order. -/
theorem exists_assembly (first : Expr) (links : List (ω × Expr)) :
    ∃ t : Assembly ω, (∀ build, t.result build = nestRight build first links) ∧
      t.listing = .inl first :: links.flatMap (fun l => [.inr l.1, .inl l.2]) ∧
      t.lefts = (first :: links.map Prod.snd).dropLast.map .given := by
  induction links generalizing first with
  | nil => exact ⟨.given first, fun _ => rfl, rfl, rfl⟩
  | cons l r ih =>
    obtain ⟨t, hresult, hlisting, hlefts⟩ := ih l.2
    refine ⟨.built l.1 (.given first) t, fun build => ?_, ?_, ?_⟩
    · rw [Assembly.result, Assembly.result, hresult, nestRight]
    · simp [Assembly.listing, hlisting]
    · simp [Assembly.lefts, hlefts]

/-- **A chain keeps its operands and operators in order.**  It is the nesting to the right of its
first operand and its links, however nodes are built.  There is exactly one assembly of which it is
the result for all ways to build nodes.  In that assembly the operands and the operators stand in
the order of the chain, and the left children of the nodes are all operands but the last, as they
were given. -/
theorem chain_in_order (first : Expr) (links : List (ω × Expr)) :
    (∀ build, chain build first links = nestRight build first links) ∧
    ∃ t : Assembly ω,
      (∀ u : Assembly ω, (∀ build, u.result build = chain build first links) ↔ u = t) ∧
      t.listing = .inl first :: links.flatMap (fun l => [.inr l.1, .inl l.2]) ∧
      t.lefts = (first :: links.map Prod.snd).dropLast.map .given := by
  have hchain (build) := chain_eq_nestRight build first links
  obtain ⟨t, hresult, hlisting, hlefts⟩ := exists_assembly first links
  refine ⟨hchain, t, fun u => ⟨fun hu => ?_, ?_⟩, hlisting, hlefts⟩
  · refine Assembly.eq_of_result fun build => ?_
    rw [hu, hchain, hresult]
  · rintro rfl build
    rw [hresult, hchain]

/-- An operand that is a sum itself is one operand of the chain. -/
example (a b c d : Expr) :
    chain .math a [(.sub, .math .add b c), (.add, d)] =
      .math .sub a (.math .add (.math .add b c) d) := rfl

end OData.Expr
