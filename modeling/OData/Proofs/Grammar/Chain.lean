import OData.Grammar.Expression
import OData.Proofs.Grammar.Derivation

/-!
# Chains

The rules for operators nest to the right, two operands at a time, while a chain is
read flat: a first operand, and links of an operator and the operand after it.
`Linked` is the flat view of the tokens of a chain, and the two views agree:
what is derived at an operator tier is a chain of what is derived one tier below
(`Derives.of_math_links` and `Derives.exists_math_links`, and the same for connectives).

They agree because the tree of a chain, which is built from its end, obeys the
equation of a nesting to the right (`Expr.chain_cons`).
-/
namespace OData

/-! ## The tree of a chain -/

namespace Expr
variable {ω : Type} (build : ω → Expr → Expr → Expr)

/-- The leftmost link is the last that is joined. -/
theorem joinLeft_append (first e : Expr) (op : ω) :
    ∀ (op' : ω) (built : Expr) (links : List (ω × Expr)),
      joinLeft build first op' built (links ++ [(op, e)]) =
        build op first (joinLeft build e op' built links)
  | _, _, [] => rfl
  | op', built, (op'', e') :: r => joinLeft_append first e op op'' (build op' e' built) r

@[simp] theorem chain_nil (first : Expr) : chain build first [] = first := rfl

/-- **A chain nests to the right**: what follows its first operator is a chain again. -/
theorem chain_cons (first : Expr) (op : ω) (e : Expr) (links : List (ω × Expr)) :
    chain build first ((op, e) :: links) = build op first (chain build e links) := by
  unfold chain
  rw [List.reverse_cons]
  cases links.reverse with
  | nil => rfl
  | cons l r => exact joinLeft_append build first e op l.1 l.2 r

end Expr

namespace Grammar

/-- The tier of a level that a bracket leads back to. -/
def Level.tier : Level → Tier
  | .whole => .disjunction
  | .sum => .sum

/-- A word is reserved if it is a literal by itself. -/
theorem mem_reservedWords {w : String} : w ∈ reservedWords ↔ isLiteralWord w = true := by
  unfold isLiteralWord wordLiteral?
  constructor
  · intro h
    simp only [reservedWords, List.mem_cons, List.not_mem_nil, or_false] at h
    rcases h with rfl | rfl | rfl | rfl | rfl <;> rfl
  · intro h
    split at h <;> simp_all [reservedWords]

/-! ## Links -/

/-- **The links of a chain**: operators, each with an operand after it. -/
inductive Linked {ω : Type} (operator? : String → Option ω) (D : List Token → Expr → Prop) :
    List Token → List (ω × Expr) → Prop
  | nil : Linked operator? D [] []
  | cons {v w : List Token} {e : Expr} {links : List (ω × Expr)} {word : String} {op : ω}
      (p : Span) :
      operator? word = some op → D v e → Linked operator? D w links →
      Linked operator? D (⟨.word word, p⟩ :: (v ++ w)) ((op, e) :: links)

theorem Linked.length_le {ω : Type} {operator? : String → Option ω}
    {D : List Token → Expr → Prop} {w : List Token} {links : List (ω × Expr)}
    (h : Linked operator? D w links) : links.length ≤ w.length := by
  induction h with
  | nil => exact Nat.le_refl _
  | cons p hop hD hw ih =>
    simp only [List.length_cons, List.length_append]
    omega

/-! ## Arithmetic -/

theorem additive?_eq_some_iff {w : String} {op : MathOp} :
    MathOp.additive? w = some op ↔ w = op.word ∧ op.tier = .sum := by
  rw [MathOp.additive?, Option.filter_eq_some_iff, Keyword.find?_eq_some_iff]
  cases op <;> simp [MathOp.tier, MathOp.isMultiplicative, Keyword.word]

theorem multiplicative?_eq_some_iff {w : String} {op : MathOp} :
    MathOp.multiplicative? w = some op ↔ w = op.word ∧ op.tier = .product := by
  rw [MathOp.multiplicative?, Option.filter_eq_some_iff, Keyword.find?_eq_some_iff]
  cases op <;> simp [MathOp.tier, MathOp.isMultiplicative, Keyword.word]

section Math
variable {settings : Settings} {t : Tier} {operator? : String → Option MathOp}

/-- A chain of arithmetic is derived at the tier of its operators. -/
theorem Derives.of_math_links (ht : t ≠ .atom)
    (hop : ∀ {w op}, operator? w = some op → w = op.word ∧ op.tier = t)
    {v u : List Token} {first : Expr} {links : List (MathOp × Expr)}
    (hv : Derives settings t.tighter v first)
    (hu : Linked operator? (Derives settings t.tighter) u links) :
    Derives settings t (v ++ u) (Expr.chain .math first links) := by
  induction hu generalizing v first with
  | nil => simpa using Derives.loosen ht hv
  | cons p ho hD _ ih =>
    obtain ⟨rfl, rfl⟩ := hop ho
    rw [Expr.chain_cons]
    exact .math _ p hv (ih hD)

/-- What is derived at a tier of arithmetic is a chain of what is derived below. -/
theorem Derives.exists_math_links (op₀ : MathOp)
    (hop : ∀ {op : MathOp}, op.tier = op₀.tier → operator? op.word = some op) :
    ∀ {t : Tier} {w : List Token} {e : Expr}, Derives settings t w e → t = op₀.tier →
      ∃ v u first links, w = v ++ u ∧ e = Expr.chain .math first links ∧
        Derives settings t.tighter v first ∧
        Linked operator? (Derives settings t.tighter) u links
  | _, w, e, .loosen _ h, _ => ⟨w, [], e, [], by simp, rfl, h, .nil⟩
  | _, _, _, .math op p hx hy, ht => by
    obtain ⟨v, u, first, links, rfl, rfl, hv, hu⟩ := exists_math_links op₀ hop hy ht
    exact ⟨_, _, _, _, rfl, (Expr.chain_cons ..).symm, hx, .cons p (hop ht) hv hu⟩
  | _, _, _, .logical op .., ht => by cases op <;> cases op₀ <;> cases ht
  | _, _, _, .comparison .., ht => by cases op₀ <;> cases ht
  | _, _, _, .group .., ht | _, _, _, .literal .., ht | _, _, _, .now .., ht
  | _, _, _, .cast .., ht | _, _, _, .callNone .., ht | _, _, _, .call .., ht
  | _, _, _, .property .., ht | _, _, _, .anyAtAll .., ht | _, _, _, .quantified .., ht => by
    cases op₀ <;> cases ht

end Math

/-! ## Connectives -/

theorem theConnective_eq_some_iff {op op' : LogicalOp} {w : String} :
    theConnective op w = some op' ↔ op' = op ∧ w = op.word := by
  unfold theConnective
  split <;> simp_all [eq_comm]

section Logical
variable {settings : Settings} {op : LogicalOp}

/-- A condition at a tier: a tree that is derived there and true or false by its form. -/
def DerivesCondition (settings : Settings) (t : Tier) (w : List Token) (e : Expr) : Prop :=
  Derives settings t w e ∧ e.isBoolean = true

/-- A chain of conditions is derived at the tier of its connective, and it is a condition. -/
theorem Derives.of_logical_links {v u : List Token} {first : Expr}
    {links : List (LogicalOp × Expr)} (hv : DerivesCondition settings op.tier.tighter v first)
    (hu : Linked (theConnective op) (DerivesCondition settings op.tier.tighter) u links) :
    DerivesCondition settings op.tier (v ++ u) (Expr.chain .logical first links) := by
  induction hu generalizing v first with
  | nil =>
    have ht : op.tier ≠ .atom := by cases op <;> decide
    exact ⟨by simpa using Derives.loosen ht hv.1, hv.2⟩
  | cons p ho hD _ ih =>
    obtain ⟨rfl, rfl⟩ := theConnective_eq_some_iff.1 ho
    obtain ⟨hr, hb⟩ := ih hD
    rw [Expr.chain_cons]
    exact ⟨.logical _ p hv.1 hv.2 hr hb, by simp [Expr.isBoolean, hv.2, hb]⟩

/-- What is derived at the tier of a connective is derived below, or it is a chain of at least
two conditions. -/
theorem Derives.exists_logical_links (op : LogicalOp) :
    ∀ {t : Tier} {w : List Token} {e : Expr}, Derives settings t w e → t = op.tier →
      ∃ v u first links, w = v ++ u ∧ e = Expr.chain .logical first links ∧
        Derives settings t.tighter v first ∧
        (links ≠ [] ∨ e.isBoolean = true → first.isBoolean = true) ∧
        Linked (theConnective op) (DerivesCondition settings t.tighter) u links
  | _, w, e, .loosen _ h, _ => ⟨w, [], e, [], by simp, rfl, h, by simp, .nil⟩
  | _, _, _, .logical op' p hx hbx hy hby, ht => by
    obtain ⟨v, u, first, links, rfl, rfl, hv, hb, hu⟩ := exists_logical_links op hy ht
    have ho : op' = op := by cases op <;> cases op' <;> first | rfl | cases ht
    exact ⟨_, _, _, _, rfl, (Expr.chain_cons ..).symm, hx, fun _ => hbx,
      .cons p (theConnective_eq_some_iff.2 ⟨ho, ho ▸ rfl⟩) ⟨hv, hb (.inr hby)⟩ hu⟩
  | _, _, _, .math op' .., ht => by cases op <;> cases op' <;> cases ht
  | _, _, _, .comparison .., ht => by cases op <;> cases ht
  | _, _, _, .group .., ht | _, _, _, .literal .., ht | _, _, _, .now .., ht
  | _, _, _, .cast .., ht | _, _, _, .callNone .., ht | _, _, _, .call .., ht
  | _, _, _, .property .., ht | _, _, _, .anyAtAll .., ht | _, _, _, .quantified .., ht => by
    cases op <;> cases ht

end Logical

end Grammar

end OData
