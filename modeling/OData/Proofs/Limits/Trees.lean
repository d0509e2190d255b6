import OData.Proofs.Grammar.Chain
import OData.Query

/-!
# Trees within the limits

How the two limits bound the trees that are read.  A tree is read in some number of
brackets and with some number of operators counted, and what stands in it is read in more
brackets and with more operators.  `Within` says which trees there is room for: calls,
casts and everything else in brackets are one bracket deeper, and what is to the right of
an operator has that operator counted.  What is to the left of it has not, since it was
read before; and so has either side of a comparison.

Brackets are not in the tree, so that a tree may have been read in fewer than it has room
for, and never in more.
-/
namespace OData
open Grammar

/-! ## Expressions -/

/-- **There is room for a tree at a tier**, in `d` brackets and with `o` operators counted. -/
inductive Expr.Within (settings : Settings) : Tier → Nat → Nat → Expr → Prop
  /-- What there is room for at a tier there is room for at every looser one. -/
  | loosen {t : Tier} {d o : Nat} {e : Expr} :
      t ≠ .atom → Within settings t.tighter d o e → Within settings t d o e
  /-- A connective is counted while its right side is read. -/
  | logical {d o : Nat} {x y : Expr} (op : LogicalOp) :
      o < settings.maxOperatorDepth → Within settings op.tier.tighter d o x →
      Within settings op.tier d (o + 1) y → Within settings op.tier d o (.logical op x y)
  /-- So is an arithmetic operator. -/
  | math {d o : Nat} {x y : Expr} (op : MathOp) :
      o < settings.maxOperatorDepth → Within settings op.tier.tighter d o x →
      Within settings op.tier d (o + 1) y → Within settings op.tier d o (.math op x y)
  /-- A comparison is not. -/
  | comparison {d o : Nat} {x y : Expr} (op : ComparisonOp) :
      Within settings .sum d o x → Within settings .sum d o y →
      Within settings .comparison d o (.comparison op x y)
  /-- Parentheses are a bracket. -/
  | group {d o : Nat} {e : Expr} :
      d < settings.maxDepth → Within settings .disjunction (d + 1) o e →
      Within settings .atom d o e
  | literal {d o : Nat} (l : Literal) : Within settings .atom d o (.literal l)
  | now {d o : Nat} (unit : Option TimeUnit) : Within settings .atom d o (.now unit)
  | property {d o : Nat} (p : Property) : Within settings .atom d o (.property p)
  /-- A cast is a bracket. -/
  | cast {d o : Nat} (l : Literal) (type : EdmType) :
      d < settings.maxDepth → Within settings .atom d o (.cast l type)
  /-- A call is a bracket. -/
  | call {d o : Nat} {args : List Expr} (f : Builtin) :
      d < settings.maxDepth → (∀ a ∈ args, Within settings .sum (d + 1) o a) →
      Within settings .atom d o (.call f args)
  /-- A lambda is in the bracket of its call. -/
  | quantified {d o : Nat} {body : Expr} (f : Builtin) (p : Property) (param : String) :
      d < settings.maxDepth → Within settings .disjunction (d + 1) o body →
      Within settings .atom d o (.call f [.property p, .lambda param body])

namespace Expr.Within
variable {settings : Settings} {t : Tier} {d o : Nat} {e : Expr}

/-- There is room for an atom at every tier. -/
theorem of_atom (h : Within settings .atom d o e) : ∀ t, Within settings t d o e
  | .atom => h
  | .product => .loosen nofun h
  | .sum => .loosen nofun (.loosen nofun h)
  | .comparison => .loosen nofun (.loosen nofun (.loosen nofun h))
  | .conjunction => .loosen nofun (.loosen nofun (.loosen nofun (.loosen nofun h)))
  | .disjunction =>
    .loosen nofun (.loosen nofun (.loosen nofun (.loosen nofun (.loosen nofun h))))

/-- There is more room with fewer operators counted. -/
theorem of_fewer (h : Within settings t d o e) {o' : Nat} (ho : o' ≤ o) :
    Within settings t d o' e := by
  induction h generalizing o' with
  | loosen ht _ ih => exact .loosen ht (ih ho)
  | logical op hlt _ _ ihx ihy =>
    exact .logical op (Nat.lt_of_le_of_lt ho hlt) (ihx ho) (ihy (Nat.succ_le_succ ho))
  | math op hlt _ _ ihx ihy =>
    exact .math op (Nat.lt_of_le_of_lt ho hlt) (ihx ho) (ihy (Nat.succ_le_succ ho))
  | comparison op _ _ ihx ihy => exact .comparison op (ihx ho) (ihy ho)
  | group hd _ ih => exact .group hd (ih ho)
  | literal l => exact .literal l
  | now unit => exact .now unit
  | property p => exact .property p
  | cast l type hd => exact .cast l type hd
  | call f hd _ ih => exact .call f hd fun a ha => ih a ha ho
  | quantified f p param hd _ ih => exact .quantified f p param hd (ih ho)

end Expr.Within

/-! ## Chains -/

namespace Grammar
variable {ω : Type} {settings : Settings} {t : Tier} {tier : ω → Tier} {d o : Nat}

/-- There is room for the links of a chain: operators of the tier, each counted besides
those before it, and operands. -/
def LinksWithin (settings : Settings) (t : Tier) (tier : ω → Tier) (d : Nat) :
    Nat → List (ω × Expr) → Prop
  | _, [] => True
  | o, (op, e) :: links => o < settings.maxOperatorDepth ∧ tier op = t ∧
      e.Within settings t.tighter d (o + 1) ∧ LinksWithin settings t tier d (o + 1) links

/-- There is room for a chain if there is for its first operand and its links. -/
theorem within_chain {build : ω → Expr → Expr → Expr} (ht : t ≠ .atom)
    (hbuild : ∀ {o : Nat} {op : ω} {x y : Expr}, tier op = t → o < settings.maxOperatorDepth →
      x.Within settings t.tighter d o → y.Within settings t d (o + 1) →
      (build op x y).Within settings t d o)
    {first : Expr} {links : List (ω × Expr)} (hfirst : first.Within settings t.tighter d o)
    (h : LinksWithin settings t tier d o links) :
    (Expr.chain build first links).Within settings t d o := by
  induction links generalizing first o with
  | nil => exact .loosen ht hfirst
  | cons link links ih =>
    obtain ⟨op, e⟩ := link
    obtain ⟨ho, hop, he, hlinks⟩ := h
    rw [Expr.chain_cons]
    exact hbuild hop ho hfirst (ih he hlinks)

end Grammar

/-! ## Stages and queries -/

/-- **There is room for an argument of a stage** in `d` brackets.  An identity stage has no
bracket, all others have one. -/
inductive StageArg.Within (settings : Settings) : Nat → StageArg → Prop
  | expr {d : Nat} {e : Expr} :
      e.Within settings .disjunction d 0 → Within settings d (.expr e)
  | named {d : Nat} {e : Expr} (name : String) :
      e.Within settings .disjunction d 0 → Within settings d (.named name (.expr e))
  | aggregate {d : Nat} (name : String) (a : Aggregate) :
      Within settings d (.named name (.aggregate a))
  | identity {d : Nat} : Within settings d (.stage .identity [])
  | stage {d : Nat} {args : List StageArg} (kind : StageKind) :
      d < settings.maxDepth → (∀ a ∈ args, Within settings (d + 1) a) →
      Within settings d (.stage kind args)

/-- **There is room for a query** in `d` brackets.  The options of an expand item are in one
bracket more; if there are none then there need not be a bracket. -/
inductive Query.Within (settings : Settings) : Nat → Query → Prop
  | mk {d : Nat} {q : Query} :
      (∀ e, q.filter = some e → e.Within settings .disjunction d 0) →
      (∀ stages, q.apply = some stages → ∀ t ∈ stages, t.toArg.Within settings d) →
      (∀ items, q.expand = some items → ∀ i ∈ items,
        i.options ≠ Query.empty → d < settings.maxDepth) →
      (∀ items, q.expand = some items → ∀ i ∈ items, Within settings (d + 1) i.options) →
      Within settings d q

/-- Room is needed for three options only. -/
theorem Query.Within.of_flat {settings : Settings} {d : Nat} {q : Query} (hfilter : q.filter = none)
    (happly : q.apply = none) (hexpand : q.expand = none) : q.Within settings d := by
  refine .mk ?_ ?_ ?_ ?_
  · rw [hfilter]
    nofun
  · rw [happly]
    nofun
  · rw [hexpand]
    nofun
  · rw [hexpand]
    nofun

/-- There is always room for nothing. -/
theorem Query.Within.empty (settings : Settings) (d : Nat) : Query.empty.Within settings d :=
  .of_flat rfl rfl rfl

/-- **Setting an option** takes no more room than the query and the option by themselves. -/
theorem Query.Within.assign {settings : Settings} {d : Nat} {q : Query} {v : OptionValue}
    (h : q.Within settings d) (hv : (Query.empty.assign v).Within settings d) :
    (q.assign v).Within settings d := by
  obtain ⟨hfilter, happly, hroom, hnested⟩ := h
  obtain ⟨hfilter', happly', hroom', hnested'⟩ := hv
  cases v with
  | filter => exact .mk hfilter' happly hroom hnested
  | apply => exact .mk hfilter happly' hroom hnested
  | expand => exact .mk hfilter happly hroom' hnested'
  | _ => exact .mk hfilter happly hroom hnested

end OData
