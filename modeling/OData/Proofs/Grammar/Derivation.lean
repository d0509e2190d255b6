import OData.Expr
import OData.Literal.Temporal
import OData.Settings
import OData.Text.Numeral
import OData.Token

/-!
# The grammar of expressions

What an expression is, said without a parser: `Derives settings t w e` states that
the tokens `w` are a way to write the tree `e` at the tier `t`.  The rules look at
no token ahead and make no choice; which of them apply is settled by the tokens
alone.

The **tiers** are the levels of precedence, from `or` down to the atoms.  Chains of
one operator tier nest to the right, a comparison has exactly two operands, and
everything in brackets starts a tier anew: parentheses and lambdas the loosest, the
arguments of calls and casts that of sums.  Operands of `and` and `or` and bodies of
lambdas are conditions.

Lists with separators (`Followed`, `Separated`) are rules over any other rule, so
they serve the flat grammars and the pipelines too.
-/
namespace OData.Grammar
variable {α : Type}

/-! ## Lists -/

/-- **Items each of which has a separator in front of it.** -/
inductive Followed (sep : Kind) (D : List Token → α → Prop) : List Token → List α → Prop
  | nil : Followed sep D [] []
  | cons {v w : List Token} {a : α} {as : List α} (p : Span) :
      D v a → Followed sep D w as → Followed sep D (⟨sep, p⟩ :: (v ++ w)) (a :: as)

/-- **Items with a separator between each two of them**, at least one. -/
inductive Separated (sep : Kind) (D : List Token → α → Prop) : List Token → List α → Prop
  | mk {v w : List Token} {a : α} {as : List α} :
      D v a → Followed sep D w as → Separated sep D (v ++ w) (a :: as)

/-- The items of a list are no longer than the list. -/
theorem Followed.bounded {sep : Kind} {D : List Token → α → Prop} {w : List Token}
    {as : List α} (h : Followed sep D w as) {n : Nat} (hn : w.length < n) :
    Followed sep (fun w a => w.length < n ∧ D w a) w as := by
  induction h with
  | nil => exact .nil
  | cons p hD _ ih =>
    simp only [List.length_cons, List.length_append] at hn
    exact .cons p ⟨by omega, hD⟩ (ih (by omega))

theorem Separated.bounded {sep : Kind} {D : List Token → α → Prop} {w : List Token}
    {as : List α} (h : Separated sep D w as) {n : Nat} (hn : w.length < n) :
    Separated sep (fun w a => w.length < n ∧ D w a) w as := by
  obtain ⟨hD, hF⟩ := h
  rw [List.length_append] at hn
  exact .mk ⟨by omega, hD⟩ (hF.bounded (by omega))

theorem Followed.map {β : Type} {sep : Kind} {D : List Token → β → Prop} (f : α → β)
    {w : List Token} {as : List α} (h : Followed sep (fun w a => D w (f a)) w as) :
    Followed sep D w (as.map f) := by
  induction h with
  | nil => exact .nil
  | cons p hD _ ih => exact .cons p hD ih

/-- A list of items that come from others is such a list of those. -/
theorem Followed.exists_map {β : Type} {sep : Kind} {D : List Token → α → Prop}
    {E : List Token → β → Prop} {f : β → α} {w : List Token} {as : List α}
    (h : Followed sep D w as) (hf : ∀ w a, D w a → ∃ b, f b = a ∧ E w b) :
    ∃ bs, bs.map f = as ∧ Followed sep E w bs := by
  induction h with
  | nil => exact ⟨[], rfl, .nil⟩
  | cons p hD _ ih =>
    obtain ⟨b, rfl, hE⟩ := hf _ _ hD
    obtain ⟨bs, rfl, hF⟩ := ih
    exact ⟨b :: bs, rfl, .cons p hE hF⟩

/-! ## Names -/

/-- **A name**: any word. -/
inductive IsName : List Token → String → Prop
  | mk (w : String) (p : Span) : IsName [⟨.word w, p⟩] w

/-- **A segment of a path**: a word that is no operator. -/
inductive IsSegment : List Token → String → Prop
  | mk {w : String} (p : Span) : isOperatorWord w = false → IsSegment [⟨.word w, p⟩] w

/-- **A path**, by its segments, with a slash between each two. -/
abbrev IsPath : List Token → List String → Prop := Separated .slash IsSegment

/-- **The unit of time that is asked of what stands before**, if one is. -/
inductive IsUnit : List Token → Option TimeUnit → Prop
  | none : IsUnit [] none
  | some (unit : TimeUnit) (p q r s : Span) :
      IsUnit [⟨.dot, p⟩, ⟨.word unit.word, q⟩, ⟨.leftParen, r⟩, ⟨.rightParen, s⟩] (some unit)

/-- **The name of a type**, words with a dot between each two. -/
inductive IsType : List Token → EdmType → Prop
  | mk {w : List Token} {names : List String} {type : EdmType} :
      Separated .dot IsName w names → ".".intercalate names = type.word → IsType w type

/-! ## Literals -/

/-- **A literal.**  A null takes the string that begins where it ends. -/
inductive IsLiteral (settings : Settings) : List Token → Literal → Prop
  | null (p : Span) : IsLiteral settings [⟨.word "null", p⟩] (.null none)
  | typedNull {p q : Span} (hint : String) :
      q.start = p.stop →
      IsLiteral settings [⟨.word "null", p⟩, ⟨.string hint, q⟩] (.null (some hint))
  | yes (p : Span) : IsLiteral settings [⟨.word "true", p⟩] (.boolean true)
  | no (p : Span) : IsLiteral settings [⟨.word "false", p⟩] (.boolean false)
  | nan (p : Span) : IsLiteral settings [⟨.word "NaN", p⟩] (.nonFinite .nan)
  | infinity (p : Span) : IsLiteral settings [⟨.word "INF", p⟩] (.nonFinite .infinity)
  | negativeInfinity (p : Span) :
      IsLiteral settings [⟨.negativeInfinity, p⟩] (.nonFinite .negativeInfinity)
  | string (text : String) (p : Span) :
      IsLiteral settings [⟨.string text, p⟩] (Literal.ofQuoted text)
  | integer {text : String} {v : Int} (p : Span) :
      Text.Numeral.signed? text.toList = some v →
      IsLiteral settings [⟨.integer text, p⟩] (.integer v)
  | decimal (text : String) (p : Span) : IsLiteral settings [⟨.decimal text, p⟩] (.decimal text)
  | double (text : String) (p : Span) : IsLiteral settings [⟨.double text, p⟩] (.double text)
  | parameter {name : String} (p : Span) :
      settings.knows name = true →
      IsLiteral settings [⟨.parameter name, p⟩] (.parameter name)

/-- The words that are no property where an expression may begin, because they are
literals. -/
def reservedWords : List String := ["true", "false", "null", "NaN", "INF"]

/-! ## Expressions -/

/-- **The tiers of precedence**, from the loosest to the tightest. -/
inductive Tier where
  | disjunction | conjunction | comparison | sum | product | atom
  deriving DecidableEq, Repr

/-- The tier below one: that of the operands of its operators. -/
def Tier.tighter : Tier → Tier
  | .disjunction => .conjunction
  | .conjunction => .comparison
  | .comparison => .sum
  | .sum => .product
  | .product | .atom => .atom

/-- The place of a tier, counted from the loosest. -/
def Tier.rank : Tier → Nat
  | .disjunction => 0
  | .conjunction => 1
  | .comparison => 2
  | .sum => 3
  | .product => 4
  | .atom => 5

end Grammar

/-- The kinds of stages whose arguments are a list of stages and values. -/
def StageKind.isPlain : StageKind → Bool
  | .identity | .filter | .expand => false
  | _ => true

open Grammar in
/-- The tier that a connective belongs to. -/
def LogicalOp.tier : LogicalOp → Tier
  | .or => .disjunction
  | .and => .conjunction

open Grammar in
/-- The tier that an arithmetic operator belongs to. -/
def MathOp.tier (op : MathOp) : Tier := if op.isMultiplicative then .product else .sum

namespace Grammar

/-- **The tokens are a way to write the tree at a tier.** -/
inductive Derives (settings : Settings) : Tier → List Token → Expr → Prop
  /-- What can stand at a tier can stand at every looser one. -/
  | loosen {t : Tier} {w : List Token} {e : Expr} :
      t ≠ .atom → Derives settings t.tighter w e → Derives settings t w e
  /-- A connective of two conditions; on its right its own tier goes on. -/
  | logical {v w : List Token} {x y : Expr} (op : LogicalOp) (p : Span) :
      Derives settings op.tier.tighter v x → x.isBoolean = true →
      Derives settings op.tier w y → y.isBoolean = true →
      Derives settings op.tier (v ++ ⟨.word op.word, p⟩ :: w) (.logical op x y)
  /-- A comparison of two sums. -/
  | comparison {v w : List Token} {x y : Expr} (op : ComparisonOp) (p : Span) :
      Derives settings .sum v x → Derives settings .sum w y →
      Derives settings .comparison (v ++ ⟨.word op.word, p⟩ :: w) (.comparison op x y)
  /-- Arithmetic; on its right its own tier goes on. -/
  | math {v w : List Token} {x y : Expr} (op : MathOp) (p : Span) :
      Derives settings op.tier.tighter v x → Derives settings op.tier w y →
      Derives settings op.tier (v ++ ⟨.word op.word, p⟩ :: w) (.math op x y)
  /-- Any expression in parentheses. -/
  | group {w : List Token} {e : Expr} (p q : Span) :
      Derives settings .disjunction w e →
      Derives settings .atom (⟨.leftParen, p⟩ :: (w ++ [⟨.rightParen, q⟩])) e
  | literal {w : List Token} {l : Literal} :
      IsLiteral settings w l → Derives settings .atom w (.literal l)
  /-- The present instant, or a unit of it. -/
  | now {w : List Token} {unit : Option TimeUnit} (p q r : Span) :
      IsUnit w unit →
      Derives settings .atom
        (⟨.word "now", p⟩ :: ⟨.leftParen, q⟩ :: ⟨.rightParen, r⟩ :: w) (.now unit)
  /-- A cast of whatever is written as a sum and is a literal. -/
  | cast {v w : List Token} {l : Literal} {type : EdmType} (p q r s : Span) :
      Derives settings .sum v (.literal l) → IsType w type →
      Derives settings .atom
        (⟨.word "cast", p⟩ :: ⟨.leftParen, q⟩ :: (v ++ ⟨.comma, r⟩ :: (w ++ [⟨.rightParen, s⟩])))
        (.cast l type)
  /-- A call without arguments. -/
  | callNone (f : Builtin) (p q r : Span) :
      f.isCollection = false → f.arity.allows 0 = true →
      Derives settings .atom [⟨.word f.word, p⟩, ⟨.leftParen, q⟩, ⟨.rightParen, r⟩] (.call f [])
  /-- A call with as many arguments, each a sum, as the function takes. -/
  | call {w : List Token} {args : List Expr} (f : Builtin) (p q r : Span) :
      f.isCollection = false → Separated .comma (Derives settings .sum) w args →
      f.arity.allows args.length = true →
      Derives settings .atom
        (⟨.word f.word, p⟩ :: ⟨.leftParen, q⟩ :: (w ++ [⟨.rightParen, r⟩])) (.call f args)
  /-- A property, or a unit of it. -/
  | property {v w : List Token} {name : String} {names : List String} {unit : Option TimeUnit} :
      IsPath v (name :: names) → name ∉ reservedWords → IsUnit w unit →
      Derives settings .atom (v ++ w) (.property ⟨"/".intercalate (name :: names), unit⟩)
  /-- The question whether a collection has elements. -/
  | anyAtAll {v : List Token} {name : String} {names : List String} (p q r s : Span) :
      IsPath v (name :: names) → name ∉ reservedWords →
      Derives settings .atom
        (v ++ [⟨.slash, p⟩, ⟨.word Builtin.any.word, q⟩, ⟨.leftParen, r⟩, ⟨.rightParen, s⟩])
        (.call .any [.property (Property.ofName ("/".intercalate (name :: names)))])
  /-- A condition on some or all elements of a collection. -/
  | quantified {v w : List Token} {name : String} {names : List String} {param : String}
      {body : Expr} (f : Builtin) (p q r s t u : Span) :
      IsPath v (name :: names) → name ∉ reservedWords → f.isCollection = true →
      isOperatorWord param = false → Derives settings .disjunction w body →
      body.isBoolean = true →
      Derives settings .atom
        (v ++ ⟨.slash, p⟩ :: ⟨.word f.word, q⟩ :: ⟨.leftParen, r⟩ :: ⟨.word param, s⟩ ::
          ⟨.colon, t⟩ :: (w ++ [⟨.rightParen, u⟩]))
        (.call f
          [.property (Property.ofName ("/".intercalate (name :: names))), .lambda param body])

end Grammar

end OData
