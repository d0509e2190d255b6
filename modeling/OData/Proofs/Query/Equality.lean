import Mathlib.Data.List.Basic
import OData.Query.Verdict

/-!
# Deciding whether queries are equal

Two trees are equal just if they have the same constructor and equal parts, member by member
where a part is a list of trees (`Expr.same_iff`, `StageArg.same_iff`, `Query.same_iff`).  So
equality of queries is decidable, and with it what a given text is read as: to read the text
decides it.

The tests give a truth value, and that it is the right one is proved apart from them.  A test that
gave a proof would have to tell all pairs of different constructors apart one by one; here they are
one case.
-/
namespace OData

/-! ## Expressions -/

namespace Expr

mutual

/-- Two expressions have the same constructor and equal parts. -/
def same : Expr → Expr → Bool
  | .property p, .property q => p == q
  | .literal v, .literal w => v == w
  | .now u, .now v => u == v
  | .cast v t, .cast w u => v == w && t == u
  | .call f as, .call g bs => f == g && sameAll as bs
  | .lambda p a, .lambda q b => p == q && same a b
  | .math o l r, .math p m s => o == p && same l m && same r s
  | .comparison o l r, .comparison p m s => o == p && same l m && same r s
  | .logical o l r, .logical p m s => o == p && same l m && same r s
  | _, _ => false

/-- Two lists have equal expressions in the same order. -/
def sameAll : List Expr → List Expr → Bool
  | [], [] => true
  | a :: as, b :: bs => same a b && sameAll as bs
  | _, _ => false

end

mutual

/-- Expressions are equal just if they have the same constructor and equal parts. -/
theorem same_iff : ∀ a b : Expr, same a b = true ↔ a = b
  | .property _, b | .literal _, b | .now _, b | .cast _ _, b => by cases b <;> simp [same]
  | .call f as, b => by cases b <;> simp [same, sameAll_iff as]
  | .lambda p a, b => by cases b <;> simp [same, same_iff a]
  | .math o l r, b | .comparison o l r, b | .logical o l r, b => by
    cases b <;> simp [same, same_iff l, same_iff r, and_assoc]

theorem sameAll_iff : ∀ as bs : List Expr, sameAll as bs = true ↔ as = bs
  | [], bs => by cases bs <;> simp [sameAll]
  | a :: as, bs => by cases bs <;> simp [sameAll, same_iff a, sameAll_iff as]

end

instance : DecidableEq Expr := fun a b => decidable_of_iff _ (same_iff a b)

end Expr

/-! ## Pipelines -/

deriving instance DecidableEq for NamedValue

namespace StageArg

mutual

/-- Two arguments of stages have the same constructor and equal parts. -/
def same : StageArg → StageArg → Bool
  | .expr a, .expr b => a == b
  | .named n v, .named m w => n == m && v == w
  | .stage k as, .stage l bs => k == l && sameAll as bs
  | _, _ => false

/-- Two lists have equal arguments in the same order. -/
def sameAll : List StageArg → List StageArg → Bool
  | [], [] => true
  | a :: as, b :: bs => same a b && sameAll as bs
  | _, _ => false

end

mutual

/-- Arguments of stages are equal just if they have the same constructor and equal parts. -/
theorem same_iff : ∀ a b : StageArg, same a b = true ↔ a = b
  | .expr _, b | .named _ _, b => by cases b <;> simp [same]
  | .stage _ as, b => by cases b <;> simp [same, sameAll_iff as]

theorem sameAll_iff : ∀ as bs : List StageArg, sameAll as bs = true ↔ as = bs
  | [], bs => by cases bs <;> simp [sameAll]
  | a :: as, bs => by cases bs <;> simp [sameAll, same_iff a, sameAll_iff as]

end

instance : DecidableEq StageArg := fun a b => decidable_of_iff _ (same_iff a b)

end StageArg

deriving instance DecidableEq for Transformation

/-! ## Queries -/

/-- Two queries ask for the same, as far as they do not expand. -/
def Query.sameBeside (q r : Query) : Bool :=
  q.path == r.path && q.select == r.select && q.filter == r.filter && q.orderBy == r.orderBy &&
    q.callback == r.callback && q.format == r.format && q.search == r.search &&
    q.count == r.count && q.skip == r.skip && q.top == r.top && q.apply == r.apply

mutual

/-- Two queries ask for the same. -/
def Query.same : Query → Query → Bool
  | q@⟨_, _, expand, _, _, _, _, _, _, _, _, _⟩, r =>
    q.sameBeside r && ExpandItem.sameOption expand r.expand

/-- Two expand items have the same path and the same options. -/
def ExpandItem.same : ExpandItem → ExpandItem → Bool
  | ⟨path, options⟩, j => path == j.path && Query.same options j.options

/-- Two lists have the same expand items in the same order. -/
def ExpandItem.sameAll : List ExpandItem → List ExpandItem → Bool
  | [], [] => true
  | i :: is, j :: js => ExpandItem.same i j && ExpandItem.sameAll is js
  | _, _ => false

/-- Two lists that need not be there are there both or neither, with the same expand items. -/
def ExpandItem.sameOption : Option (List ExpandItem) → Option (List ExpandItem) → Bool
  | none, none => true
  | some is, some js => ExpandItem.sameAll is js
  | _, _ => false

end

mutual

/-- **Queries are equal just if they ask for the same.** -/
theorem Query.same_iff : ∀ q r : Query, Query.same q r = true ↔ q = r
  | ⟨_, _, expand, _, _, _, _, _, _, _, _, _⟩, ⟨_, _, _, _, _, _, _, _, _, _, _, _⟩ => by
    simp only [Query.same, Query.sameBeside, ExpandItem.sameOption_iff expand, Bool.and_eq_true,
      beq_iff_eq, Query.mk.injEq]
    grind

/-- Expand items are equal just if their paths and their options are. -/
theorem ExpandItem.same_iff : ∀ i j : ExpandItem, ExpandItem.same i j = true ↔ i = j
  | ⟨_, options⟩, ⟨_, _⟩ => by simp [ExpandItem.same, Query.same_iff options]

theorem ExpandItem.sameAll_iff :
    ∀ is js : List ExpandItem, ExpandItem.sameAll is js = true ↔ is = js
  | [], js => by cases js <;> simp [ExpandItem.sameAll]
  | i :: is, js => by
    cases js <;> simp [ExpandItem.sameAll, ExpandItem.same_iff i, ExpandItem.sameAll_iff is]

theorem ExpandItem.sameOption_iff :
    ∀ is js : Option (List ExpandItem), ExpandItem.sameOption is js = true ↔ is = js
  | none, js => by cases js <;> simp [ExpandItem.sameOption]
  | some is, js => by cases js <;> simp [ExpandItem.sameOption, ExpandItem.sameAll_iff is]

end

instance : DecidableEq Query := fun q r => decidable_of_iff _ (Query.same_iff q r)

instance : DecidableEq ExpandItem := fun i j => decidable_of_iff _ (ExpandItem.same_iff i j)

deriving instance DecidableEq for OptionValue, Verdict

end OData
