import OData.Proofs.Limits.Operators

/-!
# How deep a query can be

The limits are there so that whatever walks over a query can be recursive.  They keep what
they promise: on no way down a query that is parsed are there more brackets than the limit on
depth allows, where the options of an expand item, a stage, a call and a cast are brackets;
and the height of an expression is at most linear in both limits (`parse_bounded`).

The height is not bounded by the brackets alone, for a chain of operators needs none, and not
by brackets and counted operators, since those that have a node in their left operand are not
counted.  But going to the left leads to a tighter tier, and there are only so many of them.
-/
namespace OData
open Grammar Options

/-! ## Ways down a query -/

/-- **A node of a query.** -/
inductive QueryNode where
  | query (q : Query)
  | item (item : ExpandItem)
  | arg (arg : StageArg)
  | expr (e : Expr)

namespace QueryNode

/-- What stands right below a node.  Options that hold neither expressions nor queries have
nothing below them, and are left out. -/
def children : QueryNode → List QueryNode
  | query q =>
    (q.expand.getD []).map item ++ q.filter.toList.map expr ++
      (q.apply.getD []).map fun t => arg t.toArg
  | item i => [query i.options]
  | arg (.expr e) => [expr e]
  | arg (.named _ (.expr e)) => [expr e]
  | arg (.named _ (.aggregate _)) => []
  | arg (.stage _ args) => args.map arg
  | expr (.call _ args) => args.map expr
  | expr (.lambda _ body) => [expr body]
  | expr (.math _ left right) => [expr left, expr right]
  | expr (.comparison _ left right) => [expr left, expr right]
  | expr (.logical _ left right) => [expr left, expr right]
  | expr _ => []

/-- **The nodes that are brackets**: expand items that have options, stages that do something,
calls and casts. -/
def isBracket : QueryNode → Bool
  | item i => !i.options.isEmpty
  | arg (.stage kind _) => kind != .identity
  | expr (.call _ _) => true
  | expr (.cast _ _) => true
  | _ => false

/-- **A way down from a node**: the nodes on it, from the first to the one where it stops, which
may be a leaf or not. -/
inductive Path : QueryNode → List QueryNode → Prop
  | stop (n : QueryNode) : Path n [n]
  | step {n child : QueryNode} {path : List QueryNode} :
      child ∈ n.children → Path child path → Path n (n :: path)

/-- **A node fits in `k` brackets** if on no way down from it there are more. -/
def Fits (n : QueryNode) (k : Nat) : Prop :=
  ∀ path, n.Path path → path.countP isBracket ≤ k

namespace Fits
variable {n : QueryNode} {k k' : Nat}

theorem mono (h : n.Fits k) (hk : k ≤ k') : n.Fits k' :=
  fun path hpath => Nat.le_trans (h path hpath) hk

/-- A node fits where all below it fits, unless it is a bracket. -/
theorem plain (hn : n.isBracket = false) (h : ∀ c ∈ n.children, c.Fits k) : n.Fits k := by
  intro path hpath
  cases hpath with
  | stop => simp [hn]
  | step hc hpath =>
    rw [List.countP_cons_of_neg (by simp [hn])]
    exact h _ hc _ hpath

theorem leaf (hn : n.isBracket = false) (h : n.children = []) : n.Fits k :=
  .plain hn fun _ hc => absurd (h ▸ hc) List.not_mem_nil

/-- A bracket fits where there is room for it, and for what is below it in one more. -/
theorem bracket {limit d : Nat} (hd : d < limit)
    (h : ∀ c ∈ n.children, c.Fits (limit - (d + 1))) : n.Fits (limit - d) := by
  intro path hpath
  cases hpath with
  | stop =>
    have hone : [n].countP isBracket ≤ 1 := List.countP_le_length
    omega
  | step hc hpath =>
    have hbelow := h _ hc _ hpath
    rw [List.countP_cons]
    split <;> omega

end Fits

end QueryNode

section Brackets
variable {settings : Settings} {d : Nat}

/-- A tree that there is room for fits in the brackets that are left. -/
theorem Expr.Within.fits {t : Tier} {o : Nat} {e : Expr} (h : e.Within settings t d o) :
    (QueryNode.expr e).Fits (settings.maxDepth - d) := by
  induction h with
  | loosen _ _ ih => exact ih
  | logical op _ _ _ ihleft ihright | math op _ _ _ ihleft ihright
  | comparison op _ _ ihleft ihright =>
    exact .plain rfl (List.forall_mem_cons.2 ⟨ihleft, List.forall_mem_singleton.2 ihright⟩)
  | group _ _ ih => exact ih.mono (by omega)
  | literal | now | property => exact .leaf rfl rfl
  | cast l type hd => exact .bracket hd fun _ hc => absurd hc List.not_mem_nil
  | call f hd _ ih => exact .bracket hd (List.forall_mem_map.2 ih)
  | quantified f p param hd _ ih =>
    -- The lambda is in the bracket of its call, and is none itself.
    refine .bracket hd (List.forall_mem_cons.2 ⟨.leaf rfl rfl, List.forall_mem_singleton.2 ?_⟩)
    exact .plain rfl (List.forall_mem_singleton.2 ih)

/-- So does an argument of a stage. -/
theorem StageArg.Within.fits {a : StageArg} (h : a.Within settings d) :
    (QueryNode.arg a).Fits (settings.maxDepth - d) := by
  induction h with
  | expr h | named _ h => exact .plain rfl (List.forall_mem_singleton.2 h.fits)
  | aggregate | identity => exact .leaf rfl rfl
  | stage kind hd _ ih => exact .bracket hd (List.forall_mem_map.2 ih)

/-- So does a query.  An expand item is a bracket only if there was one around its
options. -/
theorem Query.Within.fits {q : Query} (h : q.Within settings d) :
    (QueryNode.query q).Fits (settings.maxDepth - d) := by
  induction h with
  | @mk d _ hfilter happly hroom _ ih =>
    refine .plain rfl fun c hc => ?_
    simp only [QueryNode.children, List.mem_append, List.mem_map, Option.mem_toList] at hc
    rcases hc with (⟨i, hi, rfl⟩ | ⟨e, he, rfl⟩) | ⟨t, ht, rfl⟩
    · obtain ⟨items, hitems, hi⟩ := exists_of_mem_getD hi
      have hoptions : ∀ c ∈ (QueryNode.item i).children, c.Fits (settings.maxDepth - (d + 1)) :=
        List.forall_mem_singleton.2 (ih items hitems i hi)
      cases hempty : i.options.isEmpty with
      | true =>
        have hplain : (QueryNode.item i).isBracket = false := by simp [QueryNode.isBracket, hempty]
        exact (QueryNode.Fits.plain hplain hoptions).mono (by omega)
      | false =>
        refine .bracket (hroom items hitems i hi fun h => ?_) hoptions
        rw [h] at hempty
        cases hempty
    · exact (hfilter e he).fits
    · obtain ⟨stages, hstages, ht⟩ := exists_of_mem_getD ht
      exact (happly stages hstages t ht).fits

end Brackets

/-! ## Heights -/

mutual

/-- **The height of a tree**: how many nodes there are on the longest way down. -/
def Expr.height : Expr → Nat
  | .property _ | .literal _ | .now _ | .cast _ _ => 1
  | .call _ args => heights args + 1
  | .lambda _ body => body.height + 1
  | .math _ left right => max left.height right.height + 1
  | .comparison _ left right => max left.height right.height + 1
  | .logical _ left right => max left.height right.height + 1

/-- The height of the highest of some trees. -/
def Expr.heights : List Expr → Nat
  | [] => 0
  | e :: es => max e.height (heights es)

end

theorem Expr.heights_le {es : List Expr} {k : Nat} (h : ∀ e ∈ es, e.height ≤ k) :
    Expr.heights es ≤ k := by
  induction es with
  | nil => exact Nat.zero_le k
  | cons e es ih =>
    obtain ⟨hfirst, hothers⟩ := List.forall_mem_cons.1 h
    exact Nat.max_le.2 ⟨hfirst, ih hothers⟩

/-- The steps down the tiers, from one to the tightest: the most nodes that there are above
an atom, on a way that turns to the left at each operator. -/
def Grammar.Tier.steps : Tier → Nat
  | .disjunction => 5
  | .conjunction => 4
  | .comparison => 3
  | .sum => 2
  | .product => 1
  | .atom => 0

theorem Grammar.Tier.steps_tighter {t : Tier} (h : t ≠ .atom) :
    t.tighter.steps + 1 = t.steps := by
  cases t <;> first | rfl | exact absurd rfl h

theorem LogicalOp.tier_ne_atom (op : LogicalOp) : op.tier ≠ .atom := by
  cases op <;> decide

theorem MathOp.tier_ne_atom (op : MathOp) : op.tier ≠ .atom := by
  cases op <;> decide

/-- What there is room for is only so high.  A step to the right of an operator counts it, a
step to the left leads to a tighter tier; and a bracket takes two nodes at most and leads back to
the loosest tier. -/
theorem Expr.Within.height_le {settings : Settings} {t : Tier} {d o : Nat} {e : Expr}
    (h : e.Within settings t d o) (ho : o ≤ settings.maxOperatorDepth) :
    o + e.height ≤ settings.maxOperatorDepth + t.steps + 1 + 7 * (settings.maxDepth - d) := by
  induction h with
  | loosen ht _ ih =>
    have hsteps := Tier.steps_tighter ht
    have hbound := ih ho
    omega
  | logical op hlt _ _ ihleft ihright =>
    have hsteps := Tier.steps_tighter op.tier_ne_atom
    have hleft := ihleft ho
    have hright := ihright hlt
    rw [Expr.height]
    omega
  | math op hlt _ _ ihleft ihright =>
    have hsteps := Tier.steps_tighter op.tier_ne_atom
    have hleft := ihleft ho
    have hright := ihright hlt
    rw [Expr.height]
    omega
  | comparison op _ _ ihleft ihright =>
    have hleft := ihleft ho
    have hright := ihright ho
    simp only [Tier.steps] at hleft hright ⊢
    rw [Expr.height]
    omega
  | group _ _ ih =>
    have hbound := ih ho
    simp only [Tier.steps] at hbound ⊢
    omega
  | literal | now | property | cast =>
    rw [Expr.height]
    omega
  | @call d o args f hd _ ih =>
    have hargs : Expr.heights args ≤
        settings.maxOperatorDepth + Tier.sum.steps + 1 + 7 * (settings.maxDepth - (d + 1)) - o :=
      Expr.heights_le fun a ha => by
        have hbound := ih a ha ho
        omega
    simp only [Tier.steps] at hargs ⊢
    rw [Expr.height]
    omega
  | quantified f p param _ _ ih =>
    have hbound := ih ho
    simp only [Tier.steps] at hbound ⊢
    simp only [Expr.height, Expr.heights]
    omega

/-! ## Parsed queries -/

/-- **How deep a query is that is parsed.**  On no way down are there more brackets than the
limit on depth, and no expression in it is higher than the limit on operators, seven times the
limit on depth, and six. -/
theorem parse_bounded {settings : Settings} {text : String} {q : Query}
    (h : parse settings text = .query q) :
    (∀ path, (QueryNode.query q).Path path →
      path.countP QueryNode.isBracket ≤ settings.maxDepth) ∧
    ∀ e, q.Holds e → e.height ≤ settings.maxOperatorDepth + 7 * settings.maxDepth + 6 := by
  have hq := within_of_parse h
  refine ⟨hq.fits, fun e he => ?_⟩
  obtain ⟨d, hwithin⟩ := hq.of_holds he
  have hheight := hwithin.height_le (Nat.zero_le _)
  simp only [Tier.steps] at hheight
  omega

/-- The condition `A/any(x:x eq 1)`. -/
def anyIsOne : Expr :=
  .call .any [.property ⟨"A", none⟩,
    .lambda "x" (.comparison .eq (.property ⟨"x", none⟩) (.literal (.integer 1)))]

/-- The query with one stage, which filters by that. -/
def anyFilter : Query where
  apply := some [⟨.filter, [.expr anyIsOne]⟩]

set_option maxRecDepth 4000 in
/-- A call in a stage: there is a way down with two brackets, which are as many as there may
be. -/
theorem parse_twoBrackets :
    parse (Settings.withDepth 2) "$apply=filter(A/any(x:x eq 1))" = .query anyFilter ∧
      (∃ path, (QueryNode.query anyFilter).Path path ∧
        path.countP QueryNode.isBracket = (Settings.withDepth 2).maxDepth) ∧
      (∀ path, (QueryNode.query anyFilter).Path path →
        path.countP QueryNode.isBracket ≤ (Settings.withDepth 2).maxDepth) ∧
      anyIsOne.height ≤
        (Settings.withDepth 2).maxOperatorDepth + 7 * (Settings.withDepth 2).maxDepth + 6 := by
  have h : parse (Settings.withDepth 2) "$apply=filter(A/any(x:x eq 1))" = .query anyFilter := by
    decide +kernel
  have hholds : anyFilter.Holds anyIsOne :=
    .stage rfl List.mem_cons_self (.stage List.mem_cons_self (.expr _))
  have hpath : (QueryNode.query anyFilter).Path [.query anyFilter,
      .arg (.stage .filter [.expr anyIsOne]), .arg (.expr anyIsOne), .expr anyIsOne] :=
    .step List.mem_cons_self (.step List.mem_cons_self (.step List.mem_cons_self (.stop _)))
  obtain ⟨hbrackets, hheights⟩ := parse_bounded h
  exact ⟨h, ⟨_, hpath, rfl⟩, hbrackets, hheights _ hholds⟩

end OData
