import OData.Proofs.Canonical.Printing
import OData.Proofs.Grammar.Pipeline

/-!
# Printing expressions

An expression is printed at a tier.  An operator gets parentheses where its own tier is
looser than the one that is asked for; its left operand is printed at the tighter tier
and its right operand at its own, since chains nest to the right.  There are no other
parentheses, with one exception.

At the beginning of an argument of a stage (`lead`) the word `identity` is a stage.  A
property whose path begins with that word gets parentheses there.
-/
namespace OData
open Grammar

/-! ## The printed form -/

/-- The kinds in parentheses, where these are needed. -/
def bracketed (needed : Bool) (ks : List Kind) : List Kind :=
  if needed then .leftParen :: (ks ++ [.rightParen]) else ks

/-- The path of a property begins with the word that is a stage by itself. -/
def Property.looksLikeStage (p : Property) : Bool :=
  (partsOf '/' p.name).head? == some StageKind.identity.word

mutual

/-- **The kinds of an expression** at a tier; `lead` says that a stage could begin here. -/
def Expr.kinds (lead : Bool) (t : Tier) : Expr → List Kind
  | .property p => bracketed (lead && p.looksLikeStage) (nameKinds p.name ++ unitKinds p.unit)
  | .literal l => l.kinds
  | .now unit => .word "now" :: .leftParen :: .rightParen :: unitKinds unit
  | .cast l type =>
    .word "cast" :: .leftParen :: (l.kinds ++ .comma :: (type.kinds ++ [.rightParen]))
  | .call f args =>
    match f.isCollection, args with
    | true, .property p :: rest =>
      bracketed (lead && p.looksLikeStage)
        (nameKinds p.name ++
          .slash :: .word f.word :: .leftParen :: (Expr.listKinds rest ++ [.rightParen]))
    | _, args => .word f.word :: .leftParen :: (Expr.listKinds args ++ [.rightParen])
  | .lambda param body => .word param :: .colon :: body.kinds false .disjunction
  | .math op x y =>
    let needed := decide (op.tier.rank < t.rank)
    bracketed needed
      (x.kinds (lead && !needed) op.tier.tighter ++ .word op.word :: y.kinds false op.tier)
  | .comparison op x y =>
    let needed := decide (Tier.comparison.rank < t.rank)
    bracketed needed (x.kinds (lead && !needed) .sum ++ .word op.word :: y.kinds false .sum)
  | .logical op x y =>
    let needed := decide (op.tier.rank < t.rank)
    bracketed needed
      (x.kinds (lead && !needed) op.tier.tighter ++ .word op.word :: y.kinds false op.tier)

/-- The kinds of arguments, with commas between them. -/
def Expr.listKinds : List Expr → List Kind
  | [] => []
  | a :: as => a.kinds false .sum ++ Expr.tailKinds as

/-- The kinds of arguments, each with a comma in front. -/
def Expr.tailKinds : List Expr → List Kind
  | [] => []
  | a :: as => .comma :: (a.kinds false .sum ++ Expr.tailKinds as)

end

theorem Expr.kinds_call {f : Builtin} (hf : f.isCollection = false) (args : List Expr) (lead : Bool)
    (t : Tier) : (Expr.call f args).kinds lead t =
      .word f.word :: .leftParen :: (Expr.listKinds args ++ [.rightParen]) := by
  rw [Expr.kinds.eq_def]
  simp only [hf]

theorem Expr.kinds_collection {f : Builtin} (hf : f.isCollection = true) (p : Property)
    (rest : List Expr) (lead : Bool) (t : Tier) : (Expr.call f (.property p :: rest)).kinds lead t =
      bracketed (lead && p.looksLikeStage)
        (nameKinds p.name ++
          .slash :: .word f.word :: .leftParen :: (Expr.listKinds rest ++ [.rightParen])) := by
  rw [Expr.kinds.eq_def]
  simp only [hf]

theorem Expr.tailKinds_eq (args : List Expr) :
    Expr.tailKinds args = args.flatMap fun a => .comma :: a.kinds false .sum := by
  induction args with
  | nil => rfl
  | cons a args ih => rw [Expr.tailKinds, ih, List.flatMap_cons, List.cons_append]

theorem Expr.listKinds_eq (args : List Expr) :
    Expr.listKinds args = listed .comma (Expr.kinds false .sum) args := by
  cases args with
  | nil => rfl
  | cons a args => rw [Expr.listKinds, listed, Expr.tailKinds_eq]

/-! ## Tiers -/

namespace Grammar
variable {settings : Settings} {w : List Token} {e : Expr}

theorem Tier.rank_inj {t u : Tier} (h : t.rank = u.rank) : t = u := by
  cases t <;> cases u <;> first | rfl | cases h

theorem Tier.rank_le_atom (t : Tier) : t.rank ≤ Tier.atom.rank := by cases t <;> decide

theorem Tier.rank_tighter {t : Tier} (h : t ≠ .atom) : t.tighter.rank = t.rank + 1 := by
  cases t <;> first | rfl | exact absurd rfl h

/-- What is derived at a tier is derived at every looser one. -/
theorem Derives.mono {t u : Tier} (h : Derives settings t w e) (hr : u.rank ≤ t.rank) :
    Derives settings u w e := by
  induction hn : t.rank - u.rank generalizing u with
  | zero =>
    obtain rfl : t = u := Tier.rank_inj (by omega)
    exact h
  | succ n ih =>
    have hne : u ≠ .atom := by
      rintro rfl
      cases t <;> cases hn
    have hu := Tier.rank_tighter hne
    exact .loosen hne (ih (by omega) (by omega))

theorem Derives.of_atom (t : Tier) (h : Derives settings .atom w e) : Derives settings t w e :=
  h.mono t.rank_le_atom

end Grammar

/-! ## Printed expressions -/

namespace Prints
variable {α β : Type} {D E F : List Token → Expr → Prop} {ks ks' : List Kind} {word : String}

/-- What stands at one tier stands at another that is looser, and in parentheses at every
other. -/
theorem bracketed {settings : Settings} {e : Expr} {t u : Tier} {needed : Bool}
    (h : Prints (Derives settings u) ks e) (hn : needed = false → t.rank ≤ u.rank) :
    Prints (Derives settings t) (bracketed needed ks) e := by
  cases needed with
  | false => exact h.map fun w hw => hw.mono (hn rfl)
  | true =>
    refine h.enclosed.map ?_
    rintro _ ⟨p, v, q, rfl, hv⟩
    exact .of_atom t (.group p q (hv.mono (Nat.zero_le _)))

/-- Two operands with the word of an operator between them. -/
theorem operation {x y e : Expr} (hword : isNameText word.toList = true) (hx : Prints D ks x)
    (hy : Prints E ks' y)
    (hF : ∀ v w p, D v x → E w y → F (v ++ ⟨.word word, p⟩ :: w) e) :
    Prints F (ks ++ .word word :: ks') e := by
  refine (hx.append (hy.cons (isLone_of_isNameText hword))).map ?_
  rintro _ ⟨v, _, rfl, hv, p, w, rfl, hw⟩
  exact hF v w p hv hw

/-- What is printed in parentheses after a word. -/
theorem called {D : List Token → α → Prop} {E : List Token → β → Prop} {a : α} {b : β}
    (hword : isNameText word.toList = true) (h : Prints D ks a)
    (hE : ∀ w p q r, D w a →
      E (⟨.word word, p⟩ :: ⟨.leftParen, q⟩ :: (w ++ [⟨.rightParen, r⟩])) b) :
    Prints E (.word word :: .leftParen :: (ks ++ [.rightParen])) b := by
  refine (h.enclosed.cons (isLone_of_isNameText hword)).map ?_
  rintro _ ⟨p, _, rfl, q, w, r, rfl, hw⟩
  exact hE w p q r hw

end Prints

theorem Builtin.isNameText_word (f : Builtin) : isNameText f.word.toList = true := by
  cases f <;> decide

section Printing
variable {settings : Settings}

/-- The path of an operand is printed as one whose first segment is no literal. -/
theorem prints_operand {path : String} (h : IsOperandName path) :
    Prints (fun w p => ∃ name names, IsPath w (name :: names) ∧ name ∉ reservedWords ∧
      p = "/".intercalate (name :: names)) (nameKinds path) path := by
  obtain ⟨name, names, hs, hres, rfl⟩ := h
  exact (prints_path hs).map fun w hw => ⟨name, names, hw, hres, rfl⟩

theorem prints_property {p : Property} (h : IsOperandName p.name) (lead : Bool) (t : Tier) :
    Prints (Derives settings t) ((Expr.property p).kinds lead t) (.property p) := by
  obtain ⟨path, unit⟩ := p
  have hatom : Prints (Derives settings .atom) (nameKinds path ++ unitKinds unit)
      (.property ⟨path, unit⟩) := by
    refine ((prints_operand h).append (prints_unit unit)).map ?_
    rintro _ ⟨v, w, rfl, ⟨name, names, hpath, hres, he⟩, hunit⟩
    obtain rfl : path = _ := he
    exact .property hpath hres hunit
  exact hatom.bracketed fun _ => t.rank_le_atom

theorem prints_now (unit : Option TimeUnit) (lead : Bool) (t : Tier) :
    Prints (Derives settings t) ((Expr.now unit).kinds lead t) (.now unit) := by
  have hnil : Prints (fun w (_ : Unit) => w = []) [] () := .nil rfl
  have hnow := (hnil.enclosed.append (prints_unit unit)).cons
    (isLone_of_isNameText (w := "now") (by decide))
  refine hnow.map ?_
  rintro _ ⟨p, _, rfl, _, v, rfl, ⟨q, _, r, rfl, rfl⟩, hunit⟩
  exact .of_atom t (.now p q r hunit)

theorem prints_cast {l : Literal} (h : l.WellFormed settings) (type : EdmType) (lead : Bool)
    (t : Tier) : Prints (Derives settings t) ((Expr.cast l type).kinds lead t) (.cast l type) := by
  have hargs := (prints_literal h).append ((prints_type type).cons Kind.isLone_comma)
  have hcast := (hargs.enclosed.cons (isLone_of_isNameText (w := "cast") (by decide)))
  have hkinds : (Expr.cast l type).kinds lead t =
      .word "cast" :: .leftParen :: (l.kinds ++ .comma :: type.kinds ++ [.rightParen]) := by
    rw [Expr.kinds, List.append_assoc, List.cons_append]
  rw [hkinds]
  refine hcast.map ?_
  rintro _ ⟨p, _, rfl, q, _, s, rfl, v, _, rfl, hv, r, w, rfl, hw⟩
  have hsum : Derives settings .sum v (.literal l) := (Derives.literal hv).of_atom .sum
  simpa using (Derives.cast p q r s hsum hw).of_atom t

/-- Arguments in print are a list of sums. -/
theorem prints_arguments {args : List Expr} (hne : args ≠ [])
    (h : ∀ a ∈ args, Prints (Derives settings .sum) (a.kinds false .sum) a) :
    Prints (Separated .comma (Derives settings .sum)) (Expr.listKinds args) args := by
  rw [Expr.listKinds_eq]
  exact Prints.separated (.inl rfl) hne h

theorem prints_call {f : Builtin} {args : List Expr} (hf : f.isCollection = false)
    (harity : f.arity.allows args.length = true)
    (h : ∀ a ∈ args, Prints (Derives settings .sum) (a.kinds false .sum) a) (lead : Bool)
    (t : Tier) : Prints (Derives settings t) ((Expr.call f args).kinds lead t) (.call f args) := by
  rw [Expr.kinds_call hf]
  by_cases hne : args = []
  · subst hne
    have hnil : Prints (fun w (_ : Unit) => w = []) [] () := .nil rfl
    refine Prints.called f.isNameText_word hnil ?_
    rintro _ p q r rfl
    exact .of_atom t (.callNone f p q r hf harity)
  · refine Prints.called f.isNameText_word (prints_arguments hne h) fun w p q r hw => ?_
    exact .of_atom t (.call f p q r hf hw harity)

theorem prints_anyAtAll {path : String} (h : IsOperandName path) (lead : Bool) (t : Tier) :
    Prints (Derives settings t) ((Expr.call .any [.property ⟨path, none⟩]).kinds lead t)
      (.call .any [.property ⟨path, none⟩]) := by
  have hnil : Prints (fun w (_ : Unit) => w = []) [] () := .nil rfl
  have hany := (hnil.enclosed.cons (isLone_of_isNameText Builtin.any.isNameText_word)).cons
    Kind.isLone_slash
  rw [Expr.kinds_collection rfl]
  refine Prints.bracketed (((prints_operand h).append hany).map ?_) fun _ => t.rank_le_atom
  rintro _ ⟨v, _, rfl, ⟨name, names, hpath, hres, he⟩, p, _, rfl, q, _, rfl, r, _, s, rfl, rfl⟩
  obtain rfl : path = _ := he
  exact .anyAtAll p q r s hpath hres

theorem prints_quantified {f : Builtin} {path param : String} {body : Expr}
    (hf : f.isCollection = true) (h : IsOperandName path) (hparam : IsWord param)
    (hop : isOperatorWord param = false) (hb : body.isBoolean = true)
    (hbody : Prints (Derives settings .disjunction) (body.kinds false .disjunction) body)
    (lead : Bool) (t : Tier) :
    Prints (Derives settings t)
      ((Expr.call f [.property ⟨path, none⟩, .lambda param body]).kinds lead t)
      (.call f [.property ⟨path, none⟩, .lambda param body]) := by
  have hlambda := ((hbody.cons Kind.isLone_colon).cons hparam.isLone).enclosed
  have hcall := (hlambda.cons (isLone_of_isNameText f.isNameText_word)).cons Kind.isLone_slash
  have harg : Expr.listKinds [.lambda param body] =
      .word param :: .colon :: body.kinds false .disjunction := by
    rw [Expr.listKinds, Expr.tailKinds, List.append_nil, Expr.kinds]
  rw [Expr.kinds_collection hf, harg]
  refine Prints.bracketed (((prints_operand h).append hcall).map ?_) fun _ => t.rank_le_atom
  rintro _ ⟨v, _, rfl, ⟨name, names, hpath, hres, he⟩, p, _, rfl, q, _, rfl, r, _, y, rfl,
    s, _, rfl, c, w, rfl, hw⟩
  obtain rfl : path = _ := he
  exact .quantified f p q r s c y hpath hres hf hop hw hb

/-- **A well-formed expression is printed**, at every tier. -/
theorem prints_expr {e : Expr} (h : e.WellFormed settings) :
    ∀ lead t, Prints (Derives settings t) (e.kinds lead t) e := by
  induction h with
  | property hname => exact prints_property hname
  | literal hl =>
    exact fun lead t => (prints_literal hl).map fun w hw => .of_atom t (.literal hw)
  | now unit => exact prints_now unit
  | cast type hl => exact prints_cast hl type
  | call hf harity _ ih => exact prints_call hf harity fun a ha => ih a ha false .sum
  | @anyAtAll p hname hunit =>
    obtain ⟨path, unit⟩ := p
    obtain rfl : unit = none := hunit
    exact prints_anyAtAll hname
  | @quantified f p param body hf hname hunit hparam hop _ hb ih =>
    obtain ⟨path, unit⟩ := p
    obtain rfl : unit = none := hunit
    exact prints_quantified hf hname hparam hop hb (ih false .disjunction)
  | math op _ _ ihx ihy =>
    intro lead t
    have hword : isNameText op.word.toList = true := by cases op <;> decide
    -- To the right the chain goes on at its own tier, to the left it is one tier tighter.
    refine ((ihx _ op.tier.tighter).operation hword (ihy false op.tier) fun v w p hv hw =>
      Derives.math op p hv hw).bracketed fun hn => ?_
    simpa using hn
  | comparison op _ _ ihx ihy =>
    intro lead t
    have hword : isNameText op.word.toList = true := by cases op <;> decide
    refine ((ihx _ .sum).operation hword (ihy false .sum) fun v w p hv hw =>
      Derives.comparison op p hv hw).bracketed fun hn => ?_
    simpa using hn
  | logical op _ hbx _ hby ihx ihy =>
    intro lead t
    have hword : isNameText op.word.toList = true := by cases op <;> decide
    refine ((ihx _ op.tier.tighter).operation hword (ihy false op.tier) fun v w p hv hw =>
      Derives.logical op p hv hbx hw hby).bracketed fun hn => ?_
    simpa using hn

end Printing

/-! ## Where a stage could begin -/

/-- The kinds begin like a value: if the first is the name of a stage, then it is not
`identity` and has no parenthesis after it. -/
def BeginsValue (ks : List Kind) : Prop :=
  ∃ k r, ks = k :: r ∧
    ∀ kind : StageKind, k = .word kind.word → kind ≠ .identity ∧ r.head? ≠ some .leftParen

namespace BeginsValue
variable {ks ks' : List Kind} {k : Kind}

theorem of_noStage (h : ∀ kind : StageKind, k ≠ .word kind.word) : BeginsValue (k :: ks) :=
  ⟨k, ks, rfl, fun kind hk => absurd hk (h kind)⟩

theorem of_word {word : String} (h : (Keyword.find? word : Option StageKind) = none) :
    BeginsValue (.word word :: ks) := by
  refine .of_noStage fun kind hk => ?_
  have hfind : (Keyword.find? kind.word : Option StageKind) = some kind := Keyword.find?_word kind
  rw [Kind.word.inj hk, hfind] at h
  cases h

/-- What begins like a value still does so in front of anything but a parenthesis. -/
theorem append (h : BeginsValue ks) (hk : ks'.head? ≠ some .leftParen) :
    BeginsValue (ks ++ ks') := by
  obtain ⟨k, r, rfl, hstage⟩ := h
  refine ⟨k, r ++ ks', rfl, fun kind hkind => ⟨(hstage kind hkind).1, ?_⟩⟩
  cases r with
  | nil => exact hk
  | cons next r => exact (hstage kind hkind).2

theorem bracketed {needed : Bool} (h : needed = false → BeginsValue ks) :
    BeginsValue (bracketed needed ks) := by
  cases needed with
  | false => exact h rfl
  | true => exact of_noStage nofun

/-- Tokens that begin like a value do not begin like a stage. -/
theorem not_beginsStage (h : BeginsValue ks) {w : List Token} (hw : w.map Token.kind = ks) :
    ¬ BeginsStage w := by
  obtain ⟨k, r, rfl, hstage⟩ := h
  rintro (⟨p, u⟩ | ⟨kind, p, q, u⟩)
  · obtain ⟨rfl, -⟩ := List.cons.inj hw
    exact (hstage .identity rfl).1 rfl
  · obtain ⟨rfl, rfl⟩ := List.cons.inj hw
    exact (hstage kind rfl).2 rfl

end BeginsValue

section Lead
variable {settings : Settings}

theorem Literal.beginsValue (l : Literal) : BeginsValue l.kinds := by
  cases l with
  | null hint => cases hint <;> exact .of_word (by decide)
  | nonFinite value =>
    cases value with
    | nan | infinity => exact .of_word (by decide)
    | negativeInfinity => exact .of_noStage nofun
  | boolean value => cases value <;> exact .of_word (by decide)
  | _ => exact .of_noStage nofun

/-- A path begins like a value unless its first segment is `identity`. -/
theorem beginsValue_nameKinds {path : String} (h : IsOperandName path)
    (hp : Property.looksLikeStage ⟨path, none⟩ = false) : BeginsValue (nameKinds path) := by
  obtain ⟨name, names, hs, -, rfl⟩ := h
  have hne : name ≠ StageKind.identity.word := by
    rintro rfl
    simp [Property.looksLikeStage, partsOf_path hs] at hp
  rw [nameKinds, partsOf_path hs, listed]
  refine ⟨.word name, _, rfl, fun kind hk => ⟨?_, ?_⟩⟩
  · rintro rfl
    exact hne (Kind.word.inj hk)
  · cases names <;> simp

/-- A well-formed expression, printed where a stage could begin, begins like a value. -/
theorem beginsValue_kinds {e : Expr} (h : e.WellFormed settings) :
    ∀ t, BeginsValue (e.kinds true t) := by
  have hunit : ∀ unit, (unitKinds unit).head? ≠ some .leftParen := by
    intro unit
    cases unit <;> simp [unitKinds]
  induction h with
  | @property p hname =>
    refine fun t => .bracketed fun hp => ?_
    exact (beginsValue_nameKinds hname hp).append (hunit p.unit)
  | literal hl => exact fun t => Literal.beginsValue _
  | now unit => exact fun t => .of_word (by decide)
  | cast type hl => exact fun t => .of_word (by decide)
  | @call f args hf _ _ _ =>
    intro t
    rw [Expr.kinds_call hf]
    exact .of_word (by cases f <;> decide)
  | @anyAtAll p hname hunit =>
    intro t
    rw [Expr.kinds_collection rfl]
    refine .bracketed fun hp => (beginsValue_nameKinds hname hp).append ?_
    simp
  | @quantified f p param body hf hname hunit hparam hop _ hb ih =>
    intro t
    rw [Expr.kinds_collection hf]
    refine .bracketed fun hp => (beginsValue_nameKinds hname hp).append ?_
    simp
  -- Without brackets the leftmost atom comes first, and that is printed to begin like a value.
  | math op _ _ ihx _ | comparison op _ _ ihx _ | logical op _ _ _ _ ihx _ =>
    intro t
    refine .bracketed fun hn => ?_
    rw [hn]
    exact (ihx _).append nofun

end Lead

end OData
