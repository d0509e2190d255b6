import OData.Proofs.Grammar.Listing
import OData.Proofs.Grammar.Pipeline
import OData.Proofs.Token.Lexing
import OData.Proofs.WellFormed.Trees

/-!
# What is derived is well formed

The rules of the grammars allow well-formed trees only, as long as the tokens are
spelled as tokens of a text are.  Each theorem follows the rules of one grammar; the
lists in them need an induction of their own, which for expressions and stages goes
on together with that on the trees.
-/
namespace OData
open Grammar

/-- The tokens are spelled as tokens of a text are. -/
def AreSpelled (w : List Token) : Prop := ∀ t ∈ w, t.kind.Spelled

section Spelled
variable {v w : List Token} {t : Token}

theorem areSpelled_append : AreSpelled (v ++ w) ↔ AreSpelled v ∧ AreSpelled w :=
  List.forall_mem_append

theorem areSpelled_cons : AreSpelled (t :: w) ↔ t.kind.Spelled ∧ AreSpelled w :=
  List.forall_mem_cons

end Spelled

namespace Grammar

/-! ## Lists -/

section Lists
variable {α : Type} {sep : Kind} {D : List Token → α → Prop} {P : α → Prop} {w : List Token}
  {as : List α}

theorem Followed.forall (h : Followed sep D w as) (hw : AreSpelled w)
    (hP : ∀ v a, AreSpelled v → D v a → P a) : ∀ a ∈ as, P a := by
  induction h with
  | nil => simp
  | @cons v w a as p hD _ ih =>
    obtain ⟨-, hw⟩ := areSpelled_cons.1 hw
    obtain ⟨hv, hw⟩ := areSpelled_append.1 hw
    exact List.forall_mem_cons.2 ⟨hP v a hv hD, ih hw⟩

theorem Separated.forall (h : Separated sep D w as) (hw : AreSpelled w)
    (hP : ∀ v a, AreSpelled v → D v a → P a) : as ≠ [] ∧ ∀ a ∈ as, P a := by
  obtain @⟨v, w, a, as, hD, hF⟩ := h
  obtain ⟨hv, hw⟩ := areSpelled_append.1 hw
  exact ⟨by simp, List.forall_mem_cons.2 ⟨hP v a hv hD, hF.forall hw hP⟩⟩

end Lists

/-! ## Names and literals -/

section Flat
variable {settings : Settings} {w : List Token}

theorem IsPath.areSegments {names : List String} (h : IsPath w names) (hw : AreSpelled w) :
    AreSegments names := by
  refine Separated.forall h hw fun v a hv hD => ?_
  obtain ⟨p, hop⟩ := hD
  exact ⟨(areSpelled_cons.1 hv).1, hop⟩

theorem isPathName_of_derivesPath {path : String} (h : DerivesPath w path)
    (hw : AreSpelled w) : IsPathName path := by
  obtain ⟨names, hN, rfl⟩ := h
  exact ⟨names, IsPath.areSegments hN hw, rfl⟩

theorem signed?_bounds {s : List Char} {v : Int} (h : Text.Numeral.signed? s = some v) :
    -2 ^ 63 ≤ v ∧ v < 2 ^ 63 := by
  unfold Text.Numeral.signed? at h
  split at h
  · split at h
    · next hv =>
      cases h
      have := hv.2.2
      omega
    · cases h
  · split at h
    · next hv =>
      cases h
      have := hv.2.2
      omega
    · cases h

theorem ofQuoted_wellFormed (text : String) : (Literal.ofQuoted text).WellFormed settings := by
  have h : ∀ l, Literal.ofQuoted text = l → l = .date text ∨ l = .timeOfDay text ∨
      l = .dateTimeOffset text ∨ l = .string text := by
    rintro l rfl
    unfold Literal.ofQuoted
    by_cases hd : Temporal.isDate text.toList = true
    · simp [hd]
    · by_cases ht : Temporal.isTimeOfDay text.toList = true
      · simp [hd, ht]
      · by_cases hi : Temporal.isInstant text.toList = true
        · simp [hd, ht, hi]
        · simp [hd, ht, hi]
  rcases h _ rfl with h | h | h | h <;> (rw [h]; exact h)

theorem IsLiteral.wellFormed {l : Literal} (h : IsLiteral settings w l) (hw : AreSpelled w) :
    l.WellFormed settings := by
  cases h with
  | string text p => exact ofQuoted_wellFormed text
  | integer p hv => exact signed?_bounds hv
  | decimal text p | double text p => exact (areSpelled_cons.1 hw).1
  | parameter p hn => exact ⟨(areSpelled_cons.1 hw).1, hn⟩
  | _ => trivial

/-! ## Flat grammars -/

theorem IsDottedTail.exists_words {names : List String} (h : IsDottedTail w names)
    (hw : AreSpelled w) :
    ∃ words star, (∀ n ∈ words, IsWord n) ∧ (star = [] ∨ star = ["*"]) ∧
      names = words ++ star := by
  induction h with
  | nil => exact ⟨[], [], by simp, .inl rfl, rfl⟩
  | star => exact ⟨[], ["*"], by simp, .inr rfl, rfl⟩
  | cons p q name _ ih =>
    obtain ⟨-, hw⟩ := areSpelled_cons.1 hw
    obtain ⟨hname, hw⟩ := areSpelled_cons.1 hw
    obtain ⟨words, star, hwords, hstar, rfl⟩ := ih hw
    exact ⟨name :: words, star, List.forall_mem_cons.2 ⟨hname, hwords⟩, hstar, rfl⟩

theorem IsSelectPart.isPartName {part : String} (h : IsSelectPart w part) (hw : AreSpelled w) :
    IsPartName part := by
  cases h with
  | star => exact ⟨[], ["*"], by simp, .inr rfl, by simp, by simp⟩
  | words p name h =>
    obtain ⟨hname, hw⟩ := areSpelled_cons.1 hw
    obtain ⟨words, star, hwords, hstar, rfl⟩ := h.exists_words hw
    exact ⟨name :: words, star, List.forall_mem_cons.2 ⟨hname, hwords⟩, hstar, by simp, rfl⟩

theorem IsSelectItem.isSelectName {item : String} (h : IsSelectItem w item) (hw : AreSpelled w) :
    IsSelectName item := by
  obtain ⟨parts, hP, rfl⟩ := h
  obtain ⟨hne, hparts⟩ := hP.forall (P := IsPartName) hw fun _ _ hv hD => hD.isPartName hv
  exact ⟨parts, hne, hparts, rfl⟩

theorem IsOrderByItem.isPathName {item : OrderByItem} (h : IsOrderByItem w item)
    (hw : AreSpelled w) : IsPathName item.path := by
  obtain ⟨hP, -⟩ := h
  exact isPathName_of_derivesPath hP (areSpelled_append.1 hw).1

theorem IsExpandPath.isExpandName {path : String} (h : IsExpandPath w path) (hw : AreSpelled w) :
    IsExpandName path := by
  cases h with
  | star => exact .inl rfl
  | path h => exact .inr (isPathName_of_derivesPath h hw)

theorem IsKeyPredicate.wellFormed {p : KeyPredicate} (h : IsKeyPredicate settings w p)
    (hw : AreSpelled w) : p.WellFormed settings := by
  cases h with
  | positional hL => exact hL.wellFormed hw
  | named name p q hL =>
    obtain ⟨hname, hw⟩ := areSpelled_cons.1 hw
    obtain ⟨-, hw⟩ := areSpelled_cons.1 hw
    exact ⟨hname, hL.wellFormed hw⟩

theorem IsResourceSegment.wellFormed {segment : PathSegment}
    (h : IsResourceSegment settings w segment) (hw : AreSpelled w) :
    segment.WellFormed settings := by
  cases h with
  | plain name p => exact ⟨(areSpelled_cons.1 hw).1, by simp⟩
  | empty name p q r => exact ⟨(areSpelled_cons.1 hw).1, by simp⟩
  | keyed name p q r hD =>
    obtain ⟨hname, hw⟩ := areSpelled_cons.1 hw
    obtain ⟨-, hw⟩ := areSpelled_cons.1 hw
    obtain ⟨-, hkeys⟩ := hD.forall (P := KeyPredicate.WellFormed settings)
      (areSpelled_append.1 hw).1 fun _ _ hv hD => hD.wellFormed hv
    exact ⟨hname, by rintro _ ⟨⟩; exact hkeys⟩

theorem IsResourcePath.wellFormed {segments : List PathSegment}
    (h : IsResourcePath settings w segments) (hw : AreSpelled w) :
    segments ≠ [] ∧ ∀ s ∈ segments, s.WellFormed settings := by
  cases h with
  | plain hD => exact hD.forall hw fun _ _ hv hD => hD.wellFormed hv
  | rooted p hD => exact hD.forall (areSpelled_cons.1 hw).2 fun _ _ hv hD => hD.wellFormed hv

end Flat

/-! ## Expressions -/

section Expressions
variable {settings : Settings}

theorem isOperandName_of_isPath {w : List Token} {name : String} {names : List String}
    (h : IsPath w (name :: names)) (hn : name ∉ reservedWords) (hw : AreSpelled w) :
    IsOperandName ("/".intercalate (name :: names)) :=
  ⟨name, names, IsPath.areSegments h hw, hn, rfl⟩

mutual

/-- Every expression that is derived is well formed. -/
theorem Derives.wellFormed : ∀ {t : Tier} {w : List Token} {e : Expr},
    Derives settings t w e → AreSpelled w → e.WellFormed settings
  | _, _, _, .loosen _ h, hw => h.wellFormed hw
  | _, _, _, .logical op _ hx hbx hy hby, hw => by
    obtain ⟨hv, hw⟩ := areSpelled_append.1 hw
    exact .logical op (hx.wellFormed hv) hbx (hy.wellFormed (areSpelled_cons.1 hw).2) hby
  | _, _, _, .comparison op _ hx hy, hw => by
    obtain ⟨hv, hw⟩ := areSpelled_append.1 hw
    exact .comparison op (hx.wellFormed hv) (hy.wellFormed (areSpelled_cons.1 hw).2)
  | _, _, _, .math op _ hx hy, hw => by
    obtain ⟨hv, hw⟩ := areSpelled_append.1 hw
    exact .math op (hx.wellFormed hv) (hy.wellFormed (areSpelled_cons.1 hw).2)
  | _, _, _, .group _ _ h, hw => by
    obtain ⟨-, hw⟩ := areSpelled_cons.1 hw
    exact h.wellFormed (areSpelled_append.1 hw).1
  | _, _, _, .literal h, hw => .literal (h.wellFormed hw)
  | _, _, _, .now _ _ _ _, _ => .now _
  | _, _, _, .cast _ _ _ _ h _, hw => by
    obtain ⟨-, hw⟩ := areSpelled_cons.1 hw
    obtain ⟨-, hw⟩ := areSpelled_cons.1 hw
    cases h.wellFormed (areSpelled_append.1 hw).1 with
    | literal hl => exact .cast _ hl
  | _, _, _, .callNone f _ _ _ hf ha, _ => .call hf ha (by simp)
  | _, _, _, .call f _ _ _ hf (.mk hD hF) ha, hw => by
    obtain ⟨-, hw⟩ := areSpelled_cons.1 hw
    obtain ⟨-, hw⟩ := areSpelled_cons.1 hw
    obtain ⟨hv, hw⟩ := areSpelled_append.1 (areSpelled_append.1 hw).1
    exact .call hf ha (List.forall_mem_cons.2 ⟨hD.wellFormed hv, followed_wellFormed hF hw⟩)
  | _, _, _, .property hD hN _, hw =>
    .property (isOperandName_of_isPath hD hN (areSpelled_append.1 hw).1)
  | _, _, _, .anyAtAll _ _ _ _ hD hN, hw =>
    .anyAtAll (isOperandName_of_isPath hD hN (areSpelled_append.1 hw).1) rfl
  | _, _, _, .quantified f _ _ _ _ _ _ hD hN hf hp hbody hb, hw => by
    obtain ⟨hv, hw⟩ := areSpelled_append.1 hw
    simp only [areSpelled_cons, areSpelled_append] at hw
    obtain ⟨-, -, -, hparam, -, hw, -⟩ := hw
    exact .quantified hf (isOperandName_of_isPath hD hN hv) rfl hparam hp (hbody.wellFormed hw) hb

theorem followed_wellFormed : ∀ {w : List Token} {args : List Expr},
    Followed .comma (Derives settings .sum) w args → AreSpelled w →
      ∀ a ∈ args, a.WellFormed settings
  | _, _, .nil, _ => by simp
  | _, _, .cons _ hD hF, hw => by
    obtain ⟨-, hw⟩ := areSpelled_cons.1 hw
    obtain ⟨hv, hw⟩ := areSpelled_append.1 hw
    exact List.forall_mem_cons.2 ⟨hD.wellFormed hv, followed_wellFormed hF hw⟩

end

/-! ## Pipelines -/

theorem DerivesValue.wellFormed {w : List Token} {a : StageArg} (h : DerivesValue settings w a)
    (hw : AreSpelled w) : a.WellFormed settings := by
  cases h with
  | plain hD => exact .expr (hD.wellFormed hw)
  | named name p q hD =>
    obtain ⟨hv, hw⟩ := areSpelled_append.1 hw
    simp only [areSpelled_cons] at hw
    exact .named hw.2.1 (hD.wellFormed hv)
  | aggregate method name p q r s hD =>
    obtain ⟨hv, hw⟩ := areSpelled_append.1 hw
    simp only [areSpelled_cons] at hw
    cases hD.wellFormed hv with
    | property hP => exact .aggregate method hw.2.2.2.1 hP

mutual

/-- Every stage that is derived is well formed. -/
theorem DerivesStage.wellFormed : ∀ {w : List Token} {t : Transformation},
    DerivesStage settings w t → AreSpelled w → t.WellFormed settings
  | _, _, .identity _, _ => .identity
  | _, _, .identityCall _ _ _, _ => .identity
  | _, _, .filter _ _ _ h, hw => by
    simp only [areSpelled_cons, areSpelled_append] at hw
    exact .filter (h.1.wellFormed hw.2.2.1) h.2
  | _, _, .expand _ _ _ hN hF, hw => by
    simp only [areSpelled_cons, areSpelled_append] at hw
    obtain ⟨-, -, hv, hw, -⟩ := hw
    exact .expand ⟨_, IsPath.areSegments hN hv, rfl⟩ rfl (stages_wellFormed hF hw)
  | _, _, .plain kind _ _ _ hk (.mk hD hF), hw => by
    simp only [areSpelled_cons, areSpelled_append] at hw
    obtain ⟨-, -, ⟨hv, hw⟩, -⟩ := hw
    exact .plain hk (by simp) (List.forall_mem_cons.2 ⟨hD.wellFormed hv, args_wellFormed hF hw⟩)

theorem DerivesArg.wellFormed : ∀ {w : List Token} {a : StageArg},
    DerivesArg settings w a → AreSpelled w → a.WellFormed settings
  | _, _, .stage h, hw => .stage (h.wellFormed hw)
  | _, _, .value h _, hw => DerivesValue.wellFormed h hw

theorem stages_wellFormed : ∀ {w : List Token} {stages : List Transformation},
    Followed .comma (DerivesStage settings) w stages → AreSpelled w →
      ∀ t ∈ stages, t.WellFormed settings
  | _, _, .nil, _ => by simp
  | _, _, .cons _ hD hF, hw => by
    obtain ⟨-, hw⟩ := areSpelled_cons.1 hw
    obtain ⟨hv, hw⟩ := areSpelled_append.1 hw
    exact List.forall_mem_cons.2 ⟨hD.wellFormed hv, stages_wellFormed hF hw⟩

theorem args_wellFormed : ∀ {w : List Token} {args : List StageArg},
    Followed .comma (DerivesArg settings) w args → AreSpelled w →
      ∀ a ∈ args, a.WellFormed settings
  | _, _, .nil, _ => by simp
  | _, _, .cons _ hD hF, hw => by
    obtain ⟨-, hw⟩ := areSpelled_cons.1 hw
    obtain ⟨hv, hw⟩ := areSpelled_append.1 hw
    exact List.forall_mem_cons.2 ⟨hD.wellFormed hv, args_wellFormed hF hw⟩

end

theorem DerivesPipeline.wellFormed {w : List Token} {stages : List Transformation}
    (h : DerivesPipeline settings w stages) (hw : AreSpelled w) :
    stages ≠ [] ∧ ∀ t ∈ stages, t.WellFormed settings :=
  Separated.forall h hw fun _ _ hv hD => hD.wellFormed hv

end Expressions

/-! ## Slices -/

/-- Whatever is read from a whole slice is derived from its tokens, which are spelled. -/
theorem exists_of_run {α : Type} {p : Parse α} {D : List Token → α → Prop} (hp : Sound p D)
    {depth : Nat} {text : Slice} {a : α} (h : run (complete p) depth text = .ok a) :
    ∃ w, AreSpelled w ∧ D w a := by
  obtain ⟨ts, t, hts, ht⟩ := run_eq_ok.1 h
  have hD := sound_complete hp (Slice.ends_of_tokens hts) ht
  obtain ⟨body, stop, rfl, hbody⟩ := Slice.exists_of_tokens hts
  rw [State.start, Cursor.ofTokens, List.dropLast_concat] at hD
  exact ⟨body, hbody, hD⟩

end Grammar

end OData
