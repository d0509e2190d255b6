import OData.Proofs.Grammar.Pipeline
import OData.Proofs.Query.Equality
import OData.Proofs.Token.Lexing

/-!
# Pipelines are read exactly as they are derived

Whether an argument of a stage is a stage or a value is decided by the two tokens that it
begins with, before anything of it is read.  The decision loses no derivation but one: what
begins with the name of a stage and a parenthesis begins no expression, since no function has
the name of a stage (`Derives.find?_eq_none`); only a property that is named `identity` is not
read as a value, for it is a stage already (`derivesArg_iff`).
-/
namespace OData.Grammar

/-! ## What the decision loses -/

section Arguments
variable {settings : Settings} {w : List Token}

/-- The tokens begin with a name and a parenthesis. -/
def Opens (name : String) (w : List Token) : Prop :=
  ∃ p q r, w = ⟨.word name, p⟩ :: ⟨.leftParen, q⟩ :: r

theorem Opens.of_append {name : String} {v r : List Token} {x : Token}
    (h : Opens name (v ++ x :: r)) (hv : v ≠ []) (hx : x.kind ≠ .leftParen) : Opens name v := by
  obtain ⟨p, q, u, h⟩ := h
  cases v with
  | nil => exact absurd rfl hv
  | cons y v =>
    cases v with
    | nil =>
      obtain ⟨-, rfl, -⟩ : y = _ ∧ x = _ ∧ r = u := by simpa using h
      exact absurd rfl hx
    | cons z v =>
      obtain ⟨rfl, rfl, -⟩ : y = _ ∧ z = _ ∧ v ++ x :: r = u := by simpa using h
      exact ⟨p, q, v, rfl⟩

/-- A name in front of a parenthesis is the first word there. -/
theorem Opens.name_eq {name word : String} {p : Span} {r : List Token}
    (h : Opens name (⟨.word word, p⟩ :: r)) : word = name := by
  obtain ⟨p, q, u, h⟩ := h
  cases h
  rfl

/-- A path has no parenthesis after its first name. -/
theorem IsPath.not_opens {names : List String} (h : IsPath w names) (name : String) :
    ¬ Opens name w := by
  rintro ⟨p, q, u, he⟩
  obtain ⟨hfirst, hothers⟩ := h
  cases hfirst
  cases hothers <;> simp at he

theorem IsLiteral.not_opens {l : Literal} (h : IsLiteral settings w l) (name : String) :
    ¬ Opens name w := by
  rintro ⟨p, q, u, he⟩
  cases h <;> simp at he

theorem IsPath.ne_nil {names : List String} (h : IsPath w names) : w ≠ [] := by
  obtain ⟨hfirst, -⟩ := h
  cases hfirst
  simp

theorem Derives.ne_nil {t : Tier} {e : Expr} (h : Derives settings t w e) : w ≠ [] := by
  obtain ⟨x, r, rfl, -⟩ := h.exists_cons
  simp

/-- **No expression begins with the name of a stage and a parenthesis.** -/
theorem Derives.find?_eq_none {name : String} :
    ∀ {t : Tier} {w : List Token} {e : Expr}, Derives settings t w e → Opens name w →
      (Keyword.find? name : Option StageKind) = none
  | _, _, _, .loosen _ h, ho => h.find?_eq_none ho
  | _, _, _, .logical _ _ h .., ho | _, _, _, .comparison _ _ h _, ho
  | _, _, _, .math _ _ h _, ho => h.find?_eq_none (ho.of_append h.ne_nil (by simp))
  | _, _, _, .group .., ho => by
    obtain ⟨p, q, r, he⟩ := ho
    simp at he
  | _, _, _, .literal h, ho => absurd ho (h.not_opens name)
  | _, _, _, .now .., ho | _, _, _, .cast .., ho => by
    obtain rfl := ho.name_eq
    decide
  | _, _, _, .callNone f .., ho | _, _, _, .call f .., ho => by
    obtain rfl := ho.name_eq
    cases f <;> decide
  | _, _, _, .property hpath _ hunit, ho => by
    cases hunit with
    | none =>
      rw [List.append_nil] at ho
      exact absurd ho (hpath.not_opens name)
    | some => exact absurd (ho.of_append hpath.ne_nil (by simp)) (hpath.not_opens name)
  | _, _, _, .anyAtAll _ _ _ _ hpath _, ho
  | _, _, _, .quantified _ _ _ _ _ _ _ hpath .., ho =>
    absurd (ho.of_append hpath.ne_nil (by simp)) (hpath.not_opens name)

/-- The only values that begin like a stage begin with the word `identity`. -/
theorem DerivesValue.beginsStage_iff {a : StageArg} (h : DerivesValue settings w a) :
    BeginsStage w ↔ ∃ p r, w = ⟨.word StageKind.identity.word, p⟩ :: r := by
  constructor
  · intro hbegins
    generalize hw : w = v at h
    cases hbegins with
    | identity p r => exact ⟨p, r, hw.symm⟩
    | opening kind p q r =>
      -- The parenthesis belongs to the expression, of which there is none.
      have hopens : Opens kind.word v := ⟨p, q, r, hw.symm⟩
      have hnone : (Keyword.find? kind.word : Option StageKind) = none := by
        cases h with
        | plain hD => exact hD.find?_eq_none hopens
        | named _ _ _ hD | aggregate _ _ _ _ _ _ hD =>
          exact hD.find?_eq_none (hopens.of_append hD.ne_nil (by simp))
      have hsome : (Keyword.find? kind.word : Option StageKind) = some kind :=
        Keyword.find?_word kind
      rw [hsome] at hnone
      cases hnone
  · rintro ⟨p, r, rfl⟩
    exact .identity p r

/-- **An argument is a stage, or a value that does not begin with the word `identity`.**  It is a
stage just if it begins like one. -/
theorem derivesArg_iff {a : StageArg} : DerivesArg settings w a ↔
    (BeginsStage w ∧ ∃ t, DerivesStage settings w t ∧ t.toArg = a) ∨
      DerivesValue settings w a ∧ ∀ p r, w ≠ ⟨.word StageKind.identity.word, p⟩ :: r := by
  constructor
  · intro h
    cases h with
    | stage h => exact .inl ⟨h.beginsStage, _, h, rfl⟩
    | value h hb => exact .inr ⟨h, fun p r he => hb (h.beginsStage_iff.2 ⟨p, r, he⟩)⟩
  · rintro (⟨-, t, h, rfl⟩ | ⟨h, hw⟩)
    · exact .stage h
    · refine .value h fun hb => ?_
      obtain ⟨p, r, he⟩ := h.beginsStage_iff.1 hb
      exact hw p r he

end Arguments

/-! ## Pipelines -/

/-- **The pipeline that is read off the tokens of a text is the one that they are a way to
write**, and there is none exactly if they are a way to write none.  The limits are no obstacle
as long as there are no more tokens than they allow brackets and operators. -/
theorem pipeline_reads_iff (ctx : Context) {text : Slice} {ts : List Token}
    (hts : text.tokens = .ok ts) (hd : ts.length ≤ ctx.settings.maxDepth)
    (ho : ts.length ≤ ctx.settings.maxOperatorDepth) (stages : List Transformation) :
    (∃ t, pipeline ctx (State.start ts 0) = .ok stages t) ↔
      DerivesPipeline ctx.settings ts.dropLast stages := by
  have hends := Slice.ends_of_tokens hts
  constructor
  · rintro ⟨t, h⟩
    exact sound_complete (sound_separated (by simp) (sound_stage ctx)) hends h
  · intro h
    refine (complete_stages ctx).complete rfl hends h rfl ⟨?_, ?_⟩
    · simpa [State.start] using hd
    · simpa [State.start] using ho

/-- The stages of `filter(A eq 1)/aggregate(B with sum as C,identity)/expand(D,identity())`. -/
def filterAggregateExpand : List Transformation :=
  [⟨.filter, [.expr (.comparison .eq (.property ⟨"A", none⟩) (.literal (.integer 1)))]⟩,
   ⟨.aggregate, [.named "C" (.aggregate ⟨.sum, ⟨"B", none⟩⟩), .stage .identity []]⟩,
   ⟨.expand, [.expr (.property ⟨"D", none⟩), .stage .identity []]⟩]

set_option maxRecDepth 4000 in
theorem derives_filterAggregateExpand :
    ∃ ts, (Slice.ofString
        "filter(A eq 1)/aggregate(B with sum as C,identity)/expand(D,identity())" 7).tokens =
          .ok ts ∧
      ts.length ≤ Settings.standard.maxDepth ∧ ts.length ≤ Settings.standard.maxOperatorDepth ∧
      DerivesPipeline Settings.standard ts.dropLast filterAggregateExpand := by
  have hrun : run (pipeline ⟨Settings.standard, none⟩) 0 (Slice.ofString
      "filter(A eq 1)/aggregate(B with sum as C,identity)/expand(D,identity())" 7) =
        .ok filterAggregateExpand := by
    decide +kernel
  have hlength : (Slice.ofString
      "filter(A eq 1)/aggregate(B with sum as C,identity)/expand(D,identity())" 7).tokens.map
        List.length = .ok 27 := by decide +kernel
  obtain ⟨ts, t, hts, ht⟩ := run_eq_ok.1 hrun
  rw [hts] at hlength
  obtain hlength : ts.length = 27 := Except.ok.inj hlength
  have hd : ts.length ≤ Settings.standard.maxDepth := by rw [hlength]; decide
  have ho : ts.length ≤ Settings.standard.maxOperatorDepth := by rw [hlength]; decide
  exact ⟨ts, hts, hd, ho, (pipeline_reads_iff _ hts hd ho _).1 ⟨t, ht⟩⟩

end OData.Grammar
