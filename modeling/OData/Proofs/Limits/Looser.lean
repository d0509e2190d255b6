import OData.Proofs.Query.Agreement
import OData.Proofs.Query.Equality
import OData.Proofs.Query.Items

/-!
# Looser limits

The limits only ever cut a reading off.  What is counted of brackets and operators is compared
with the limits and used for nothing else, so that under looser limits a reading goes the same
way, until a limit stops it.  Hence a text that is not refused for its depth is read alike under
all looser limits, be it as a query or as a failure; and what is read as a query under some
limits is under all others read as the same query, or refused for its depth (`parse_limits`).
-/
namespace OData
open Grammar Options

/-- **Limits that are at most others**, for the same parameters. -/
structure Settings.AtMost (settings settings' : Settings) : Prop where
  parameters : settings.parameters = settings'.parameters
  depth : settings.maxDepth ≤ settings'.maxDepth
  operators : settings.maxOperatorDepth ≤ settings'.maxOperatorDepth

/-- **A text is cut off by the limits**: it is malformed for its depth. -/
def Settings.CutsOff (settings : Settings) (text : String) : Prop :=
  ∃ m, parse settings text = .malformed m ∧ m.diagnostic.code = some .depth

/-- The comparison of limits with looser ones.  On the left there may be too many brackets
or operators. -/
def Grammar.Comparison.looser {settings settings' : Settings} (h : settings.AtMost settings') :
    Comparison where
  left := ⟨settings, none⟩
  right := ⟨settings', none⟩
  place := Eq
  cause := Eq
  excused c := c.code = .depth
  even := False
  option := Eq.refl none
  parameters := h.parameters
  operators := h.operators
  join := by
    rintro _ _ _ _ rfl rfl
    rfl
  refl _ := rfl
  tooDeep := .inl rfl
  tooManyOperators := .inl rfl

section Looser
variable {settings settings' : Settings} {text : String} {q : Query}

/-- Under looser limits a reading stops for the same reason and at the same place. -/
theorem Grammar.Comparison.eq_of_stops_looser {h : settings.AtMost settings'} {e e' : Stop}
    (he : (Comparison.looser h).Stops e e') : e = e' := by
  cases e with
  | refused f =>
    cases e' with
    | refused f' =>
      obtain ⟨cause, span⟩ := f
      obtain ⟨rfl, rfl⟩ := he
      rfl
    | _ => exact he.elim
  | exhausted =>
    cases e' with
    | exhausted => rfl
    | _ => exact he.elim
  | overdrawn =>
    cases e' with
    | overdrawn => rfl
    | _ => exact he.elim

/-- Looser limits change nothing, unless the text is refused for its depth. -/
theorem read_of_atMost (h : settings.AtMost settings') (text : String) :
    Query.read settings' text = Query.read settings text ∨
      ∃ f, Query.read settings text = .error (.refused f) ∧ f.cause.code = .depth := by
  have hreads : (Comparison.looser h).Results Eq (Query.read settings text)
      (Query.read settings' text) :=
    Comparison.read ⟨fun _ => rfl, fun _ => rfl⟩ h.depth False.elim fun _ _ => rfl
  generalize Query.read settings text = x at hreads ⊢
  generalize Query.read settings' text = y at hreads ⊢
  cases hreads with
  | ok hq => exact .inl (congrArg Except.ok hq.symm)
  | error he => exact .inl (congrArg Except.error (Comparison.eq_of_stops_looser he).symm)
  | @excused e _ he =>
    cases e with
    | refused f => exact .inr ⟨f, rfl, he⟩
    | exhausted | overdrawn => exact he.elim

theorem cutsOff_of_read {f : Failure} (h : Query.read settings text = .error (.refused f))
    (hf : f.cause.code = .depth) : settings.CutsOff text := by
  have hrefusal : f.refusal = .malformed f.diagnostic := by
    rw [Failure.refusal, hf]
    rfl
  refine ⟨⟨f.diagnostic, text⟩, ?_, congrArg some hf⟩
  rw [parse, h]
  simp only [hrefusal, Verdict.ofRefusal]

/-- What is a query under looser limits is the same query, or cut off. -/
theorem parse_or_cutsOff (h : settings.AtMost settings') (hq : parse settings' text = .query q) :
    parse settings text = .query q ∨ settings.CutsOff text := by
  rcases read_of_atMost h text with hread | ⟨f, hread, hf⟩
  · rw [parse_eq_query] at hq ⊢
    exact .inl (hread.symm.trans hq)
  · exact .inr (cutsOff_of_read hread hf)

end Looser

/-- The looser of the limits of two settings. -/
def Settings.orLooser (settings settings' : Settings) : Settings where
  parameters := settings.parameters
  maxDepth := max settings.maxDepth settings'.maxDepth
  maxOperatorDepth := max settings.maxOperatorDepth settings'.maxOperatorDepth

/-- **The limits only ever cut a text off.**  One that they do not cut off is read alike under
looser limits, as the same query or with the same failure; and a query is the same query under
any limits, unless these cut it off. -/
theorem parse_limits {settings settings' : Settings}
    (hp : settings.parameters = settings'.parameters) (text : String) :
    (settings.maxDepth ≤ settings'.maxDepth →
      settings.maxOperatorDepth ≤ settings'.maxOperatorDepth → ¬ settings.CutsOff text →
      Query.read settings' text = Query.read settings text ∧
        parse settings' text = parse settings text) ∧
    ∀ q, parse settings text = .query q →
      parse settings' text = .query q ∨ settings'.CutsOff text := by
  constructor
  · intro hd ho hcut
    have hread : Query.read settings' text = Query.read settings text := by
      rcases read_of_atMost ⟨hp, hd, ho⟩ text with hread | ⟨f, hread, hf⟩
      · exact hread
      · exact absurd (cutsOff_of_read hread hf) hcut
    exact ⟨hread, by rw [parse, hread, parse]⟩
  · -- Both are compared with limits that are looser than either.
    intro q hq
    have hleft : settings.AtMost (settings.orLooser settings') :=
      ⟨rfl, Nat.le_max_left .., Nat.le_max_left ..⟩
    have hright : settings'.AtMost (settings.orLooser settings') :=
      ⟨hp.symm, Nat.le_max_right .., Nat.le_max_right ..⟩
    refine parse_or_cutsOff hright ?_
    rw [parse_eq_query] at hq ⊢
    rcases read_of_atMost hleft text with hread | ⟨f, hread, -⟩
    · exact hread.trans hq
    · cases hread.symm.trans hq

/-- The standard settings, with a limit on brackets. -/
def Settings.withDepth (n : Nat) : Settings := { Settings.standard with maxDepth := n }

/-- The condition `A/any()`, which needs one bracket. -/
def anyAtAll : Expr := .call .any [.property ⟨"A", none⟩]

/-- A call is read alike under all limits that allow for its bracket, and is cut off, or else
read alike, under one that does not. -/
theorem parse_anyAtAll :
    parse (Settings.withDepth 1) "$filter=A/any()" = .query { filter := some anyAtAll } ∧
      parse (Settings.withDepth 2) "$filter=A/any()" = .query { filter := some anyAtAll } ∧
      (parse (Settings.withDepth 0) "$filter=A/any()" = .query { filter := some anyAtAll } ∨
        (Settings.withDepth 0).CutsOff "$filter=A/any()") := by
  have h : parse (Settings.withDepth 1) "$filter=A/any()" =
      .query { filter := some anyAtAll } := by decide +kernel
  have hcut : ¬ (Settings.withDepth 1).CutsOff "$filter=A/any()" := by
    rintro ⟨m, hm, -⟩
    cases h.symm.trans hm
  have hlimits := fun n => @parse_limits (.withDepth 1) (.withDepth n) rfl "$filter=A/any()"
  exact ⟨h, ((hlimits 2).1 (by decide) (Nat.le_refl _) hcut).2.trans h, (hlimits 0).2 _ h⟩

end OData
