import OData.Proofs.Limits.Lists
import OData.Proofs.Query.Agreement
import OData.Proofs.Query.Equality

/-!
# Every refusal is placed in the text

Whatever text is not read as a query is refused, with a diagnostic that has a code, whose
class is that of its code, with one primary label, and with all labels placed in the text:
between characters of it, and not ending before they begin (`read_refused`).  So a report of
the diagnostic marks the very places of its labels.

The places of a failure are those of tokens, of joins of tokens, and of parts of the text.
That they all are places in the text follows from a comparison of the reading with itself,
in which a place corresponds to itself only if it is one in the text.  Another such comparison
shows that a grammar tells of no second place (`Grammar.Comparison.earlier_of_run`): only lists do.
-/
namespace OData
open Text Grammar Options

/-! ## Well-formed refusals -/

/-- The codes of texts that do not match the grammar. -/
def Code.formCodes : List Code := [.grammar, .lexical, .depth]

/-- The codes of broken rules. -/
def Code.ruleCodes : List Code := [.invalidParameter, .duplicateOption, .duplicateExpand]

/-- **A diagnostic is placed in a text**: each label is between characters of it, and is left as
it is when it is made to fit the text. -/
structure Diagnostic.PlacedIn (d : Diagnostic) (text : String) : Prop where
  marks : ∀ l ∈ d.labels, (Slice.ofString text 0).Marks l.span
  stop_le : ∀ l ∈ d.labels, l.span.stop ≤ byteLength text.toList
  report : (d.report text).marks =
    d.labels.map fun l => ⟨l.span.start, l.span.size, l.message, l.role == .primary⟩

/-- **A refusal is of the class of its code, and has one primary label.** -/
structure Refusal.WellFormed (r : Refusal) : Prop where
  code : ∃ c, r.diagnostic.code = some c ∧
    (r = .malformed r.diagnostic ↔ c ∈ Code.formCodes) ∧
    (r = .invalid r.diagnostic ↔ c ∈ Code.ruleCodes)
  primary : ∃ l, (r.diagnostic.labels.filter fun l => l.role == .primary) = [l] ∧
    r.diagnostic.primarySpan = some l.span

theorem Failure.diagnostic_refusal (f : Failure) : f.refusal.diagnostic = f.diagnostic := by
  unfold Failure.refusal
  split <;> rfl

/-- The refusal of a failure is well formed, whatever its places are. -/
theorem Failure.wellFormed_refusal (f : Failure) : f.refusal.WellFormed := by
  refine ⟨⟨f.cause.code, ?_, ?_, ?_⟩, ⟨f.span, f.cause.remark, .primary⟩, ?_, ?_⟩ <;>
    rw [f.diagnostic_refusal]
  · rfl
  · unfold Failure.refusal
    cases f.cause.code <;> simp [Code.isRule, Code.formCodes]
  · unfold Failure.refusal
    cases f.cause.code <;> simp [Code.isRule, Code.ruleCodes]
  · unfold Failure.diagnostic
    cases f.cause <;> rfl
  · rfl

/-! ## Places in the text -/

/-- A failure is placed in a text, and so is what it says was there before. -/
structure Failure.PlacedIn (f : Failure) (text : String) : Prop where
  span : (Slice.ofString text 0).Marks f.span
  earlier : ∀ l, f.cause.earlier = some l → (Slice.ofString text 0).Marks l.span

theorem Failure.PlacedIn.diagnostic {f : Failure} {text : String} (h : f.PlacedIn text) :
    f.diagnostic.PlacedIn text := by
  have hmarks : ∀ l ∈ f.diagnostic.labels, (Slice.ofString text 0).Marks l.span := by
    intro l hl
    rcases List.mem_cons.1 hl with rfl | hl
    · exact h.span
    · exact h.earlier l (Option.mem_toList.1 hl)
  have hstop : ∀ l ∈ f.diagnostic.labels, l.span.stop ≤ byteLength text.toList := by
    intro l hl
    have hle := (hmarks l hl).bounds.2
    rwa [Slice.stop, Slice.ofString, Nat.zero_add] at hle
  refine ⟨hmarks, hstop, List.map_congr_left fun l hl => ?_⟩
  rw [Label.mark, Span.clamp_of_bounds (hmarks l hl).ordered (hstop l hl)]

/-- The comparison of the reading of a text with itself, for which only places in the text
correspond to themselves. -/
def Grammar.Comparison.located (settings : Settings) (text : String) : Comparison where
  left := ⟨settings, none⟩
  right := ⟨settings, none⟩
  place p p' := p = p' ∧ (Slice.ofString text 0).Marks p
  cause c c' := c = c' ∧ ∀ l, c.earlier = some l → (Slice.ofString text 0).Marks l.span
  excused _ := False
  even := True
  option := rfl
  parameters := rfl
  operators := Nat.le_refl _
  join := by
    rintro a b _ _ ⟨rfl, ha⟩ ⟨rfl, hb⟩
    exact ⟨rfl, ha.join hb⟩
  refl h := ⟨rfl, by simp [h]⟩
  tooDeep := .inr ⟨trivial, rfl, by simp [Cause.earlier]⟩
  tooManyOperators := .inr rfl

section Places
variable {settings : Settings} {text : String}

theorem repeats_located : (Comparison.located settings text).Repeats 0 where
  option hp := ⟨rfl, by rintro _ ⟨⟩; exact hp.2⟩
  expand hp := ⟨rfl, by rintro _ ⟨⟩; exact hp.2⟩

theorem covers_located : (Comparison.located settings text).Covers 0 (Slice.ofString text 0) :=
  fun _ hp => ⟨rfl, hp⟩

/-- What is refused is refused at a place in the text. -/
theorem placedIn_of_read {f : Failure} (h : Query.read settings text = .error (.refused f)) :
    f.PlacedIn text := by
  have hself : (Comparison.located settings text).Results Eq (Query.read settings text)
      (Query.read settings text) :=
    Comparison.read repeats_located (Nat.le_refl _) (fun _ => rfl) covers_located
  rw [h] at hself
  cases hself with
  | error he =>
    obtain ⟨⟨-, hearlier⟩, -, hspan⟩ := he
    exact ⟨hspan, hearlier⟩
  | excused _ he => exact he.elim

/-- **Every failure is a well-formed diagnostic, placed in the text.**  It is malformed or a
broken rule, as its code says, and the verdict has the place of its primary label. -/
theorem read_refused {e : Stop} (h : Query.read settings text = .error e) :
    ∃ f, e = .refused f ∧ f.refusal.WellFormed ∧ f.refusal.diagnostic.PlacedIn text ∧
      ∃ p, f.refusal.diagnostic.primarySpan = some p ∧
        (∀ d, f.refusal = .malformed d → parse settings text = .malformed ⟨d, text⟩ ∧
          (MalformedQuery.mk d text).span = p) ∧
        ∀ d, f.refusal = .invalid d → parse settings text = .rejected ⟨d.message, p⟩ := by
  have hsettles := settles_read settings text
  rw [h] at hsettles
  cases hsettles with
  | refused f =>
    have hdiagnostic := f.diagnostic_refusal
    have hplaced := (placedIn_of_read h).diagnostic
    have hparse : parse settings text = .ofRefusal text f.refusal := by rw [parse, h]
    refine ⟨f, rfl, f.wellFormed_refusal, hdiagnostic ▸ hplaced, f.span, ?_, ?_, ?_⟩
    · rw [hdiagnostic]
      rfl
    · intro d hd
      rw [hd] at hparse hdiagnostic
      obtain rfl : d = f.diagnostic := hdiagnostic
      exact ⟨hparse, rfl⟩
    · intro d hd
      rw [hd] at hparse hdiagnostic
      obtain rfl : d = f.diagnostic := hdiagnostic
      exact hparse

end Places

/-- An option that is given twice, the first time with a character of two bytes. -/
theorem format_twice_refused :
    Query.read Settings.standard "$format=é&$format=é" =
        .error (.refused ⟨.repeatedOption .format ⟨0, 7⟩, ⟨11, 18⟩⟩) ∧
      (Failure.refusal ⟨.repeatedOption .format ⟨0, 7⟩, ⟨11, 18⟩⟩).diagnostic.PlacedIn
        "$format=é&$format=é" := by
  have h : Query.read Settings.standard "$format=é&$format=é" =
      .error (.refused ⟨.repeatedOption .format ⟨0, 7⟩, ⟨11, 18⟩⟩) := by decide +kernel
  obtain ⟨f, hf, -, hplaced, -⟩ := read_refused h
  cases hf
  exact ⟨h, hplaced⟩

/-! ## One place only -/

/-- The comparison of a run with itself, for which a cause corresponds to itself only if it
tells of no other place. -/
def Grammar.Comparison.single (settings : Settings) : Comparison where
  left := ⟨settings, none⟩
  right := ⟨settings, none⟩
  place _ _ := True
  cause c _ := c.earlier = none
  excused _ := False
  even := True
  option := rfl
  parameters := rfl
  operators := Nat.le_refl _
  join _ _ := trivial
  refl h := h
  tooDeep := .inr ⟨trivial, rfl⟩
  tooManyOperators := .inr rfl

/-- **A grammar is refused at one place only.** -/
theorem Grammar.Comparison.earlier_of_run {settings : Settings} {o : Option QueryOption} {α : Type}
    {p : Parse α} (hp : ((single settings).withOption o).Agree Eq p p) {depth : Nat} {s : Slice}
    {f : Failure} (h : Grammar.run p depth s = .error (.refused f)) : f.cause.earlier = none := by
  have hself : (single settings).Results Eq (Grammar.run p depth s)
      (Grammar.run p depth (s.shift 0)) :=
    Comparison.run hp ⟨Nat.le_refl _, fun _ => rfl⟩ fun _ _ => trivial
  rw [h] at hself
  generalize Grammar.run p depth (s.shift 0) = y at hself
  cases hself with
  | @error _ e' he =>
    cases e' with
    | refused f' => exact he.1
    | exhausted | overdrawn => exact he.elim
  | excused _ he => exact he.elim

end OData
