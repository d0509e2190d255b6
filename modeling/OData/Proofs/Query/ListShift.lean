import OData.Proofs.Query.Agreement

/-!
# Option lists at another place

An option list that stands `k` bytes further on is read as the same query, and every
failure is the same but for its places, all of which are `k` bytes further on.
-/
namespace OData
open Grammar Options

/-- **The comparison of a text with the same text `k` bytes further on.** -/
def Grammar.Comparison.shift (ctx : Context) (k : Nat) : Comparison where
  left := ctx
  right := ctx
  place p p' := p' = p.shift k
  cause c c' := c' = c.shift k
  excused _ := False
  even := True
  option := rfl
  parameters := rfl
  operators := Nat.le_refl _
  join := by
    rintro a b _ _ rfl rfl
    exact Span.join_shift a b
  refl h := (Cause.shift_of_earlier h).symm
  tooDeep := .inr ⟨trivial, rfl⟩
  tooManyOperators := .inr rfl

section Shift
variable {ctx : Context} {k : Nat} {α : Type}

theorem repeats_shift : (Comparison.shift ctx k).Repeats k := ⟨fun _ => rfl, fun _ => rfl⟩

theorem covers_shift (s : Slice) : (Comparison.shift ctx k).Covers k s := fun _ _ => rfl

theorem stop_shift {e e' : Stop} (h : (Comparison.shift ctx k).Stops e e') : e' = e.shift k := by
  cases e with
  | refused f =>
    cases e' with
    | refused f' =>
      obtain ⟨c, p⟩ := f
      obtain ⟨c', p'⟩ := f'
      obtain ⟨hc, hp⟩ := h
      obtain rfl : c' = c.shift k := hc
      obtain rfl : p' = p.shift k := hp
      rfl
    | exhausted | overdrawn => exact h.elim
  | exhausted =>
    cases e' with
    | exhausted => rfl
    | refused | overdrawn => exact h.elim
  | overdrawn =>
    cases e' with
    | overdrawn => rfl
    | refused | exhausted => exact h.elim

theorem results_shift {x y : Except Stop α} :
    (Comparison.shift ctx k).Results Eq x y ↔ y = x.mapError (Stop.shift k) := by
  constructor
  · intro h
    cases h with
    | ok hab =>
      subst hab
      rfl
    | error he =>
      rw [stop_shift he]
      rfl
    | @excused e _ he => cases e <;> exact he.elim
  · rintro rfl
    cases x with
    | ok a => exact .ok rfl
    | error e =>
      refine .error ?_
      cases e with
      | refused f => exact ⟨rfl, rfl⟩
      | exhausted | overdrawn => trivial

end Shift

namespace Options
variable {k : Nat} {settings : Settings} {depth : Nat} {nested : Slice → Except Stop Query}

/-- What reads a slice reads it further on, with its failures further on. -/
def Shifts {α : Type} (k : Nat) (f : Slice → Except Stop α) : Prop :=
  ∀ s, f (s.shift k) = (f s).mapError (Stop.shift k)

/-- What reads a slice further on is compared with itself. -/
theorem nests_shift : (Comparison.shift ⟨settings, none⟩ k).Nests k nested nested ↔
    Shifts k nested :=
  ⟨fun h s => results_shift.1 (h s (covers_shift s)), fun h s _ => results_shift.2 (h s)⟩

theorem optionValue_shift (hn : Shifts k nested) (a : Assignment) :
    optionValue settings depth nested (a.shift k) =
      (optionValue settings depth nested a).mapError (Stop.shift k) :=
  results_shift.1 (Comparison.optionValue (W := .shift ⟨settings, none⟩ k) repeats_shift
    ⟨Nat.le_refl _, fun _ => rfl⟩ (nests_shift.2 hn) (covers_shift _) rfl)

theorem assignAll_shift {value : Assignment → Except Stop OptionValue}
    (hv : ∀ a, value (a.shift k) = (value a).mapError (Stop.shift k))
    (seen : List (QueryOption × Span)) (q : Query) (items : List Slice) :
    assignAll value (seen.map fun p => (p.1, p.2.shift k)) q (items.map (Slice.shift k)) =
      (assignAll value seen q items).mapError (Stop.shift k) :=
  results_shift.1 (Comparison.assignAll (W := .shift ⟨Settings.standard, none⟩ k) repeats_shift
    (fun a _ _ => results_shift.2 (hv a)) (fun _ _ => rfl) q fun t _ => covers_shift t)

/-- A list in brackets is read further on as it is read where it stands. -/
theorem nestedList_shift (k : Nat) {room : Nat} (hroom : room ≤ settings.maxDepth) :
    Shifts k (nestedList settings room) :=
  nests_shift.1 (Comparison.nestedList (W := .shift ⟨settings, none⟩ k) repeats_shift hroom hroom
    (Nat.le_refl _) (fun _ => rfl))

/-- An option list is read further on as it is read where it stands, with its failures
further on. -/
theorem optionList_shift (k : Nat) (settings : Settings) {room : Nat}
    (hroom : room ≤ settings.maxDepth) (sep : Char) : Shifts k (optionList settings room sep) :=
  nests_shift.1 (Comparison.optionList (W := .shift ⟨settings, none⟩ k) repeats_shift hroom hroom
    (Nat.le_refl _) (fun _ => rfl) sep)

end Options

end OData
