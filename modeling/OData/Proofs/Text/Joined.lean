import OData.Proofs.Text.Nesting

/-!
# Texts between separators

Texts are joined with a separator between each two.  If each of them stays whole, which
is to say that it exposes no separator and leaves nothing open, the joined text is split
into the same texts again.
-/
namespace OData
open Text

/-- Texts with a separator between each two. -/
def joined (sep : Char) : List (List Char) → List Char
  | [] => []
  | [t] => t
  | t :: ts => t ++ sep :: joined sep ts

/-- A text that stays whole between separators: it exposes none and leaves nothing open. -/
def Text.Whole (sep : Char) (s : List Char) : Prop :=
  Nesting.start.after s = Nesting.start ∧ Unexposed sep s

theorem Text.Fits.whole {sep : Char} {s : List Char} (h : Fits sep s) : Whole sep s :=
  ⟨h.1.after, h.2⟩

variable {sep : Char} {t : List Char} {ts : List (List Char)}

theorem joined_cons (hne : ts ≠ []) : joined sep (t :: ts) = t ++ sep :: joined sep ts := by
  cases ts with
  | nil => exact absurd rfl hne
  | cons => rfl

theorem head?_joined {c : Char} (h : t.head? = some c) :
    (joined sep (t :: ts)).head? = some c := by
  cases ts with
  | nil => exact h
  | cons u ts => rw [joined_cons (by simp), List.head?_append, h, Option.some_or]

/-- The joined text, as the list of its characters. -/
theorem joined_eq_intercalate : joined sep ts = [sep].intercalate ts := by
  induction ts with
  | nil => rfl
  | cons t ts ih =>
    by_cases hne : ts = []
    · subst hne
      exact List.intercalate_singleton.symm
    · rw [joined_cons hne, List.intercalate_cons_of_ne_nil hne, ih, List.append_assoc]
      rfl

/-- Texts that are joined with a separator, as lists of characters. -/
theorem toList_intercalate {mark : String} (h : mark.toList = [sep]) (ts : List String) :
    (mark.intercalate ts).toList = joined sep (ts.map String.toList) := by
  rw [String.toList_intercalate, h, joined_eq_intercalate]

theorem length_le_joined (h : t ∈ ts) : t.length ≤ (joined sep ts).length := by
  induction ts with
  | nil => cases h
  | cons u ts ih =>
    by_cases hne : ts = []
    · subst hne
      rw [List.mem_singleton.1 h]
      exact Nat.le_refl _
    · rw [joined_cons hne, List.length_append, List.length_cons]
      rcases List.mem_cons.1 h with rfl | h
      · omega
      · have := ih h
        omega

/-- What holds of all texts and of the separator, and of whatever is put together from such,
holds of the joined text. -/
theorem joined_induction {P : List Char → Prop} (nil : P []) (mark : P [sep])
    (append : ∀ {s t}, P s → P t → P (s ++ t)) (h : ∀ t ∈ ts, P t) : P (joined sep ts) := by
  induction ts with
  | nil => exact nil
  | cons t ts ih =>
    obtain ⟨ht, hts⟩ := List.forall_mem_cons.1 h
    by_cases hne : ts = []
    · subst hne
      exact ht
    · rw [joined_cons hne]
      exact append ht (append mark (ih hts))

/-- A character that is in none of the texts and is not the separator is not in the joined text. -/
theorem notMem_joined {c : Char} (hc : c ≠ sep) (h : ∀ t ∈ ts, c ∉ t) : c ∉ joined sep ts :=
  joined_induction (P := fun s => c ∉ s) List.not_mem_nil (by simpa using hc)
    (fun hs ht hmem => (List.mem_append.1 hmem).elim hs ht) h

/-- Texts that are joined are taken apart again, if none exposes a separator and all but the
last leave nothing open. -/
theorem split_joined_of_ends (hsep : Nesting.IsSeparator sep) (hne : ts ≠ [])
    (h : ∀ t ∈ ts, Unexposed sep t)
    (hends : ∀ t ∈ ts.dropLast, Nesting.start.after t = Nesting.start) :
    Nesting.split sep (joined sep ts) = ts := by
  induction ts with
  | nil => exact absurd rfl hne
  | cons t ts ih =>
    obtain ⟨ht, hts⟩ := List.forall_mem_cons.1 h
    by_cases hne' : ts = []
    · subst hne'
      exact Nesting.split_of_cut_eq_none ht
    · rw [List.dropLast_cons_of_ne_nil hne'] at hends
      obtain ⟨hend, hends⟩ := List.forall_mem_cons.1 hends
      rw [joined_cons hne', Nesting.split_append hsep ht hend, ih hne' hts hends]

/-- Texts that stay whole are taken apart again. -/
theorem split_joined (hsep : Nesting.IsSeparator sep) (hne : ts ≠ [])
    (h : ∀ t ∈ ts, Whole sep t) : Nesting.split sep (joined sep ts) = ts :=
  split_joined_of_ends hsep hne (fun t ht => (h t ht).2)
    fun t ht => (h t (List.dropLast_subset ts ht)).1

/-- Texts that fit are joined to one that fits, by any other character that is plain. -/
theorem Text.Fits.joined {c : Char} (hc : Nesting.IsPlain c) (hsep : c ≠ sep)
    (h : ∀ t ∈ ts, Fits sep t) : Fits sep (joined c ts) :=
  joined_induction .nil (.of_isPlain (by simpa using ⟨hc, hsep⟩)) Fits.append h

theorem Text.IsClosed.joined {c : Char} (hc : Nesting.IsPlain c) (h : ∀ t ∈ ts, IsClosed t) :
    IsClosed (joined c ts) :=
  joined_induction .nil (.of_isPlain (by simpa using hc)) IsClosed.append h

end OData
