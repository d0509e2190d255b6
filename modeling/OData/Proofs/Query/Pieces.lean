import OData.Proofs.Query.Places
import OData.Proofs.Text.Joined
import OData.Proofs.Token.Exposed

/-!
# Splitting and joining

A text is cut behind the first part of it that leaves nothing open and has an exposed separator
after it, and what is left is a text of its own (`Nesting.cut_eq_some_iff`).  So splitting is
cutting again and again, and the pieces are told from everything else by four properties
(`IsSplit`): there is one at least, joined they are the text, none of them exposes a separator, and
all but the last leave nothing open.  The last may: a quote or a parenthesis that is never closed
hides all separators behind it.

Splitting and joining are thus inverse to each other, and the places of the pieces are where
joining puts them (`Slice.split_joined_inverse`).
-/
namespace OData
open Text

namespace Text.Nesting
variable {sep : Char} {n : Nesting} {s a b : List Char}

/-! ## Cutting -/

/-- A part that is cut off exposes no separator and leaves nothing open. -/
theorem unexposed_of_cut (h : cut sep n s = some (a, b)) :
    cut sep n a = none ∧ n.after a = start := by
  induction s generalizing n a with
  | nil => cases h
  | cons c s ih =>
    rw [cut] at h
    split at h
    · next hc =>
      cases h
      rw [Bool.and_eq_true] at hc
      exact ⟨rfl, exposes_eq_start hc.1⟩
    · next hc =>
      obtain ⟨⟨a', b'⟩, hcut, he⟩ := Option.map_eq_some_iff.1 h
      cases he
      obtain ⟨hnone, hafter⟩ := ih hcut
      exact ⟨by rw [cut, if_neg hc, hnone]; rfl, hafter⟩

/-- **Where a text is cut**: behind a part that exposes no separator and leaves nothing open, if
a separator follows it. -/
theorem cut_eq_some_iff (hsep : IsSeparator sep) :
    cut sep n s = some (a, b) ↔ s = a ++ sep :: b ∧ cut sep n a = none ∧ n.after a = start := by
  constructor
  · exact fun h => ⟨Slice.text_of_cut h, unexposed_of_cut h⟩
  · rintro ⟨rfl, ha, hafter⟩
    rw [cut_append ha, hafter, cut_cons hsep, Option.map_some, List.append_nil]

/-- Splitting is cutting again and again. -/
theorem split_of_cut (hsep : IsSeparator sep) (h : cut sep start s = some (a, b)) :
    split sep s = a :: split sep b := by
  obtain ⟨rfl, ha, hafter⟩ := (cut_eq_some_iff hsep).1 h
  exact split_append hsep ha hafter

theorem unexposed_iff (pos : Nat) :
    Unexposed sep s ↔ ∀ x ∈ exposed start pos s, x.2 ≠ sep := by
  have hfind := cut_eq_find sep start pos s
  have hnone : Unexposed sep s ↔ ((exposed start pos s).find? fun x => x.2 == sep) = none := by
    rw [Unexposed, ← Option.map_eq_none_iff (f := fun p => pos + byteLength p.1), hfind,
      Option.map_eq_none_iff]
  rw [hnone, List.find?_eq_none]
  simp

end Text.Nesting

/-! ## Pieces -/

/-- **The pieces of a text between its separators.** -/
structure IsSplit (sep : Char) (s : List Char) (ps : List (List Char)) : Prop where
  ne_nil : ps ≠ []
  joined : joined sep ps = s
  unexposed : ∀ p ∈ ps, Unexposed sep p
  ends : ∀ p ∈ ps.dropLast, Nesting.start.after p = Nesting.start

section Splitting
variable {sep : Char} {s : List Char} {ps : List (List Char)}

/-- What a text is split into are pieces of it.  The induction is on the text, which gets shorter
with every cut. -/
theorem isSplit_split (hsep : Nesting.IsSeparator sep) (s : List Char) :
    IsSplit sep s (Nesting.split sep s) := by
  cases hcut : Nesting.cut sep Nesting.start s with
  | none =>
    rw [Nesting.split_of_cut_eq_none hcut]
    exact ⟨by simp, rfl, List.forall_mem_singleton.2 hcut, by simp⟩
  | some p =>
    obtain ⟨a, b⟩ := p
    obtain ⟨hs, ha, hafter⟩ := (Nesting.cut_eq_some_iff hsep).1 hcut
    have hb := isSplit_split hsep b
    rw [Nesting.split_of_cut hsep hcut]
    refine ⟨by simp, ?_, List.forall_mem_cons.2 ⟨ha, hb.unexposed⟩, ?_⟩
    · rw [joined_cons hb.ne_nil, hb.joined, hs]
    · rw [List.dropLast_cons_of_ne_nil hb.ne_nil]
      exact List.forall_mem_cons.2 ⟨hafter, hb.ends⟩
termination_by s.length
decreasing_by
  rw [hs, List.length_append, List.length_cons]
  omega

/-- A text is split into its pieces and nothing else. -/
theorem split_eq_iff (hsep : Nesting.IsSeparator sep) :
    Nesting.split sep s = ps ↔ IsSplit sep s ps := by
  constructor
  · rintro rfl
    exact isSplit_split hsep s
  · rintro ⟨hne, rfl, hunexposed, hends⟩
    exact split_joined_of_ends hsep hne hunexposed hends

end Splitting

/-! ## Places -/

namespace Slice
variable {sep : Char} {pos : Nat} {before after : List Slice} {part : Slice}
  {ts : List (List Char)}

/-- **The text in front of a piece**: the pieces before it, each with its separator. -/
def textBefore (sep : Char) (before : List Slice) : List Char :=
  before.flatMap fun p => p.text ++ [sep]

/-- The text behind a piece: the pieces after it, each with its separator. -/
def textAfter (sep : Char) (after : List Slice) : List Char :=
  after.flatMap fun p => sep :: p.text

@[simp] theorem textBefore_nil : textBefore sep [] = [] := rfl

@[simp] theorem textBefore_cons (part : Slice) (before : List Slice) :
    textBefore sep (part :: before) = part.text ++ sep :: textBefore sep before := by
  simp [textBefore]

@[simp] theorem textAfter_cons (part : Slice) (after : List Slice) :
    textAfter sep (part :: after) = sep :: (part.text ++ textAfter sep after) := by
  simp [textAfter]

theorem map_text_place (sep : Char) (pos : Nat) (ts : List (List Char)) :
    (place sep pos ts).map Slice.text = ts := by
  induction ts generalizing pos with
  | nil => rfl
  | cons t ts ih => rw [place, List.map_cons, ih]

/-- A piece stands where the text in front of it ends. -/
theorem start_of_place (h : place sep pos ts = before ++ part :: after) :
    part.start = pos + byteLength (textBefore sep before) := by
  induction before generalizing pos ts with
  | nil =>
    cases ts with
    | nil => cases h
    | cons t ts =>
      rw [place, List.nil_append] at h
      rw [← (List.cons.inj h).1]
      rfl
  | cons p before ih =>
    cases ts with
    | nil => cases h
    | cons t ts =>
      rw [place, List.cons_append] at h
      obtain ⟨rfl, hrest⟩ := List.cons.inj h
      simp only [ih hrest, textBefore_cons, byteLength_append, byteLength_cons, Nat.add_assoc]

theorem joined_map_text (sep : Char) (before : List Slice) (part : Slice) (after : List Slice) :
    joined sep ((before ++ part :: after).map Slice.text) =
      textBefore sep before ++ part.text ++ textAfter sep after := by
  induction before generalizing part after with
  | nil =>
    rw [List.nil_append, textBefore_nil, List.nil_append]
    induction after generalizing part with
    | nil => exact (List.append_nil _).symm
    | cons p after ih => rw [List.map_cons, joined_cons (by simp), ih, textAfter_cons]
  | cons p before ih =>
    rw [List.cons_append, List.map_cons, joined_cons (by simp), ih, textBefore_cons]
    simp only [List.append_assoc, List.cons_append]

theorem isSeparator_of_mem (h : sep ∈ ['&', ';', ',']) : Nesting.IsSeparator sep := by
  simp only [List.mem_cons, List.not_mem_nil, or_false] at h
  rcases h with rfl | rfl | rfl
  · exact Nesting.isSeparator_ampersand
  · exact Nesting.isSeparator_semicolon
  · exact Nesting.isSeparator_comma

/-- **Splitting and joining are inverse.**  The pieces of a slice are joined to its text again, each
stands where the text in front of it ends, none exposes a separator, and all but the last leave
nothing open.  Conversely, texts with these two properties are what the text joined from them is
split into. -/
theorem split_joined_inverse (hsep : sep ∈ ['&', ';', ',']) :
    (∀ s : Slice,
      joined sep ((s.split sep).map Slice.text) = s.text ∧
      (∀ before part after, s.split sep = before ++ part :: after →
        s.text = textBefore sep before ++ part.text ++ textAfter sep after ∧
        part.span = ⟨s.start + byteLength (textBefore sep before),
          s.start + byteLength (textBefore sep before ++ part.text)⟩) ∧
      (∀ part ∈ s.split sep, ∀ x ∈ Nesting.start.exposed part.start part.text, x.2 ≠ sep) ∧
      ∀ part ∈ (s.split sep).dropLast, Nesting.start.after part.text = Nesting.start) ∧
    ∀ (ps : List (List Char)) (pos : Nat), ps ≠ [] →
      (∀ p ∈ ps, ∀ x ∈ Nesting.start.exposed 0 p, x.2 ≠ sep) →
      (∀ p ∈ ps.dropLast, Nesting.start.after p = Nesting.start) →
      ((⟨joined sep ps, pos⟩ : Slice).split sep).map Slice.text = ps := by
  have hsep := isSeparator_of_mem hsep
  refine ⟨fun s => ?_, fun ps pos hne hunexposed hends => ?_⟩
  · have htexts : (s.split sep).map Slice.text = Nesting.split sep s.text := map_text_place ..
    have hsplit := isSplit_split hsep s.text
    rw [← htexts] at hsplit
    refine ⟨hsplit.joined, fun before part after hparts => ⟨?_, ?_⟩, fun part hpart => ?_,
      fun part hpart => ?_⟩
    · rw [← joined_map_text, ← hparts, hsplit.joined]
    · rw [Slice.span, Slice.stop, start_of_place hparts, byteLength_append, Nat.add_assoc]
    · exact (Nesting.unexposed_iff part.start).1
        (hsplit.unexposed _ (List.mem_map_of_mem hpart))
    · refine hsplit.ends _ ?_
      rw [← List.map_dropLast]
      exact List.mem_map_of_mem hpart
  · rw [Slice.split, map_text_place, split_eq_iff hsep]
    exact ⟨hne, rfl, fun p hp => (Nesting.unexposed_iff 0).2 (hunexposed p hp), hends⟩

/-- Three texts with semicolons in them: in a group, in quotes, and behind a parenthesis that is
never closed. -/
theorem split_hidden :
    ((Slice.ofString "é(;);';';(b;" 5).split ';').map Slice.toString = ["é(;)", "';'", "(b;"] ∧
      ∀ part ∈ ((Slice.ofString "é(;);';';(b;" 5).split ';').dropLast,
        Nesting.start.after part.text = Nesting.start := by
  have hsep : ';' ∈ ['&', ';', ','] := by decide
  obtain ⟨hslices, htexts⟩ := split_joined_inverse hsep
  refine ⟨?_, (hslices _).2.2.2⟩
  have hparts := htexts ["é(;)".toList, "';'".toList, "(b;".toList] 5 (by decide) (by decide)
    (by decide)
  have hstrings := congrArg (List.map String.ofList) hparts
  rw [List.map_map] at hstrings
  exact hstrings

end Slice
end OData
