import Mathlib.Tactic.MkIffOfInductiveProp
import OData.Proofs.Token.Lexing

/-!
# Tokens with gaps between them

A sequence of kinds can be laid out as a text in many ways: each kind as it is written, with any
gap between two of them and, if one likes, at both ends.  Whatever the gaps are, the text is read
as these kinds and the end of the text, without failures (`Slice.ofSlice_layOut`).

No gap goes on with a token, so each token is read whole, and no token begins with a gap, so each
gap is.  Kinds that would run together without a gap, or be read as another kind, are kept apart
by any gap at all.
-/
namespace OData
open Text

/-- White space, as it may stand between tokens. -/
def IsGaps (g : List Char) : Prop := ∀ c ∈ g, isGap c = true

instance : DecidablePred IsGaps := fun g => List.decidableBAll (isGap · = true) g

/-- **The text of kinds**, each with the gap behind it. -/
def layOut (ks : List (Kind × List Char)) : List Char := ks.flatMap fun p => p.1.written ++ p.2

/-- **A layout of kinds**: a gap in front, and each kind with the gap behind it.  All of them can
be spelled, and no gap between two of them is empty. -/
@[mk_iff]
structure IsLayout (lead : List Char) (ks : List (Kind × List Char)) : Prop where
  lead : IsGaps lead
  spelled : ∀ p ∈ ks, p.1.Spelled
  gaps : ∀ p ∈ ks, IsGaps p.2
  between : ∀ p ∈ ks.dropLast, p.2 ≠ []

instance (lead : List Char) (ks : List (Kind × List Char)) : Decidable (IsLayout lead ks) :=
  decidable_of_iff _ (isLayout_iff lead ks).symm

namespace Lexeme
variable {lead g r : List Char} {ks : List (Kind × List Char)}

/-- The lexeme of a gap, if it is not empty. -/
def ofGap (g : List Char) : List Lexeme := if g = [] then [] else [gap g]

/-- A gap is read as its lexeme, if none follows. -/
theorem ofText_ofGap (hg : IsGaps g) (hr : ∀ c ∈ r.head?, isGap c = false) :
    ofText (g ++ r) = ofGap g ++ ofText r := by
  by_cases hne : g = []
  · rw [hne, ofGap, if_pos rfl]
    rfl
  · rw [ofText_gap_append hne hg hr, ofGap, if_neg hne]
    rfl

/-- No kind goes on with what is laid out behind it. -/
theorem leaves_layOut {p : Kind × List Char} (hg : IsGaps p.2)
    (hbetween : ks ≠ [] → p.2 ≠ []) : p.1.Leaves (p.2 ++ layOut ks) := by
  by_cases hne : p.2 = []
  · have hks : ks = [] := Decidable.not_not.1 fun hks => hbetween hks hne
    rw [hne, hks]
    exact Kind.Leaves.nil p.1
  · obtain ⟨c, t, ht⟩ := List.exists_cons_of_ne_nil hne
    rw [ht] at hg ⊢
    exact p.1.leaves_of_isGap (hg c (List.mem_cons_self ..)) _

/-- What is laid out does not begin with a gap. -/
theorem head?_layOut (hspelled : ∀ p ∈ ks, p.1.Spelled) :
    ∀ c ∈ (layOut ks).head?, isGap c = false := by
  cases ks with
  | nil => nofun
  | cons p ks =>
    show ∀ c ∈ (p.1.written ++ p.2 ++ layOut ks).head?, _
    rw [List.append_assoc]
    exact (hspelled p (List.mem_cons_self ..)).head?_append _

/-- Kinds that are laid out are read, each with the gap behind it. -/
theorem ofText_layOut (h : IsLayout [] ks) :
    ofText (layOut ks) = ks.flatMap fun p => token p.1 :: ofGap p.2 := by
  induction ks with
  | nil => exact ofText.eq_1
  | cons p ks ih =>
    obtain ⟨-, hspelled, hgaps, hbetween⟩ := h
    obtain ⟨hp, hspelled⟩ := List.forall_mem_cons.1 hspelled
    obtain ⟨hg, hgaps⟩ := List.forall_mem_cons.1 hgaps
    have hnext : ks ≠ [] → p.2 ≠ [] := by
      intro hks
      rw [List.dropLast_cons_of_ne_nil hks] at hbetween
      exact hbetween p (List.mem_cons_self ..)
    have hothers : IsLayout [] ks := by
      refine ⟨List.forall_mem_nil _, hspelled, hgaps, fun q hq => hbetween q ?_⟩
      by_cases hks : ks = []
      · rw [hks] at hq
        cases hq
      · rw [List.dropLast_cons_of_ne_nil hks]
        exact List.mem_cons_of_mem _ hq
    have htext : layOut (p :: ks) = p.1.written ++ (p.2 ++ layOut ks) := List.append_assoc ..
    rw [htext, ofText_written_append hp (leaves_layOut hg hnext),
      ofText_ofGap hg (head?_layOut hspelled), ih hothers]
    rfl

theorem stray_notMem_ofGap (t g : List Char) : stray t ∉ ofGap g := by
  unfold ofGap
  split <;> simp

theorem filterMap_ofGap (g : List Char) : (ofGap g).filterMap kind? = [] := by
  unfold ofGap
  split <;> rfl

/-- The tokens among the lexemes that are laid out. -/
theorem filterMap_laidOut (ks : List (Kind × List Char)) :
    (ks.flatMap fun p => token p.1 :: ofGap p.2).filterMap kind? = ks.map Prod.fst := by
  induction ks with
  | nil => rfl
  | cons p ks ih =>
    have hkind : kind? (token p.1) = some p.1 := rfl
    rw [List.flatMap_cons, List.cons_append, List.filterMap_cons_some hkind,
      List.filterMap_append, filterMap_ofGap, ih]
    rfl

end Lexeme

/-- **Kinds are read again from every layout of them**, wherever it stands, and then the end of
the text, without failures. -/
theorem Slice.ofSlice_layOut {lead : List Char} {ks : List (Kind × List Char)}
    (h : IsLayout lead ks) (pos : Nat) :
    (Lexing.ofSlice ⟨lead ++ layOut ks, pos⟩).tokens.map Token.kind = ks.map Prod.fst ++ [.eof] ∧
      (Lexing.ofSlice ⟨lead ++ layOut ks, pos⟩).failures = [] := by
  have hread : Lexeme.ofText (lead ++ layOut ks) =
      Lexeme.ofGap lead ++ ks.flatMap fun p => .token p.1 :: Lexeme.ofGap p.2 := by
    rw [Lexeme.ofText_ofGap h.lead (Lexeme.head?_layOut h.spelled),
      Lexeme.ofText_layOut ⟨nofun, h.spelled, h.gaps, h.between⟩]
  constructor
  · show (Lexing.tokensFrom pos (Lexeme.ofText (lead ++ layOut ks))).map Token.kind = _
    rw [Lexing.kinds_tokensFrom, hread, List.filterMap_append, Lexeme.filterMap_ofGap,
      Lexeme.filterMap_laidOut]
    rfl
  · show Lexing.failuresFrom pos false (Lexeme.ofText (lead ++ layOut ks)) = []
    rw [hread]
    refine Lexing.failuresFrom_eq_nil (fun t ht => ?_) pos false
    rcases List.mem_append.1 ht with ht | ht
    · exact Lexeme.stray_notMem_ofGap t lead ht
    · obtain ⟨p, -, ht⟩ := List.mem_flatMap.1 ht
      rcases List.mem_cons.1 ht with ht | ht
      · cases ht
      · exact Lexeme.stray_notMem_ofGap t p.2 ht

/-- Kinds that would run together: numbers that go on as others, a word behind the number that
ends like it, and strings of quotes. -/
def crowded : List (Kind × List Char) :=
  [(.integer "1", [' ']), (.decimal "-1.5", ['\t']), (.double "1.5e+07", ['\r', '\n']),
    (.dot, [' ']), (.negativeInfinity, ['\n']), (.word "INF", [' ', ' ']),
    (.string "''", ['\t']), (.string "", [' ']), (.parameter "@p", [' ']), (.word "$it", [])]

/-- The text of one layout of them. -/
def crowdedText : List Char := "\n1 -1.5\t1.5e+07\r\n. -INF\nINF  ''''''\t'' @p $it".toList

theorem kinds_crowded :
    IsLayout ['\n'] crowded ∧
      (Lexing.ofSlice ⟨crowdedText, 3⟩).tokens.map Token.kind =
        [.integer "1", .decimal "-1.5", .double "1.5e+07", .dot, .negativeInfinity, .word "INF",
          .string "''", .string "", .parameter "@p", .word "$it", .eof] ∧
      (Lexing.ofSlice ⟨crowdedText, 3⟩).failures = [] := by
  have hlayout : IsLayout ['\n'] crowded := by decide +kernel
  have htext : crowdedText = ['\n'] ++ layOut crowded := by decide +kernel
  rw [htext]
  exact ⟨hlayout, Slice.ofSlice_layOut hlayout 3⟩

end OData
