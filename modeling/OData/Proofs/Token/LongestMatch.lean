import OData.Proofs.Canonical.Rendering

/-!
# Longest matches

How a text is taken apart, said without the readers that do it.  At every place behind a gap
there is one rule.  In front of anything but a quote, the token is the longest match of all the
kinds that can be spelled, and where none matches, the one character is stray.  In front of a
quote, the token is the string up to the first quote that is not half of a pair, and where no
quote closes it, all the rest of the text is stray, even if a shorter string could be found by
taking a pair apart.

`Lexeme.Scans` states these rules, and a text is scanned into the lexemes that are read from it
and into no others (`Lexeme.scans_iff_eq_ofText`).  Behind it are two facts about one token: a
match that is shorter than another is not what is read (`Kind.Fronts.exists_munch`), and no two
kinds are spelled alike (`Kind.Spelled.eq_of_written`).

`Lexing.Reports` states what becomes of the lexemes: tokens stand at their places, and stray
characters up to the next token are one failure.  Together the two relations say what reading a
slice gives, and nothing else fits them (`Slice.scans_iff`).
-/
namespace OData
open Text

/-- What stands behind all that has a property does not have it. -/
theorem eq_false_of_head?_dropWhile {α : Type} {p : α → Bool} {l : List α} {a : α}
    (h : a ∈ (l.dropWhile p).head?) : p a = false := by
  have hhead := List.head?_dropWhile_not p l
  rwa [Option.mem_def.1 h] at hhead

/-! ## Matches -/

namespace Kind

/-- A kind matches the front of a text: it can be spelled, it is no string, and the text
begins with what it is written as. -/
structure Fronts (k : Kind) (s : List Char) : Prop where
  spelled : k.Spelled
  not_string : k.isString = false
  isPrefix : k.written <+: s

/-- A kind is the longest match at the front of a text: all others that match are shorter. -/
structure IsLongest (k : Kind) (s : List Char) : Prop where
  fronts : k.Fronts s
  longest : ∀ k' : Kind, k'.Fronts s → k' ≠ k → k'.written.length < k.written.length

/-- **No two kinds are spelled alike.** -/
theorem Spelled.eq_of_written {k k' : Kind} (h : k.Spelled) (h' : k'.Spelled)
    (hw : k.written = k'.written) : k = k' := by
  have hm := k.spelled_iff.1 h
  rw [hw, k'.spelled_iff.1 h'] at hm
  exact (Prod.mk.inj (Option.some.inj hm)).1.symm

/-- A name goes on for as long as it can. -/
theorem exists_longest_name {s : List Char} (h : IsNameText s) (r : List Char) :
    ∃ t rest, s ++ r = t ++ rest ∧ IsNameText t ∧ s.length ≤ t.length ∧
      ∀ c ∈ rest.head?, isWordPart c = false := by
  obtain ⟨c, w, rfl, hc, hw⟩ := h
  refine ⟨c :: (w ++ r.takeWhile isWordPart), r.dropWhile isWordPart, ?_, ?_, ?_, ?_⟩
  · rw [List.cons_append, List.cons_append, List.append_assoc, List.takeWhile_append_dropWhile]
  · refine ⟨c, _, rfl, hc, fun d hd => ?_⟩
    rcases List.mem_append.1 hd with hd | hd
    · exact hw d hd
    · exact List.all_eq_true.1 List.all_takeWhile d hd
  · simp only [List.length_cons, List.length_append]
    omega
  · exact fun d hd => eq_false_of_head?_dropWhile hd

/-- Where a kind that is a name behind a sign matches, the one with the longest name is read. -/
theorem exists_munch_of_name {s : List Char} (sign : List Char) (kind : List Char → Kind)
    (hwritten : ∀ t, (kind t).written = sign ++ t)
    (hspelled : ∀ t, IsNameText t → (kind t).Spelled)
    (hleaves : ∀ t r, (∀ c ∈ r.head?, isWordPart c = false) → (kind t).Leaves r)
    (hs : IsNameText s) (r : List Char) :
    ∃ k rest, Lexeme.munch ((kind s).written ++ r) = some (k, rest) ∧
      (kind s).written.length ≤ k.written.length := by
  obtain ⟨t, rest, htext, ht, hlength, hrest⟩ := exists_longest_name hs r
  have hm := Lexeme.munch_append (hspelled t ht) (hleaves t rest hrest)
  rw [hwritten, List.append_assoc, ← htext, ← List.append_assoc, ← hwritten] at hm
  refine ⟨kind t, rest, hm, ?_⟩
  rw [hwritten, hwritten, List.length_append, List.length_append]
  exact Nat.add_le_add_left hlength _

/-- **Where a kind matches, a token at least as long is read.** -/
theorem Fronts.exists_munch {k : Kind} {s : List Char} (h : k.Fronts s) :
    ∃ k' rest, Lexeme.munch s = some (k', rest) ∧ k.written.length ≤ k'.written.length := by
  obtain ⟨hk, hs, r, rfl⟩ := h
  cases k with
  | string => cases hs
  | eof => exact hk.elim
  | integer text | decimal text | double text =>
    obtain ⟨form, t, rest, hm, hlength⟩ := Numeral.exists_munch hk r
    have hnumber : Lexeme.munchNumber (text.toList ++ r) =
        some (Lexeme.numberKind form (String.ofList t), rest) := by
      rw [Lexeme.munchNumber, hm]
      rfl
    refine ⟨_, _, Lexeme.munch_of_munchNumber hnumber, ?_⟩
    cases form <;> simpa [Lexeme.numberKind, written] using hlength
  | parameter name =>
    obtain ⟨t, hname, ht⟩ := hk
    obtain rfl : name = String.ofList ('@' :: t) := by rw [← hname, String.ofList_toList]
    exact exists_munch_of_name ['@'] (fun t => parameter (String.ofList ('@' :: t)))
      (fun _ => String.toList_ofList) (fun t ht => ⟨t, String.toList_ofList, ht⟩)
      (fun _ _ hrest => hrest) ht r
  | word text =>
    rcases hk with ht | ⟨t, htext, ht⟩
    · obtain ⟨t, rfl⟩ : ∃ t, text = String.ofList t := ⟨text.toList, String.ofList_toList.symm⟩
      rw [String.toList_ofList] at ht
      exact exists_munch_of_name [] (fun t => word (String.ofList t))
        (fun _ => String.toList_ofList) (fun t ht => .inl (by rwa [String.toList_ofList]))
        (fun _ _ hrest => hrest) ht r
    · obtain rfl : text = String.ofList ('$' :: t) := by rw [← htext, String.ofList_toList]
      exact exists_munch_of_name ['$'] (fun t => word (String.ofList ('$' :: t)))
        (fun _ => String.toList_ofList) (fun t ht => .inr ⟨t, String.toList_ofList, ht⟩)
        (fun _ _ hrest => hrest) ht r
  | _ => exact ⟨_, r, Lexeme.munch_append hk trivial, Nat.le_refl _⟩

end Kind

/-! ## One token -/

namespace Lexeme
variable {c : Char} {s r rest : List Char} {k : Kind}

/-- Only in front of a quote a string is read. -/
theorem not_string_of_munch (hc : c ≠ Quoted.mark) (h : munch (c :: s) = some (k, rest)) :
    k.isString = false := by
  obtain ⟨htext, -⟩ := takes_of_munch h
  cases k with
  | string content => exact absurd (List.cons.inj htext).1.symm hc
  | _ => rfl

/-- What is read is the longest match. -/
theorem isLongest_of_munch (hc : c ≠ Quoted.mark) (h : munch (c :: s) = some (k, rest)) :
    k.IsLongest (c :: s) := by
  obtain ⟨htext, -⟩ := takes_of_munch h
  have hfronts : k.Fronts (c :: s) :=
    ⟨spelled_of_munch h, not_string_of_munch hc h, rest, htext⟩
  refine ⟨hfronts, fun k' hk' hne => ?_⟩
  obtain ⟨k'', rest', hm, hle⟩ := hk'.exists_munch
  obtain rfl : k = k'' := (Prod.mk.inj (Option.some.inj (h.symm.trans hm))).1
  refine Nat.lt_of_le_of_ne hle fun hlength => hne ?_
  exact hk'.spelled.eq_of_written hfronts.spelled
    ((List.prefix_of_prefix_length_le hk'.isPrefix hfronts.isPrefix hle).eq_of_length hlength)

/-- In front of a quote nothing matches. -/
theorem not_fronts_mark : ¬ k.Fronts (Quoted.mark :: s) := by
  rintro ⟨hk, hs, r, htext⟩
  obtain ⟨d, w, hw⟩ := List.exists_cons_of_ne_nil hk.written_ne_nil
  have hmem : Quoted.mark ∈ k.written := by
    rw [hw] at htext ⊢
    rw [← (List.cons.inj htext).1]
    exact List.mem_cons_self ..
  rcases hk.mem_written hs hmem with h | h | h
  · exact absurd h (by decide)
  · exact absurd h (by decide)
  · cases h

/-- The longest match is read. -/
theorem munch_of_isLongest (h : k.IsLongest (k.written ++ r)) :
    munch (k.written ++ r) = some (k, r) := by
  obtain ⟨k', rest, hm, -⟩ := h.fronts.exists_munch
  obtain ⟨c, t, hw⟩ := List.exists_cons_of_ne_nil h.fronts.spelled.written_ne_nil
  have hc : c ≠ Quoted.mark := by
    rintro rfl
    have hfronts := h.fronts
    rw [hw] at hfronts
    exact not_fronts_mark hfronts
  have hlongest : k'.IsLongest (k.written ++ r) := by
    rw [hw, List.cons_append] at hm ⊢
    exact isLongest_of_munch hc hm
  have hkind : k' = k := by
    by_contra hne
    exact Nat.lt_asymm (h.longest k' hlongest.fronts hne)
      (hlongest.longest k h.fronts fun he => hne he.symm)
  subst hkind
  have htext : k'.written ++ rest = k'.written ++ r := (takes_of_munch hm).1
  rw [hm, List.append_cancel_left htext]

/-- Nothing is read where nothing matches, in front of anything but a quote. -/
theorem munch_eq_none_iff (hc : c ≠ Quoted.mark) :
    munch (c :: s) = none ↔ ∀ k : Kind, ¬ k.Fronts (c :: s) := by
  constructor
  · intro hnone k hk
    obtain ⟨k', rest, hm, -⟩ := hk.exists_munch
    rw [hnone] at hm
    cases hm
  · intro hnot
    cases hm : munch (c :: s) with
    | none => rfl
    | some p => exact absurd (isLongest_of_munch hc hm).fronts (hnot p.1)

/-- In front of a quote only a string is read. -/
theorem munch_mark (s : List Char) :
    munch (Quoted.mark :: s) =
      (Quoted.munch s).map fun p => (.string (String.ofList p.1), p.2) := by
  have hpunctuation : punctuation? Quoted.mark = none := by decide
  cases hm : Quoted.munch s with
  | some p => simp [munch, munchPunctuation, munchString, hpunctuation, hm]
  | none =>
    have hnumber := munchNumber_eq_none (c := Quoted.mark) (r := s) (by decide) (by decide)
    have hname : munchName (Quoted.mark :: s) = none := by rw [munchName, if_neg (by decide)]
    have hword : munchWord (Quoted.mark :: s) = none := by
      rw [munchWord]
      · rw [hname]
        rfl
      · rintro _ ⟨⟩
    have hinfinity : munchNegativeInfinity (Quoted.mark :: s) = none := rfl
    have hparameter : munchParameter (Quoted.mark :: s) = none := rfl
    simp [munch, munchPunctuation, munchString, hpunctuation, hm, hnumber, hinfinity, hparameter,
      hword]

/-! ## Whole texts -/

/-- **A text is scanned into lexemes.** -/
inductive Scans : List Char → List Lexeme → Prop
  /-- Nothing is left. -/
  | done : Scans [] []
  /-- White space is skipped as a whole. -/
  | gap {g r : List Char} {ls : List Lexeme} :
      g ≠ [] → (∀ c ∈ g, isGap c = true) → (∀ c ∈ r.head?, isGap c = false) →
      Scans r ls → Scans (g ++ r) (.gap g :: ls)
  /-- In front of anything but a quote, the token is the longest match. -/
  | token {k : Kind} {r : List Char} {ls : List Lexeme} :
      k.IsLongest (k.written ++ r) → Scans r ls → Scans (k.written ++ r) (.token k :: ls)
  /-- Where nothing matches, one character is stray. -/
  | stray {c : Char} {r : List Char} {ls : List Lexeme} :
      isGap c = false → c ≠ Quoted.mark → (∀ k : Kind, ¬ k.Fronts (c :: r)) →
      Scans r ls → Scans (c :: r) (.stray [c] :: ls)
  /-- In front of a quote, the token is the string up to the quote that closes it. -/
  | string {s body r : List Char} {ls : List Lexeme} :
      Quoted.Closes s body r → Scans r ls →
      Scans (Quoted.mark :: s) (.token (.string (String.ofList (Quoted.collapse body))) :: ls)
  /-- Where no quote closes it, all the rest is stray. -/
  | unclosed {s : List Char} :
      (∀ body r, ¬ Quoted.Closes s body r) → Scans (Quoted.mark :: s) [.stray (Quoted.mark :: s)]

/-- What a text is scanned into is read from it. -/
theorem Scans.ofText_eq {ls : List Lexeme} (h : Scans s ls) : ofText s = ls := by
  induction h with
  | done => rw [ofText]
  | gap hne hg hr _ ih => rw [ofText_gap_append hne hg hr, ih]
  | token hk _ ih => rw [ofText_of_munch_append hk.fronts.spelled (munch_of_isLongest hk), ih]
  | stray hgap hc hnot _ ih =>
    rw [ofText_of_munch_eq_none hgap ((munch_eq_none_iff hc).2 hnot), if_neg hc, ih]
  | string hcloses _ ih =>
    have hm := (munch_mark _).trans (congrArg _ hcloses.munch)
    rw [ofText_of_munch (by decide) hm, ih]
  | unclosed hnot =>
    have hm := (munch_mark _).trans (congrArg _ (Quoted.munch_eq_none_iff.2 hnot))
    rw [ofText_of_munch_eq_none (by decide) hm, if_pos rfl]

/-- A text is scanned into what is read from it. -/
theorem scans_ofText (s : List Char) : Scans s (ofText s) := by
  fun_induction ofText s with
  | case1 => exact .done
  | case2 c r hc ih =>
    have hgap : ∀ d ∈ c :: r.takeWhile isGap, isGap d = true :=
      List.forall_mem_cons.2 ⟨hc, fun d hd => List.all_eq_true.1 List.all_takeWhile d hd⟩
    have hscan := Scans.gap (List.cons_ne_nil c _) hgap (fun d => eq_false_of_head?_dropWhile) ih
    rwa [List.cons_append, List.takeWhile_append_dropWhile] at hscan
  | case3 c r hc k rest hm ih =>
    by_cases hmark : c = Quoted.mark
    · subst hmark
      rw [munch_mark] at hm
      obtain ⟨⟨content, rest'⟩, hread, he⟩ := Option.map_eq_some_iff.1 hm
      cases he
      obtain ⟨body, hcloses, rfl⟩ := Quoted.munch_eq_some_iff.1 hread
      exact .string hcloses ih
    · obtain ⟨htext, -⟩ := takes_of_munch hm
      have hlongest := isLongest_of_munch hmark hm
      rw [← htext] at hlongest ⊢
      exact .token hlongest ih
  | case4 r hc hm =>
    rw [munch_mark, Option.map_eq_none_iff] at hm
    exact .unclosed (Quoted.munch_eq_none_iff.1 hm)
  | case5 c r hc hm hmark ih =>
    exact .stray (Bool.eq_false_iff.2 hc) hmark ((munch_eq_none_iff hmark).1 hm) ih

/-- **A text is scanned into one sequence of lexemes**, which is the one that is read from it. -/
theorem scans_iff_eq_ofText {s : List Char} {ls : List Lexeme} : Scans s ls ↔ ls = ofText s :=
  ⟨fun h => h.ofText_eq.symm, fun h => h ▸ scans_ofText s⟩

end Lexeme

/-! ## What is reported -/

namespace Lexing
variable {pos : Nat} {text : List Char} {ls run : List Lexeme} {cause : Cause} {r : Lexing}

/-- What a run of stray characters fails for: a string that is not closed if a quote comes
first, and else the text of the run without the blanks at its end. -/
inductive Blames : List Char → Cause → Prop
  | unclosed (s : List Char) : Blames (Quoted.mark :: s) .unclosedString
  | stray {s : List Char} : s.head? ≠ some Quoted.mark →
      Blames s (.strayText (String.ofList (trimEnd s)))

/-- **What is reported of lexemes** that begin at a position. -/
inductive Reports : Nat → List Lexeme → Lexing → Prop
  /-- At the end there is the end of the text. -/
  | done (pos : Nat) : Reports pos [] ⟨[⟨.eof, Span.point pos⟩], []⟩
  /-- White space is not reported. -/
  | gap {pos : Nat} {g : List Char} {ls : List Lexeme} {r : Lexing} :
      Reports (pos + byteLength g) ls r → Reports pos (.gap g :: ls) r
  /-- A token is reported where it stands. -/
  | token {pos : Nat} {k : Kind} {ls : List Lexeme} {tokens : List Token}
      {failures : List Failure} :
      Reports (pos + byteLength k.written) ls ⟨tokens, failures⟩ →
      Reports pos (.token k :: ls)
        ⟨⟨k, ⟨pos, pos + byteLength k.written⟩⟩ :: tokens, failures⟩
  /-- Stray characters are one failure with all that stands between them and the next token; the
  blanks at its end do not belong to its place. -/
  | run {pos : Nat} {t text : List Char} {run ls : List Lexeme} {cause : Cause}
      {tokens : List Token} {failures : List Failure} :
      (∀ l ∈ run, isToken l = false) → (∀ l ∈ ls.head?, isToken l = true) →
      text = t ++ run.flatMap Lexeme.text → Blames text cause →
      Reports (pos + byteLength text) ls ⟨tokens, failures⟩ →
      Reports pos (.stray t :: (run ++ ls))
        ⟨tokens, ⟨cause, ⟨pos, pos + byteLength (trimEnd text)⟩⟩ :: failures⟩

/-- A quote is no blank, so a text begins with one just if it does without its last blanks. -/
theorem head?_trimEnd :
    (trimEnd text).head? = some Quoted.mark ↔ text.head? = some Quoted.mark := by
  obtain ⟨blanks, htext, hblanks⟩ := exists_append_of_trimEnd text
  generalize trimEnd text = shown at htext
  subst htext
  cases shown with
  | nil =>
    refine iff_of_false nofun fun h => ?_
    have hmark := hblanks _ (List.mem_of_mem_head? h)
    revert hmark
    decide
  | cons c shown => rfl

/-- The failure of a run blames what the run fails for. -/
theorem strayFailure_eq_of_blames (h : Blames text cause) :
    strayFailure ⟨text, pos⟩ = ⟨cause, ⟨pos, pos + byteLength (trimEnd text)⟩⟩ := by
  cases h with
  | unclosed s => exact if_pos (head?_trimEnd.2 rfl)
  | stray h => exact if_neg fun hshown => h (head?_trimEnd.1 hshown)

/-- There is something that a run fails for. -/
theorem exists_blames (text : List Char) : ∃ cause, Blames text cause := by
  by_cases h : text.head? = some Quoted.mark
  · obtain ⟨s, rfl⟩ := List.head?_eq_some_iff.1 h
    exact ⟨_, .unclosed s⟩
  · exact ⟨_, .stray h⟩

/-- What is no token leaves no token, and in a run it does not fail again. -/
theorem from_append (hrun : ∀ l ∈ run, isToken l = false) (pos : Nat) (ls : List Lexeme) :
    tokensFrom pos (run ++ ls) = tokensFrom (pos + byteLength (run.flatMap Lexeme.text)) ls ∧
      failuresFrom pos true (run ++ ls) =
        failuresFrom (pos + byteLength (run.flatMap Lexeme.text)) true ls := by
  induction run generalizing pos with
  | nil => exact ⟨rfl, rfl⟩
  | cons l run ih =>
    obtain ⟨hl, hothers⟩ := List.forall_mem_cons.1 hrun
    obtain ⟨htokens, hfailures⟩ := ih hothers (pos + byteLength l.text)
    rw [List.flatMap_cons, byteLength_append, ← Nat.add_assoc, ← htokens, ← hfailures]
    cases l with
    | token k => cases hl
    | gap g | stray t => exact ⟨rfl, rfl⟩

/-- A token ends a run. -/
theorem failuresFrom_of_head (h : ∀ l ∈ ls.head?, isToken l = true) (pos : Nat) :
    failuresFrom pos true ls = failuresFrom pos false ls := by
  cases ls with
  | nil => rfl
  | cons l ls =>
    cases l with
    | token k => rfl
    | gap g | stray t => cases h _ rfl

/-- Only what stands in front of the next token belongs to a run. -/
theorem takeWhile_run (hrun : ∀ l ∈ run, isToken l = false)
    (hls : ∀ l ∈ ls.head?, isToken l = true) :
    (run ++ ls).takeWhile (fun l => !isToken l) = run := by
  rw [List.takeWhile_append_of_pos fun l hl => by rw [hrun l hl]; rfl]
  cases ls with
  | nil => exact List.append_nil run
  | cons l ls =>
    rw [List.takeWhile_cons_of_neg (by rw [hls l rfl]; decide), List.append_nil]

/-- A run of stray characters is one failure, and what comes after it begins anew. -/
theorem failuresFrom_run {t : List Char} (hrun : ∀ l ∈ run, isToken l = false)
    (hls : ∀ l ∈ ls.head?, isToken l = true) (htext : text = t ++ run.flatMap Lexeme.text)
    (hblames : Blames text cause) (pos : Nat) :
    failuresFrom pos false (.stray t :: (run ++ ls)) =
      ⟨cause, ⟨pos, pos + byteLength (trimEnd text)⟩⟩ ::
        failuresFrom (pos + byteLength text) false ls := by
  rw [← strayFailure_eq_of_blames hblames, ← failuresFrom_of_head hls, htext, byteLength_append,
    ← Nat.add_assoc, ← (from_append hrun _ _).2, failuresFrom, takeWhile_run hrun hls]
  rfl

/-- **What is reported of lexemes is one thing**: their tokens and their failures. -/
theorem Reports.eq (h : Reports pos ls r) :
    r = ⟨tokensFrom pos ls, failuresFrom pos false ls⟩ := by
  induction h with
  | done pos => rfl
  | gap _ ih => exact ih
  | token _ ih =>
    obtain ⟨rfl, rfl⟩ := Lexing.mk.inj ih
    rfl
  | @run pos t text run ls cause tokens failures hrun hls htext hblames _ ih =>
    obtain ⟨rfl, rfl⟩ := Lexing.mk.inj ih
    have hstray : ∀ l ∈ Lexeme.stray t :: run, isToken l = false :=
      List.forall_mem_cons.2 ⟨rfl, hrun⟩
    have htokens := (from_append hstray pos ls).1
    rw [List.flatMap_cons, Lexeme.text, ← htext] at htokens
    rw [failuresFrom_run hrun hls htext hblames, ← htokens]
    rfl

/-- The tokens and the failures of lexemes are reported. -/
theorem reports (pos : Nat) (ls : List Lexeme) :
    Reports pos ls ⟨tokensFrom pos ls, failuresFrom pos false ls⟩ :=
  match ls with
  | [] => .done pos
  | .gap g :: ls => .gap (reports _ ls)
  | .token k :: ls => .token (reports _ ls)
  | .stray t :: others => by
    -- The run ends at the next token, so what is left to report is shorter.
    have hrun : ∀ l ∈ others.takeWhile (fun l => !isToken l), isToken l = false := fun l hl => by
      simpa using List.all_eq_true.1 List.all_takeWhile l hl
    have hls : ∀ l ∈ (others.dropWhile fun l => !isToken l).head?, isToken l = true :=
      fun l hl => by simpa using eq_false_of_head?_dropWhile hl
    obtain ⟨cause, hblames⟩ :=
      exists_blames (t ++ (others.takeWhile fun l => !isToken l).flatMap Lexeme.text)
    have hreports : Reports pos _ _ := .run hrun hls rfl hblames (reports _ _)
    rwa [← failuresFrom_run hrun hls rfl hblames, byteLength_append, ← Nat.add_assoc,
      ← (from_append hrun _ _).1, List.takeWhile_append_dropWhile] at hreports
termination_by ls.length
decreasing_by
  all_goals simp only [List.length_cons]
  · omega
  · omega
  · exact Nat.lt_succ_of_le (List.dropWhile_sublist _).length_le

end Lexing

/-- **A slice is read by longest matches.**  Its text is scanned into one sequence of lexemes, and
what is reported of them is what reading the slice gives. -/
theorem Slice.scans_iff (s : Slice) :
    (∀ ls, Lexeme.Scans s.text ls ↔ ls = Lexeme.ofText s.text) ∧
    ∀ r, Lexing.ofSlice s = r ↔ ∃ ls, Lexeme.Scans s.text ls ∧ Lexing.Reports s.start ls r := by
  refine ⟨fun ls => Lexeme.scans_iff_eq_ofText, fun r => ⟨?_, ?_⟩⟩
  · rintro rfl
    exact ⟨_, Lexeme.scans_ofText s.text, Lexing.reports s.start _⟩
  · rintro ⟨ls, hscans, hreports⟩
    rw [hreports.eq, Lexeme.scans_iff_eq_ofText.1 hscans]
    rfl

/-- A number gives back what does not belong to it, a string that is not closed does not. -/
example : Lexeme.ofText "1.5e+ 'a''b".toList =
    [.token (.decimal "1.5"), .token (.word "e"), .stray ['+'], .gap [' '],
      .stray "'a''b".toList] := by decide +kernel

end OData
