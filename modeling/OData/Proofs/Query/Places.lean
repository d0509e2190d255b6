import OData.Proofs.Query.Items
import OData.Proofs.Token.Lexing

/-!
# Places in a text

Every place that is reported lies in the text: it does not end before it begins, and both
ends are between characters (`Slice.Marks`).  A slice is taken apart into slices that stand in
it, each with a stretch of its text (`Slice.StandsIn`).  Such a part has no boundary that the
slice has not (`Slice.PartOf`), and so the places in a part are places in the slice.  What is
read off a slice without looking into its tokens — the tokens themselves, stray characters, the
name and the value of an option, the parts of an expand item — is placed in it.
-/
namespace OData
open Text

namespace Slice

/-! ## Boundaries and parts -/

/-- A byte position between two characters of a slice, or at one of its ends. -/
def HasBoundary (s : Slice) (n : Nat) : Prop :=
  ∃ before after, s.text = before ++ after ∧ n = s.start + byteLength before

/-- **A span is placed in a slice.** -/
structure Marks (s : Slice) (p : Span) : Prop where
  ordered : p.start ≤ p.stop
  start : s.HasBoundary p.start
  stop : s.HasBoundary p.stop

/-- **A slice is a part of another**: all its boundaries are boundaries of that. -/
def PartOf (t s : Slice) : Prop := ∀ n, t.HasBoundary n → s.HasBoundary n

/-- **A slice stands in another**: its text is a stretch of the other's text, at its place. -/
def StandsIn (t s : Slice) : Prop :=
  ∃ before after, s.text = before ++ t.text ++ after ∧ t.start = s.start + byteLength before

section Parts
variable {s t u x y : Slice} {p q : Span} {n : Nat} {c : Char}

theorem hasBoundary_start (s : Slice) : s.HasBoundary s.start := ⟨[], s.text, rfl, rfl⟩

theorem hasBoundary_stop (s : Slice) : s.HasBoundary s.stop :=
  ⟨s.text, [], (List.append_nil _).symm, rfl⟩

theorem marks_span (s : Slice) : s.Marks s.span :=
  ⟨Nat.le_add_right .., s.hasBoundary_start, s.hasBoundary_stop⟩

theorem marks_point (h : s.HasBoundary n) : s.Marks (Span.point n) := ⟨Nat.le_refl n, h, h⟩

/-- A place lies between the ends of the slice. -/
theorem Marks.bounds (h : s.Marks p) : s.start ≤ p.start ∧ p.stop ≤ s.stop := by
  obtain ⟨before, -, -, hstart⟩ := h.start
  obtain ⟨before', after, htext, hstop⟩ := h.stop
  constructor
  · rw [hstart]
    exact Nat.le_add_right _ _
  · rw [hstop, Slice.stop, htext, byteLength_append]
    omega

/-- What covers two places is a place. -/
theorem Marks.join (hp : s.Marks p) (hq : s.Marks q) : s.Marks (p.join q) where
  ordered := by
    have := hp.ordered
    have := hq.ordered
    simp only [Span.join]
    omega
  start := by
    show s.HasBoundary (min p.start q.start)
    rcases Nat.le_total p.start q.start with h | h
    · rw [Nat.min_eq_left h]
      exact hp.start
    · rw [Nat.min_eq_right h]
      exact hq.start
  stop := by
    show s.HasBoundary (max p.stop q.stop)
    rcases Nat.le_total p.stop q.stop with h | h
    · rw [Nat.max_eq_right h]
      exact hq.stop
    · rw [Nat.max_eq_left h]
      exact hp.stop

theorem PartOf.marks (h : t.PartOf s) (hp : t.Marks p) : s.Marks p :=
  ⟨hp.ordered, h _ hp.start, h _ hp.stop⟩

theorem StandsIn.refl (s : Slice) : s.StandsIn s := ⟨[], [], by simp, rfl⟩

theorem StandsIn.trans (h : u.StandsIn t) (h' : t.StandsIn s) : u.StandsIn s := by
  obtain ⟨a, b, ht, hu⟩ := h
  obtain ⟨before, after, hs, hstart⟩ := h'
  refine ⟨before ++ a, b ++ after, ?_, ?_⟩
  · rw [hs, ht]
    simp only [List.append_assoc]
  · rw [hu, hstart, byteLength_append, Nat.add_assoc]

/-- What stands in a slice is a part of it. -/
theorem StandsIn.partOf (h : t.StandsIn s) : t.PartOf s := by
  obtain ⟨before, after, ht, hstart⟩ := h
  rintro n ⟨a, b, hab, rfl⟩
  refine ⟨before ++ a, b ++ after, ?_, ?_⟩
  · rw [ht, hab]
    simp
  · rw [hstart, byteLength_append, Nat.add_assoc]

/-- What stands in a slice lies between its ends. -/
theorem StandsIn.bounds (h : t.StandsIn s) : s.start ≤ t.start ∧ t.stop ≤ s.stop :=
  (h.partOf.marks t.marks_span).bounds

/-- The parts before and after a character, where they stand. -/
structure IsCut (c : Char) (s x y : Slice) : Prop where
  text : s.text = x.text ++ c :: y.text
  before : x.start = s.start
  after : y.start = x.stop + c.utf8Size

theorem IsCut.standIn (h : IsCut c s x y) : x.StandsIn s ∧ y.StandsIn s := by
  constructor
  · refine ⟨[], c :: y.text, ?_, h.before⟩
    rw [h.text, List.nil_append]
  · refine ⟨x.text ++ [c], [], ?_, ?_⟩
    · rw [h.text]
      simp
    · simp only [h.after, Slice.stop, h.before, byteLength_append, byteLength_cons,
        byteLength_nil]
      omega

theorem IsCut.stop_le (h : IsCut c s x y) : x.stop ≤ y.start := by
  rw [h.after]
  exact Nat.le_add_right ..

theorem IsCut.stop_eq (h : IsCut c s x y) : y.stop = s.stop := by
  simp only [Slice.stop, h.after, h.before, h.text, byteLength_append, byteLength_cons]
  omega

theorem standsIn_trimStart (s : Slice) : s.trimStart.StandsIn s :=
  ⟨s.text.takeWhile isBlank, [],
    by rw [List.append_nil]; exact (List.takeWhile_append_dropWhile ..).symm, rfl⟩

theorem standsIn_trimEnd (s : Slice) : s.trimEnd.StandsIn s := by
  obtain ⟨t, ht, -⟩ := exists_append_of_trimEnd s.text
  exact ⟨[], t, ht, rfl⟩

theorem standsIn_trim (s : Slice) : s.trim.StandsIn s :=
  (standsIn_trimEnd _).trans (standsIn_trimStart s)

theorem isCut_of_breakAt (h : s.breakAt c = some (x, y)) : IsCut c s x y := by
  have htext := (Options.text_of_breakAt h).1
  unfold Slice.breakAt at h
  split at h
  · cases h
  · next d rest hd =>
    cases h
    have hc : d = c := by
      have := List.head?_dropWhile_not (fun x => x != c) s.text
      rw [hd] at this
      simpa using this
    subst hc
    exact ⟨htext, rfl, rfl⟩

theorem text_of_cut {m : Nesting} {r a b : List Char} (h : Nesting.cut c m r = some (a, b)) :
    r = a ++ c :: b := by
  induction r generalizing m a with
  | nil => cases h
  | cons d r ih =>
    rw [Nesting.cut] at h
    split at h
    · next hd =>
      cases h
      simp only [Bool.and_eq_true, beq_iff_eq] at hd
      rw [hd.2]
      rfl
    · obtain ⟨⟨a', b'⟩, hcut, he⟩ := Option.map_eq_some_iff.1 h
      cases he
      rw [ih hcut]
      rfl

theorem isCut_of_cut (h : s.cut c = some (x, y)) : IsCut c s x y := by
  obtain ⟨⟨a, b⟩, hcut, he⟩ := Option.map_eq_some_iff.1 h
  cases he
  exact ⟨text_of_cut hcut, rfl, rfl⟩

/-- The pieces of a text, with the separator in front of each but the first, are the text. -/
theorem text_of_pieces (sep : Char) (m : Nesting) (r : List Char) :
    r = (Nesting.pieces sep m r).1 ++
      (Nesting.pieces sep m r).2.flatMap fun piece => sep :: piece := by
  induction r generalizing m with
  | nil => rfl
  | cons d r ih =>
    have ih := ih (m.next d)
    rw [Nesting.pieces]
    by_cases hd : (m.exposes d && d == sep) = true
    · simp only [if_pos hd]
      simp only [Bool.and_eq_true, beq_iff_eq] at hd
      obtain ⟨-, rfl⟩ := hd
      rw [List.nil_append, List.flatMap_cons, List.cons_append, ← ih]
    · simp only [if_neg hd, List.cons_append]
      exact congrArg (d :: ·) ih

/-- The first piece stands before the others. -/
theorem isCut_of_pieces (sep : Char) (piece next : List Char) (pieces : List (List Char))
    (pos : Nat) :
    IsCut sep ⟨piece ++ (next :: pieces).flatMap fun p => sep :: p, pos⟩ ⟨piece, pos⟩
      ⟨next ++ pieces.flatMap fun p => sep :: p, pos + byteLength piece + sep.utf8Size⟩ :=
  ⟨rfl, rfl, rfl⟩

theorem standsIn_of_mem_place {sep : Char} {pos : Nat} {piece : List Char}
    {pieces : List (List Char)} (h : t ∈ Slice.place sep pos (piece :: pieces)) :
    t.StandsIn ⟨piece ++ pieces.flatMap fun piece => sep :: piece, pos⟩ := by
  induction pieces generalizing pos piece with
  | nil =>
    obtain rfl := List.mem_singleton.1 h
    exact ⟨[], [], by simp, rfl⟩
  | cons next pieces ih =>
    have hcut := isCut_of_pieces sep piece next pieces pos
    rcases List.mem_cons.1 h with rfl | h
    · exact hcut.standIn.1
    · exact (ih h).trans hcut.standIn.2

/-- **The pieces of a slice stand in it.** -/
theorem standsIn_of_mem_split {sep : Char} (h : t ∈ s.split sep) : t.StandsIn s := by
  have htext := text_of_pieces sep Nesting.start s.text
  have hstands := standsIn_of_mem_place h
  rw [← htext] at hstands
  exact hstands

/-- Slices in the order of the text, none of which begins before those in front of it end. -/
def InOrder (l : List Slice) : Prop := l.Pairwise fun t u => t.stop ≤ u.start

theorem inOrder_place (sep : Char) (pos : Nat) (piece : List Char) (pieces : List (List Char)) :
    InOrder (Slice.place sep pos (piece :: pieces)) := by
  induction pieces generalizing pos piece with
  | nil => exact List.pairwise_singleton ..
  | cons next pieces ih =>
    refine List.pairwise_cons.2 ⟨fun t ht => ?_, ih _ next⟩
    have hcut := isCut_of_pieces sep piece next pieces pos
    exact Nat.le_trans hcut.stop_le (standsIn_of_mem_place ht).bounds.1

/-- The pieces of a slice are in order. -/
theorem inOrder_split (sep : Char) (s : Slice) : InOrder (s.split sep) := inOrder_place ..

end Parts

end Slice

/-! ## Tokens -/

section Tokens
variable {pos : Nat} {ls : List Lexeme} {t : Token} {f : Failure} {s : Slice}

theorem Slice.partOf_lexemes (l : Lexeme) (ls : List Lexeme) (pos : Nat) :
    (Slice.mk l.text pos).PartOf ⟨(l :: ls).flatMap Lexeme.text, pos⟩ ∧
      (Slice.mk (ls.flatMap Lexeme.text) (pos + byteLength l.text)).PartOf
        ⟨(l :: ls).flatMap Lexeme.text, pos⟩ := by
  rw [List.flatMap_cons]
  exact ⟨StandsIn.partOf ⟨[], ls.flatMap Lexeme.text, rfl, rfl⟩,
    StandsIn.partOf ⟨l.text, [], (List.append_nil _).symm, rfl⟩⟩

theorem Slice.marks_of_mem_tokensFrom (h : t ∈ Lexing.tokensFrom pos ls) :
    (Slice.mk (ls.flatMap Lexeme.text) pos).Marks t.span := by
  induction ls generalizing pos with
  | nil =>
    obtain rfl := List.mem_singleton.1 h
    exact marks_point (hasBoundary_start _)
  | cons l ls ih =>
    obtain ⟨hl, hls⟩ := Slice.partOf_lexemes l ls pos
    cases l with
    | token kind =>
      rcases List.mem_cons.1 h with rfl | h
      · exact hl.marks (Slice.marks_span ⟨kind.written, pos⟩)
      · exact hls.marks (ih h)
    | gap _ | stray _ => exact hls.marks (ih h)

/-- The tokens of a slice are placed in it. -/
theorem Slice.marks_of_tokens {ts : List Token} (h : s.tokens = .ok ts) (ht : t ∈ ts) :
    s.Marks t.span := by
  rw [Slice.tokens_eq_ok h] at ht
  have hmarks := Slice.marks_of_mem_tokensFrom ht
  rw [Lexeme.flatMap_text_ofText] at hmarks
  exact hmarks

/-- **A failure that is placed in a slice**, and tells of no other place. -/
structure Slice.MarksFailure (s : Slice) (f : Failure) : Prop where
  span : s.Marks f.span
  earlier : f.cause.earlier = none

theorem Slice.PartOf.marksFailure {t : Slice} (h : t.PartOf s) (hf : t.MarksFailure f) :
    s.MarksFailure f := ⟨h.marks hf.span, hf.earlier⟩

theorem Slice.marks_strayFailure (run : Slice) : run.MarksFailure (Lexing.strayFailure run) := by
  have hspan : run.Marks run.trimEnd.span := (standsIn_trimEnd run).partOf.marks (marks_span _)
  unfold Lexing.strayFailure
  simp only
  split
  · exact ⟨hspan, rfl⟩
  · exact ⟨hspan, rfl⟩

theorem Slice.marks_of_mem_failuresFrom {inRun : Bool}
    (h : f ∈ Lexing.failuresFrom pos inRun ls) :
    (Slice.mk (ls.flatMap Lexeme.text) pos).MarksFailure f := by
  induction ls generalizing pos inRun with
  | nil => cases h
  | cons l ls ih =>
    obtain ⟨-, hls⟩ := Slice.partOf_lexemes l ls pos
    cases l with
    | token _ | gap _ => exact hls.marksFailure (ih h)
    | stray t =>
      cases inRun with
      | true => exact hls.marksFailure (ih h)
      | false =>
        rcases List.mem_cons.1 h with rfl | h
        · -- A run of stray characters goes on to the next token, which need not be the end.
          refine PartOf.marksFailure (StandsIn.partOf
            ⟨[], (ls.dropWhile fun l => !Lexing.isToken l).flatMap Lexeme.text, ?_, rfl⟩)
            (Slice.marks_strayFailure _)
          rw [List.nil_append, List.append_assoc, ← List.flatMap_append,
            List.takeWhile_append_dropWhile]
          rfl
        · exact hls.marksFailure (ih h)

/-- What makes no token is placed in the slice. -/
theorem Slice.marks_of_tokens_error (h : s.tokens = .error f) : s.MarksFailure f := by
  unfold Slice.tokens at h
  split at h
  · cases h
  · next others hl =>
    cases h
    have hmem : f ∈ Lexing.failuresFrom s.start false (Lexeme.ofText s.text) := by
      have := congrArg Lexing.failures hl
      show f ∈ (Lexing.ofSlice s).failures
      rw [this]
      exact List.mem_cons_self ..
    have hmarks := Slice.marks_of_mem_failuresFrom hmem
    rw [Lexeme.flatMap_text_ofText] at hmarks
    exact hmarks

end Tokens

/-! ## Items -/

namespace Options
variable {item : Slice} {f : Failure}

/-- An item that cannot be taken apart fails in its own place. -/
theorem marks_of_assignment?_error (h : assignment? item = .error f) : item.MarksFailure f := by
  have htrim := item.standsIn_trimStart
  have htaken := takenApart item
  rw [h] at htaken
  cases htaken with
  | missingValue =>
    exact ⟨((Slice.standsIn_trimEnd _).trans htrim).partOf.marks (Slice.marks_span _), rfl⟩
  | @unknownOption name value hbreak =>
    have hname := (Slice.isCut_of_breakAt hbreak).standIn.1
    exact ⟨((Slice.standsIn_trimEnd name).trans (hname.trans htrim)).partOf.marks
      (Slice.marks_span _), rfl⟩

/-- **An assignment stands in its item**: the word of its option, and behind it the value. -/
structure Assignment.StandsIn (a : Assignment) (item : Slice) : Prop where
  word : ∃ word : Slice, word.StandsIn item ∧ word.toString = a.option.word ∧ a.name = word.span
  value : a.value.StandsIn item
  ordered : a.name.start ≤ a.value.stop

theorem Assignment.standsIn_of_assignment? {a : Assignment}
    (h : assignment? item = .ok (some a)) : a.StandsIn item := by
  have htrim := item.standsIn_trimStart
  have htaken := takenApart item
  rw [h] at htaken
  cases htaken with
  | @assignment name value option hbreak hoption =>
    have hcut := Slice.isCut_of_breakAt hbreak
    obtain ⟨hname, hvalue⟩ := hcut.standIn
    have hordered : name.start ≤ value.stop := by
      have := hcut.after
      simp only [Slice.stop] at *
      omega
    exact ⟨⟨name.trimEnd, (Slice.standsIn_trimEnd name).trans (hname.trans htrim),
      Keyword.find?_eq_some_iff.1 hoption, rfl⟩, hvalue.trans htrim, hordered⟩

/-- **The parts of an assignment** are placed in the item, and it is itself. -/
structure Assignment.In (a : Assignment) (item : Slice) : Prop where
  name : item.Marks a.name
  value : a.value.PartOf item
  span : item.Marks a.span

theorem Assignment.in_of_assignment? {a : Assignment} (h : assignment? item = .ok (some a)) :
    a.In item := by
  obtain ⟨⟨word, hword, -, hname⟩, hvalue, hordered⟩ := Assignment.standsIn_of_assignment? h
  have hspan : item.Marks a.name := hname ▸ hword.partOf.marks (Slice.marks_span word)
  have hstop := hvalue.partOf.marks (Slice.marks_span a.value)
  exact ⟨hspan, hvalue.partOf, hordered, hspan.start, hstop.stop⟩

/-- The inside of a group and what follows it are the text that is searched. -/
theorem text_of_close {depth : Nat} {quote : Option Char} {r inside rest : List Char}
    (h : close depth quote r = .closed inside rest) : r = inside ++ ')' :: rest := by
  have hcons {c : Char} {x : Closing} {t inside : List Char}
      (ih : ∀ {inside}, x = .closed inside rest → t = inside ++ ')' :: rest)
      (h : x.cons c = .closed inside rest) : c :: t = inside ++ ')' :: rest := by
    cases x <;> cases h
    rw [ih rfl]
    rfl
  fun_induction close depth quote r generalizing inside with
  | case1 => cases h
  | case2 _ _ _ _ ih => exact hcons ih h
  | case3 _ _ _ _ ih => exact hcons ih h
  | case4 _ _ _ ih => exact hcons ih h
  | case5 => cases h
  | case6 =>
    cases h
    rfl
  | case7 _ _ _ _ ih => exact hcons ih h
  | case8 _ _ _ _ _ _ ih => exact hcons ih h

/-- The parts of an expand item stand in it. -/
theorem ExpandParts.standIn_of_expandParts {parts : ExpandParts}
    (h : expandParts item = .ok parts) :
    parts.path.StandsIn item ∧ ∀ inside, parts.options = some inside → inside.StandsIn item := by
  have htaken := itemTakenApart item
  rw [h] at htaken
  cases htaken with
  | path => exact ⟨.refl item, fun _ h => nomatch h⟩
  | @group path inside options hcut hclose =>
    obtain ⟨hpath, hinside⟩ := (Slice.isCut_of_cut hcut).standIn
    refine ⟨hpath, ?_⟩
    rintro _ ⟨⟩
    have hoptions : (Slice.mk options inside.start).StandsIn inside :=
      ⟨[], [')'], text_of_close hclose, rfl⟩
    exact hoptions.trans hinside

/-- **The parts of an expand item** are parts of it. -/
structure ExpandParts.In (parts : ExpandParts) (item : Slice) : Prop where
  path : parts.path.PartOf item
  options : ∀ inside, parts.options = some inside → inside.PartOf item

theorem ExpandParts.in_of_expandParts {parts : ExpandParts} (h : expandParts item = .ok parts) :
    parts.In item := by
  obtain ⟨hpath, hoptions⟩ := ExpandParts.standIn_of_expandParts h
  exact ⟨hpath.partOf, fun inside hinside => (hoptions inside hinside).partOf⟩

/-- An expand item that cannot be taken apart fails in its own place. -/
theorem marks_of_expandParts_error (h : expandParts item = .error f) : item.MarksFailure f := by
  have htaken := itemTakenApart item
  rw [h] at htaken
  cases htaken with
  | missing => exact ⟨Slice.marks_span item, rfl⟩
  | @textAfter path inside options rest c hcut hclose =>
    have hcut := Slice.isCut_of_cut hcut
    -- What follows the group is a part, and it ends where the item ends.
    have hrest : Slice.IsCut ')' inside ⟨options, inside.start⟩
        ⟨c :: rest, inside.start + byteLength options + 1⟩ := ⟨text_of_close hclose, rfl, rfl⟩
    have hspan := (hrest.standIn.2.trans hcut.standIn.2).partOf.marks (Slice.marks_span _)
    rw [Slice.span, hrest.stop_eq, hcut.stop_eq] at hspan
    exact ⟨hspan, rfl⟩
  | @unclosed path inside hcut =>
    have hcut := Slice.isCut_of_cut hcut
    obtain ⟨hpath, hinside⟩ := hcut.standIn
    exact ⟨⟨hcut.stop_le, hpath.partOf _ path.hasBoundary_stop,
      hinside.partOf _ inside.hasBoundary_start⟩, rfl⟩

end Options

/-! ## Halves -/

/-- The two halves of a text stand in it. -/
theorem Halves.standIn_ofSlice (s : Slice) :
    (Halves.ofSlice s).path.StandsIn s ∧
      ∀ options, (Halves.ofSlice s).options = some options → options.StandsIn s := by
  have hcut {c : Char} {path options : Slice} (h : s.cut c = some (path, options)) :
      path.StandsIn s ∧ ∀ options', some options = some options' → options'.StandsIn s := by
    obtain ⟨hpath, hoptions⟩ := (Slice.isCut_of_cut h).standIn
    refine ⟨hpath, ?_⟩
    rintro _ ⟨⟩
    exact hoptions
  unfold Halves.ofSlice
  split
  · refine ⟨⟨[], s.text, rfl, rfl⟩, ?_⟩
    rintro _ ⟨⟩
    exact .refl s
  · split
    · next h => exact hcut h
    · split
      · next h => exact hcut h
      · exact ⟨.refl s, nofun⟩

/-- **The two halves of a text** are parts of it. -/
structure Halves.In (halves : Halves) (s : Slice) : Prop where
  path : halves.path.PartOf s
  options : ∀ options, halves.options = some options → options.PartOf s

theorem Halves.in_ofSlice (s : Slice) : (Halves.ofSlice s).In s := by
  obtain ⟨hpath, hoptions⟩ := Halves.standIn_ofSlice s
  exact ⟨hpath.partOf, fun options h => (hoptions options h).partOf⟩

end OData
