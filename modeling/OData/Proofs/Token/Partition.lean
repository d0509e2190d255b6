import OData.Proofs.Query.Places
import OData.Proofs.Query.Shift
import OData.Proofs.Token.Exposed

/-!
# Tokens and failures take up a slice

Whatever the text of a slice is, its tokens and its failures share it out among them
(`Slice.ofSlice_partitions`).  They stand in order, none of them overlaps another, there is a
token between any two failures, and what none of them covers is blank.  Where the slice stands
makes no difference but to the places.

Stray characters are followed up to the next token, so a failure is about a run of lexemes
(`Lexing.runText`) and not about one of them.  What makes the order come out right is that the
tokens begin no sooner than the run ends, and that a failure behind a run has a token in front of
it, since otherwise it would have belonged to the run.
-/
namespace OData
open Text

/-! ## What is to be shown -/

/-- A span covers a position. -/
def Span.Covers (p : Span) (n : Nat) : Prop := p.start ≤ n ∧ n < p.stop

/-- A token stands in a slice: the text at its place is what its kind is written as. -/
def Slice.Holds (s : Slice) (t : Token) : Prop :=
  ∃ before after, s.text = before ++ t.kind.written ++ after ∧
    t.span = Slice.span ⟨t.kind.written, s.start + byteLength before⟩

namespace Lexing

/-- The places of the tokens and of the failures. -/
def spans (r : Lexing) : List Span := r.tokens.map Token.span ++ r.failures.map Failure.span

/-- The tokens and failures `k` bytes further on. -/
def shift (k : Nat) (r : Lexing) : Lexing :=
  ⟨r.tokens.map (Token.shift k), r.failures.map (Failure.shift k)⟩

/-- A failure stands between two tokens. -/
def Between (t u : Token) (f : Failure) : Prop :=
  t.span.stop ≤ f.span.start ∧ f.span.stop ≤ u.span.start

instance (t u : Token) : DecidablePred (Between t u) := fun f =>
  inferInstanceAs (Decidable (t.span.stop ≤ f.span.start ∧ f.span.stop ≤ u.span.start))

/-- **Tokens and failures partition a slice.** -/
structure Partitions (r : Lexing) (s : Slice) : Prop where
  /-- The last token is the end of the text, and no other token is. -/
  ends : ∃ body, r.tokens = body ++ [⟨.eof, Span.point s.stop⟩] ∧ ∀ t ∈ body, t.kind ≠ .eof
  /-- All other tokens have some text. -/
  nonempty : ∀ t ∈ r.tokens, t.kind ≠ .eof → t.span.start < t.span.stop
  /-- The text of a token is what its kind is written as. -/
  holds : ∀ t ∈ r.tokens, s.Holds t
  /-- The kind of a token is read again from its text alone. -/
  recovers : ∀ t ∈ r.tokens, t.kind ≠ .eof →
    ofSlice ⟨t.kind.written, t.span.start⟩ = ⟨[t, ⟨.eof, Span.point t.span.stop⟩], []⟩
  /-- All places are in the slice, and between characters. -/
  marks : ∀ p ∈ r.spans, s.Marks p ∧ s.start ≤ p.start ∧ p.stop ≤ s.stop
  /-- Tokens stand in order, and do not overlap. -/
  ordered : r.tokens.Pairwise fun t u => t.span.stop ≤ u.span.start
  /-- Failures stand in order, and between any two of them there is a token. -/
  separated : r.failures.Pairwise fun f g =>
    ∃ t ∈ r.tokens, t.kind ≠ .eof ∧ f.span.stop ≤ t.span.start ∧ t.span.stop ≤ g.span.start
  /-- Failures do not overlap tokens. -/
  apart : ∀ f ∈ r.failures, ∀ t ∈ r.tokens,
    t.span.stop ≤ f.span.start ∨ f.span.stop ≤ t.span.start
  /-- What is not covered is blank. -/
  covers : ∀ x ∈ Text.placed s.start s.text, isBlank x.2 = false →
    ∃ p ∈ r.spans, p.Covers x.1

/-! ## Runs -/

variable {pos : Nat} {inRun : Bool} {ls : List Lexeme} {t u : Token} {f : Failure}

/-- **The text in front of the first token** of a sequence of lexemes. -/
def runText (ls : List Lexeme) : List Char :=
  (ls.takeWhile fun l => !isToken l).flatMap Lexeme.text

/-- A run is the text in front of what follows it. -/
theorem exists_runText_append (ls : List Lexeme) :
    ∃ rest, ls.flatMap Lexeme.text = runText ls ++ rest := by
  refine ⟨(ls.dropWhile fun l => !isToken l).flatMap Lexeme.text, ?_⟩
  rw [runText, ← List.flatMap_append, List.takeWhile_append_dropWhile]

theorem runText_gap (g : List Char) (ls : List Lexeme) :
    runText (.gap g :: ls) = g ++ runText ls := rfl

theorem runText_stray (g : List Char) (ls : List Lexeme) :
    runText (.stray g :: ls) = g ++ runText ls := rfl

/-- A failure is about a run, less the blanks at its end. -/
theorem span_strayFailure (run : Slice) : (strayFailure run).span = run.trimEnd.span := by
  unfold strayFailure
  simp only
  split <;> rfl

theorem stop_strayFailure_le (run : Slice) : (strayFailure run).span.stop ≤ run.stop := by
  obtain ⟨blanks, htext, -⟩ := exists_append_of_trimEnd run.text
  have hlength := congrArg byteLength htext
  rw [byteLength_append] at hlength
  rw [span_strayFailure]
  simp only [Slice.span, Slice.stop, Slice.trimEnd]
  omega

/-- Tokens begin no sooner than the run in front of them ends. -/
theorem run_le_of_mem_tokensFrom (ht : t ∈ tokensFrom pos ls) :
    pos + byteLength (runText ls) ≤ t.span.start := by
  induction ls generalizing pos with
  | nil =>
    obtain rfl := List.mem_singleton.1 ht
    exact Nat.le_refl _
  | cons l ls ih =>
    cases l with
    | token k => exact start_of_mem_tokensFrom ht
    | gap g | stray g =>
      have hle := ih ht
      simp only [runText_gap, runText_stray, byteLength_append, Lexeme.text] at hle ⊢
      omega

theorem start_of_mem_failuresFrom (hf : f ∈ failuresFrom pos inRun ls) : pos ≤ f.span.start :=
  (Slice.marks_of_mem_failuresFrom hf).span.bounds.1

/-- What fails behind a run has a token in front of it. -/
theorem exists_token_of_mem_failuresFrom (hk : ∀ k, .token k ∈ ls → k ≠ .eof)
    (hf : f ∈ failuresFrom pos true ls) :
    ∃ t ∈ tokensFrom pos ls, t.kind ≠ .eof ∧ t.span.stop ≤ f.span.start := by
  induction ls generalizing pos with
  | nil => cases hf
  | cons l ls ih =>
    have hothers : ∀ k, .token k ∈ ls → k ≠ .eof := fun k h => hk k (List.mem_cons_of_mem _ h)
    cases l with
    | token k =>
      exact ⟨_, List.mem_cons_self .., hk k (List.mem_cons_self ..), start_of_mem_failuresFrom hf⟩
    | gap g | stray g => exact ih hothers hf

/-! ## Order -/

/-- Tokens stand in order. -/
theorem pairwise_tokensFrom (pos : Nat) (ls : List Lexeme) :
    (tokensFrom pos ls).Pairwise fun t u => t.span.stop ≤ u.span.start := by
  induction ls generalizing pos with
  | nil => exact List.pairwise_singleton ..
  | cons l ls ih =>
    cases l with
    | token k => exact List.pairwise_cons.2 ⟨fun u hu => start_of_mem_tokensFrom hu, ih _⟩
    | gap g | stray g => exact ih _

/-- Failures have a token between them. -/
theorem pairwise_failuresFrom (hk : ∀ k, .token k ∈ ls → k ≠ .eof) :
    (failuresFrom pos inRun ls).Pairwise fun f g =>
      ∃ t ∈ tokensFrom pos ls, t.kind ≠ .eof ∧
        f.span.stop ≤ t.span.start ∧ t.span.stop ≤ g.span.start := by
  induction ls generalizing pos inRun with
  | nil => exact List.Pairwise.nil
  | cons l ls ih =>
    have hothers : ∀ k, .token k ∈ ls → k ≠ .eof := fun k h => hk k (List.mem_cons_of_mem _ h)
    cases l with
    | token k =>
      refine (ih hothers).imp fun h => ?_
      obtain ⟨t, ht, hbetween⟩ := h
      exact ⟨t, List.mem_cons_of_mem _ ht, hbetween⟩
    | gap g => exact ih hothers
    | stray g =>
      cases inRun with
      | true => exact ih hothers
      | false =>
        refine List.pairwise_cons.2 ⟨fun f hf => ?_, ih hothers⟩
        obtain ⟨t, ht, hkind, hstop⟩ := exists_token_of_mem_failuresFrom hothers hf
        replace ht : t ∈ tokensFrom pos (.stray g :: ls) := ht
        exact ⟨t, ht, hkind,
          Nat.le_trans (stop_strayFailure_le _) (run_le_of_mem_tokensFrom ht), hstop⟩

/-- Failures do not overlap tokens. -/
theorem apart_of_mem (hf : f ∈ failuresFrom pos inRun ls) (ht : t ∈ tokensFrom pos ls) :
    t.span.stop ≤ f.span.start ∨ f.span.stop ≤ t.span.start := by
  induction ls generalizing pos inRun with
  | nil => cases hf
  | cons l ls ih =>
    cases l with
    | token k =>
      rcases List.mem_cons.1 ht with rfl | ht
      · exact .inl (start_of_mem_failuresFrom hf)
      · exact ih hf ht
    | gap g => exact ih hf ht
    | stray g =>
      cases inRun with
      | true => exact ih hf ht
      | false =>
        rcases List.mem_cons.1 hf with rfl | hf
        · exact .inr (Nat.le_trans (stop_strayFailure_le _) (run_le_of_mem_tokensFrom ht))
        · exact ih hf ht

/-! ## Cover -/

/-- What is not blank in a run is covered by its failure. -/
theorem covers_strayFailure {run rest : List Char} {x : Nat × Char}
    (hx : x ∈ Text.placed pos (run ++ rest)) (hrun : x.1 < pos + byteLength run)
    (hblank : isBlank x.2 = false) : (strayFailure ⟨run, pos⟩).span.Covers x.1 := by
  rw [Text.placed_append] at hx
  rcases List.mem_append.1 hx with hx | hx
  · obtain ⟨blanks, htext, hblanks⟩ := exists_append_of_trimEnd run
    rw [htext, Text.placed_append] at hx
    rcases List.mem_append.1 hx with hx | hx
    · obtain ⟨hle, hlt, -⟩ := bounds_of_mem_placed hx
      rw [span_strayFailure]
      exact ⟨hle, hlt⟩
    · have hmem := hblanks x.2 (bounds_of_mem_placed hx).2.2
      exact absurd (hblank.symm.trans hmem) Bool.false_ne_true
  · exact absurd hrun (Nat.not_lt.2 (bounds_of_mem_placed hx).1)

/-- What is not blank is covered, or it belongs to a run that has been reported before.  The
induction is on the lexemes, and a run that they begin with is what it carries along. -/
theorem covered_of_mem_placed (inRun : Bool) (hg : ∀ g, .gap g ∈ ls → ∀ c ∈ g, isGap c = true)
    {x : Nat × Char} (hx : x ∈ Text.placed pos (ls.flatMap Lexeme.text))
    (hblank : isBlank x.2 = false) :
    (∃ t ∈ tokensFrom pos ls, t.span.Covers x.1) ∨
      (∃ f ∈ failuresFrom pos inRun ls, f.span.Covers x.1) ∨
      inRun = true ∧ x.1 < pos + byteLength (runText ls) := by
  induction ls generalizing pos inRun with
  | nil => cases hx
  | cons l ls ih =>
    have hothers : ∀ g, .gap g ∈ ls → ∀ c ∈ g, isGap c = true :=
      fun g h => hg g (List.mem_cons_of_mem _ h)
    have hplaced := hx
    rw [List.flatMap_cons, Text.placed_append, List.mem_append] at hplaced
    cases l with
    | token k =>
      rcases hplaced with hx | hx
      · obtain ⟨hle, hlt, -⟩ := bounds_of_mem_placed hx
        exact .inl ⟨_, List.mem_cons_self .., hle, hlt⟩
      · rcases ih false hothers hx with ⟨t, ht, h⟩ | h | ⟨h, -⟩
        · exact .inl ⟨t, List.mem_cons_of_mem _ ht, h⟩
        · exact .inr (.inl h)
        · cases h
    | gap g =>
      rcases hplaced with hx | hx
      · have hmem := isBlank_of_isGap (hg g (List.mem_cons_self ..) _ (bounds_of_mem_placed hx).2.2)
        exact absurd (hblank.symm.trans hmem) Bool.false_ne_true
      · rw [runText_gap, byteLength_append, ← Nat.add_assoc]
        exact ih _ hothers hx
    | stray g =>
      rw [runText_stray, byteLength_append, ← Nat.add_assoc]
      cases inRun with
      | true =>
        rcases hplaced with hx | hx
        · have hlt := (bounds_of_mem_placed hx).2.1
          exact .inr (.inr ⟨rfl, Nat.lt_of_lt_of_le hlt (Nat.le_add_right ..)⟩)
        · exact ih _ hothers hx
      | false =>
        by_cases hrun : x.1 < pos + byteLength g + byteLength (runText ls)
        · obtain ⟨rest, hrest⟩ := exists_runText_append (.stray g :: ls)
          have hstop : x.1 < pos + byteLength (runText (.stray g :: ls)) := by
            rwa [runText_stray, byteLength_append, ← Nat.add_assoc]
          rw [hrest] at hx
          exact .inr (.inl ⟨_, List.mem_cons_self .., covers_strayFailure hx hstop hblank⟩)
        · rcases hplaced with hx | hx
          · exact absurd (Nat.lt_of_lt_of_le (bounds_of_mem_placed hx).2.1
              (Nat.le_add_right _ _)) hrun
          · rcases ih true hothers hx with h | ⟨f, hf, h⟩ | ⟨-, h⟩
            · exact .inl h
            · exact .inr (.inl ⟨f, List.mem_cons_of_mem _ hf, h⟩)
            · exact absurd h hrun

/-! ## The tokens by themselves -/

/-- Tokens stand in the text of the lexemes. -/
theorem holds_of_mem_tokensFrom (ht : t ∈ tokensFrom pos ls) :
    (Slice.mk (ls.flatMap Lexeme.text) pos).Holds t := by
  induction ls generalizing pos with
  | nil =>
    obtain rfl := List.mem_singleton.1 ht
    exact ⟨[], [], rfl, rfl⟩
  | cons l ls ih =>
    have hothers (ht : t ∈ tokensFrom (pos + byteLength l.text) ls) :
        (Slice.mk ((l :: ls).flatMap Lexeme.text) pos).Holds t := by
      obtain ⟨before, after, htext, hspan⟩ := ih ht
      replace htext : ls.flatMap Lexeme.text = before ++ t.kind.written ++ after := htext
      refine ⟨l.text ++ before, after, ?_, ?_⟩
      · simp only [List.flatMap_cons, htext, List.append_assoc]
      · rw [hspan, byteLength_append, Nat.add_assoc]
    cases l with
    | token k =>
      rcases List.mem_cons.1 ht with rfl | ht
      · exact ⟨[], ls.flatMap Lexeme.text, rfl, rfl⟩
      · exact hothers ht
    | gap g | stray g => exact hothers ht

/-- A token that is spelled is read again from its text alone. -/
theorem ofSlice_written {s : Slice} (h : s.Holds t) (hk : t.kind.Spelled) :
    ofSlice ⟨t.kind.written, t.span.start⟩ = ⟨[t, ⟨.eof, Span.point t.span.stop⟩], []⟩ := by
  obtain ⟨kind, span⟩ := t
  obtain ⟨before, -, -, hspan⟩ := h
  obtain rfl : span = Slice.span ⟨kind.written, s.start + byteLength before⟩ := hspan
  have hread : Lexeme.ofText kind.written = [.token kind] := by
    have hread := Lexeme.ofText_written_append hk (Kind.Leaves.nil kind)
    rwa [List.append_nil, Lexeme.ofText.eq_1] at hread
  unfold ofSlice
  rw [hread]
  rfl

/-- A token that is spelled has some text. -/
theorem start_lt_stop {s : Slice} (h : s.Holds t) (hk : t.kind.Spelled) :
    t.span.start < t.span.stop := by
  obtain ⟨before, -, -, hspan⟩ := h
  obtain ⟨c, w, hw, -⟩ := hk.head_not_isGap
  have hc := c.utf8Size_pos
  rw [hspan]
  simp only [Slice.span, Slice.stop, hw, byteLength_cons]
  omega

/-! ## The partition -/

variable {r : Lexing} {s : Slice}

/-- A token stands beside two that follow one another, or is one of them. -/
theorem Partitions.beside (h : r.Partitions s) (hnext : [t, u] <:+: r.tokens) {v : Token}
    (hv : v ∈ r.tokens) :
    v.span.stop ≤ t.span.start ∨ v = t ∨ v = u ∨ u.span.stop ≤ v.span.start := by
  obtain ⟨before, after, htokens⟩ := hnext
  have hordered := h.ordered
  rw [← htokens] at hordered hv
  obtain ⟨hbefore, -, hcross⟩ := List.pairwise_append.1 hordered
  obtain ⟨-, -, hbehind⟩ := List.pairwise_append.1 hbefore
  rcases List.mem_append.1 hv with hv | hv
  · rcases List.mem_append.1 hv with hv | hv
    · exact .inl (hbehind v hv t (List.mem_cons_self ..))
    · rcases List.mem_cons.1 hv with rfl | hv
      · exact .inr (.inl rfl)
      · exact .inr (.inr (.inl (List.mem_singleton.1 hv)))
  · refine .inr (.inr (.inr (hcross u ?_ v hv)))
    exact List.mem_append_right _ (List.mem_cons_of_mem _ (List.mem_cons_self ..))

/-- At most one failure stands between two tokens that follow one another, since a token that
separates two of them would stand there as well. -/
theorem Partitions.length_between_le (h : r.Partitions s) (hnext : [t, u] <:+: r.tokens) :
    (r.failures.filter (Between t u ·)).length ≤ 1 := by
  by_contra hlength
  obtain ⟨f, g, others, hfilter⟩ :
      ∃ f g others, r.failures.filter (Between t u ·) = f :: g :: others := by
    match hfilter : r.failures.filter (Between t u ·) with
    | [] | [_] => simp [hfilter] at hlength
    | f :: g :: others => exact ⟨f, g, others, rfl⟩
  have hbetween : ∀ f ∈ r.failures.filter (Between t u ·),
      f.span.start ≤ f.span.stop ∧ Between t u f := by
    intro f hf
    obtain ⟨hmem, hf⟩ := List.mem_filter.1 hf
    have hspan : f.span ∈ r.spans := List.mem_append_right _ (List.mem_map_of_mem hmem)
    exact ⟨(h.marks _ hspan).1.ordered, of_decide_eq_true hf⟩
  have hseparated := h.separated.filter (Between t u ·)
  rw [hfilter] at hbetween hseparated
  obtain ⟨v, hv, hkind, hfv, hvg⟩ := (List.pairwise_cons.1 hseparated).1 g (List.mem_cons_self ..)
  have hsize := h.nonempty v hv hkind
  obtain ⟨hf, hft, -⟩ := hbetween f (List.mem_cons_self ..)
  obtain ⟨hg, -, hgu⟩ := hbetween g (List.mem_cons_of_mem _ (List.mem_cons_self ..))
  have hsizes : ∀ w ∈ [t, u], w.span.start ≤ w.span.stop := fun w hw =>
    (h.marks _ (List.mem_append_left _ (List.mem_map_of_mem (hnext.subset hw)))).1.ordered
  have ht := hsizes t (List.mem_cons_self ..)
  have hu := hsizes u (List.mem_cons_of_mem _ (List.mem_cons_self ..))
  rcases h.beside hnext hv with hbeside | rfl | rfl | hbeside
  all_goals omega

end Lexing

namespace Slice

/-- The tokens and failures of a slice partition it. -/
theorem partitions (s : Slice) : (Lexing.ofSlice s).Partitions s := by
  have hgap : ∀ g, .gap g ∈ Lexeme.ofText s.text → ∀ c ∈ g, isGap c = true :=
    fun g hg => Lexeme.isGap_of_mem_ofText s.text hg
  have hspelled : ∀ k, .token k ∈ Lexeme.ofText s.text → k.Spelled :=
    fun k hk => Lexeme.spelled_of_mem_ofText s.text hk
  have hkind : ∀ k, .token k ∈ Lexeme.ofText s.text → k ≠ .eof := by
    rintro k hk rfl
    exact hspelled _ hk
  have htext := Lexeme.flatMap_text_ofText s.text
  have hslice : Slice.mk ((Lexeme.ofText s.text).flatMap Lexeme.text) s.start = s := by rw [htext]
  obtain ⟨body, hbody, hmem⟩ := Lexing.exists_of_tokensFrom s.start (Lexeme.ofText s.text)
  rw [htext] at hbody
  have hholds : ∀ t ∈ (Lexing.ofSlice s).tokens, s.Holds t := by
    intro t ht
    have hholds := Lexing.holds_of_mem_tokensFrom ht
    rwa [hslice] at hholds
  -- All tokens but the last are lexemes, so they are spelled.
  have htoken : ∀ t ∈ (Lexing.ofSlice s).tokens, t.kind ≠ .eof → t.kind.Spelled := by
    intro t ht hne
    rw [show (Lexing.ofSlice s).tokens = _ from hbody] at ht
    rcases List.mem_append.1 ht with ht | ht
    · exact hspelled _ (hmem t ht)
    · obtain rfl := List.mem_singleton.1 ht
      exact absurd rfl hne
  constructor
  case ends => exact ⟨body, hbody, fun t ht => hkind _ (hmem t ht)⟩
  case nonempty => exact fun t ht hne => Lexing.start_lt_stop (hholds t ht) (htoken t ht hne)
  case holds => exact hholds
  case recovers => exact fun t ht hne => Lexing.ofSlice_written (hholds t ht) (htoken t ht hne)
  case marks =>
    have hmarks : ∀ p ∈ (Lexing.ofSlice s).spans, s.Marks p := by
      intro p hp
      rcases List.mem_append.1 hp with hp | hp
      · obtain ⟨t, ht, rfl⟩ := List.mem_map.1 hp
        have hmarks := Slice.marks_of_mem_tokensFrom ht
        rwa [hslice] at hmarks
      · obtain ⟨f, hf, rfl⟩ := List.mem_map.1 hp
        have hmarks := (Slice.marks_of_mem_failuresFrom hf).span
        rwa [hslice] at hmarks
    exact fun p hp => ⟨hmarks p hp, (hmarks p hp).bounds⟩
  case ordered => exact Lexing.pairwise_tokensFrom ..
  case separated => exact Lexing.pairwise_failuresFrom hkind
  case apart => exact fun f hf t ht => Lexing.apart_of_mem hf ht
  case covers =>
    intro x hx hblank
    rw [← htext] at hx
    rcases Lexing.covered_of_mem_placed false hgap hx hblank with
      ⟨t, ht, h⟩ | ⟨f, hf, h⟩ | ⟨h, -⟩
    · exact ⟨t.span, List.mem_append_left _ (List.mem_map_of_mem ht), h⟩
    · exact ⟨f.span, List.mem_append_right _ (List.mem_map_of_mem hf), h⟩
    · cases h

/-- **Tokens and failures partition the text of a slice**, with at most one failure between two
tokens that follow one another, and where the slice stands only moves them. -/
theorem ofSlice_partitions (text : List Char) (k : Nat) :
    (Lexing.ofSlice ⟨text, k⟩).Partitions ⟨text, k⟩ ∧
      (∀ t u, [t, u] <:+: (Lexing.ofSlice ⟨text, k⟩).tokens →
        ((Lexing.ofSlice ⟨text, k⟩).failures.filter (Lexing.Between t u ·)).length ≤ 1) ∧
      Lexing.ofSlice ⟨text, k⟩ = (Lexing.ofSlice ⟨text, 0⟩).shift k := by
  have hpartitions := partitions ⟨text, k⟩
  refine ⟨hpartitions, fun t u hnext => hpartitions.length_between_le hnext, ?_⟩
  have htokens := tokensFrom_shift k (Lexeme.ofText text) 0
  have hfailures := failuresFrom_shift k (Lexeme.ofText text) 0 false
  rw [Nat.zero_add] at htokens hfailures
  exact congrArg₂ Lexing.mk htokens hfailures

/-- A run of blanks that are no gaps fails at an empty place, and a run that ends in blanks fails
without them. -/
example : (Lexing.ofSlice ⟨"a\u00a0b §# 'c".toList, 2⟩).spans =
    [⟨2, 3⟩, ⟨5, 6⟩, ⟨13, 13⟩, ⟨3, 3⟩, ⟨7, 13⟩] := by decide +kernel

end Slice
end OData
