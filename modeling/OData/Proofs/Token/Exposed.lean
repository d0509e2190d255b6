import Mathlib.Tactic.MkIffOfInductiveProp
import OData.Proofs.Canonical.Rendering
import OData.Slice

/-!
# Exposed characters and tokens

Before a value is read as tokens, the list it stands in has been taken apart on raw text, by a
scan that knows quotes and parentheses only (`Nesting`).  Where a value is read without
failures, the scan and the tokens agree on it: the characters that the scan finds exposed are
those that stand outside of every string token and in no group of parenthesis tokens
(`Slice.exposed_eq_top`).  So no such value is taken apart at a separator inside a string or a
group.

The two know quotes in different ways.  A string token is one unit, with its pairs of quotes; the
scan ends and begins again at every pair, and it would also wait for the end of a double quote.
A double quote outside of a string is no token, though, and inside a string the scan does not
heed it.
-/
namespace OData
open Text

/-! ## Characters and their positions -/

namespace Text

/-- The characters of a text with their byte positions, from `pos` on. -/
def placed (pos : Nat) : List Char → List (Nat × Char)
  | [] => []
  | c :: r => (pos, c) :: placed (pos + c.utf8Size) r

theorem placed_append (pos : Nat) (s t : List Char) :
    placed pos (s ++ t) = placed pos s ++ placed (pos + byteLength s) t := by
  induction s generalizing pos with
  | nil => rfl
  | cons c s ih => rw [List.cons_append, placed, ih, byteLength_cons, ← Nat.add_assoc]; rfl

/-- A character stands where its text stands. -/
theorem bounds_of_mem_placed {pos : Nat} {s : List Char} {x : Nat × Char}
    (h : x ∈ placed pos s) : pos ≤ x.1 ∧ x.1 < pos + byteLength s ∧ x.2 ∈ s := by
  induction s generalizing pos with
  | nil => cases h
  | cons c s ih =>
    rcases List.mem_cons.1 h with rfl | h
    · have hc := c.utf8Size_pos
      rw [byteLength_cons]
      exact ⟨Nat.le_refl _, by omega, List.mem_cons_self⟩
    · obtain ⟨hle, hlt, hmem⟩ := ih h
      rw [byteLength_cons]
      exact ⟨by omega, by omega, List.mem_cons_of_mem _ hmem⟩

namespace Nesting
variable {n : Nesting} {pos depth : Nat} {c : Char} {s : List Char}

/-- **The exposed characters of a text** scanned from `n`, with their byte positions. -/
def exposed (n : Nesting) (pos : Nat) : List Char → List (Nat × Char)
  | [] => []
  | c :: r =>
    if n.exposes c then (pos, c) :: exposed (n.next c) (pos + c.utf8Size) r
    else exposed (n.next c) (pos + c.utf8Size) r

theorem exposed_append (n : Nesting) (pos : Nat) (s t : List Char) :
    exposed n pos (s ++ t) = exposed n pos s ++ exposed (n.after s) (pos + byteLength s) t := by
  induction s generalizing n pos with
  | nil => rfl
  | cons c s ih =>
    rw [List.cons_append, exposed, exposed, ih, byteLength_cons, ← Nat.add_assoc, after_cons]
    split <;> rfl

/-! ## Taking a text apart at exposed characters -/

/-- The first piece of a text ends at the first exposed character that is sought. -/
theorem cut_eq_find (sep : Char) (n : Nesting) (pos : Nat) (s : List Char) :
    (cut sep n s).map (fun p => pos + byteLength p.1) =
      ((exposed n pos s).find? fun x => x.2 == sep).map Prod.fst := by
  induction s generalizing n pos with
  | nil => rfl
  | cons c s ih =>
    rw [cut, exposed]
    cases hexposes : n.exposes c with
    | false =>
      have ih := ih (n.next c) (pos + c.utf8Size)
      simp only [Bool.false_and, Bool.false_eq_true, if_false, Option.map_map, ← ih]
      refine congrArg (fun f => Option.map f _) (funext fun p => ?_)
      simp [Nat.add_assoc]
    | true =>
      by_cases hc : c = sep
      · simp [hc]
      · have ih := ih (n.next c) (pos + c.utf8Size)
        simp only [Bool.true_and, beq_iff_eq, hc, if_false, if_true, Option.map_map,
          List.find?_cons_of_neg, not_false_eq_true, ← ih]
        refine congrArg (fun f => Option.map f _) (funext fun p => ?_)
        simp [Nat.add_assoc]

/-- Each piece but the first begins behind an exposed separator. -/
theorem starts_of_pieces (sep : Char) (n : Nesting) (pos : Nat) (s : List Char) :
    (Slice.place sep pos ((pieces sep n s).1 :: (pieces sep n s).2)).map Slice.start =
      pos :: ((exposed n pos s).filter fun x => x.2 == sep).map fun x => x.1 + sep.utf8Size := by
  induction s generalizing n pos with
  | nil => rfl
  | cons c s ih =>
    have ih := ih (n.next c) (pos + c.utf8Size)
    rw [pieces, exposed]
    cases hexposes : n.exposes c with
    | false =>
      simp only [Slice.place, List.map_cons, List.cons.injEq, true_and, Bool.false_and,
        Bool.false_eq_true, if_false, byteLength_cons, ← Nat.add_assoc] at ih ⊢
      exact ih
    | true =>
      by_cases hc : c = sep
      · subst hc
        simp only [beq_self_eq_true, Bool.and_self, if_true, Slice.place, List.map_cons,
          byteLength_nil, Nat.add_zero, List.filter_cons_of_pos] at ih ⊢
        rw [ih]
      · simp only [Slice.place, List.map_cons, List.cons.injEq, true_and, Bool.true_and,
          beq_iff_eq, hc, if_false, if_true, byteLength_cons, ← Nat.add_assoc,
          List.filter_cons_of_neg, not_false_eq_true] at ih ⊢
        exact ih

/-! ## What is exposed in a token -/

/-- Outside of quotes, what neither quotes nor closes is exposed if no parenthesis is open. -/
theorem exposes_unquoted (hquote : isQuote c = false) (hclose : c ≠ ')') :
    (⟨depth, none⟩ : Nesting).exposes c = decide (depth = 0) := by
  rw [Bool.eq_iff_iff]
  simp [exposes, start, hquote, hclose]

/-- In plain text everything is exposed, unless a parenthesis is open. -/
theorem exposed_of_isPlain (hs : ∀ c ∈ s, IsPlain c) :
    exposed ⟨depth, none⟩ pos s = (placed pos s).filter fun _ => depth = 0 := by
  induction s generalizing pos with
  | nil => rfl
  | cons c s ih =>
    obtain ⟨hc, hs⟩ := List.forall_mem_cons.1 hs
    rw [exposed, next_of_isPlain hc rfl, ih hs, exposes_unquoted hc.1 hc.2.2, placed,
      List.filter_cons]

/-- Where no separator cuts a text, nothing of it is exposed. -/
theorem exposed_eq_nil (h : ∀ sep, cut sep n s = none) : exposed n pos s = [] := by
  refine List.eq_nil_iff_forall_not_mem.2 fun x hx => ?_
  have hfind := cut_eq_find x.2 n pos s
  rw [h, Option.map_none, eq_comm, Option.map_eq_none_iff] at hfind
  exact List.find?_eq_none.1 hfind x hx (beq_self_eq_true x.2)

/-- A closed text is closed in any number of groups. -/
theorem scan?_of_isClosed (hs : IsClosed s) :
    ∀ depth, scan? ⟨depth, none⟩ s = some ⟨depth, none⟩
  | 0 => hs
  | depth + 1 => scan?_deeper (scan?_of_isClosed hs depth)

/-- A string exposes nothing, and after it the scan is where it was before. -/
theorem exposed_written (depth pos : Nat) (s : List Char) :
    exposed ⟨depth, none⟩ pos (Quoted.written s) = [] ∧
      after ⟨depth, none⟩ (Quoted.written s) = ⟨depth, none⟩ := by
  have hscan := scan?_of_isClosed (@Fits.written ',' s).1
  refine ⟨exposed_eq_nil fun sep => ?_, after_of_scan? (hscan depth)⟩
  cases depth with
  | zero => exact (Fits.written s).2
  | succ depth => exact cut_deeper (hscan depth)

end Nesting
end Text

/-! ## What the tokens say -/

/-- The number of open parentheses after a token. -/
def Kind.depthAfter (depth : Nat) : Kind → Nat
  | .leftParen => depth + 1
  | .rightParen => depth - 1
  | _ => depth

namespace Lexing

/-- The number of open parentheses after tokens, with `depth` of them open before. -/
def depthAfter (depth : Nat) (ts : List Token) : Nat :=
  ts.foldl (fun d t => t.kind.depthAfter d) depth

/-- A character stands at the top of a text, as its tokens have it: outside of every string,
and in no group of parentheses.  The parenthesis that opens a group still does, the one that
closes it does not.  Before the tokens, `depth` parentheses are open. -/
@[mk_iff]
structure AtTop (depth : Nat) (ts : List Token) (x : Nat × Char) : Prop where
  outside : ∀ t ∈ ts, t.kind.isString = true → ¬ (t.span.start ≤ x.1 ∧ x.1 < t.span.stop)
  not_close : x.2 ≠ ')'
  top : depthAfter depth (ts.filter (·.span.start ≤ x.1)) = 0 ∨
    x.2 = '(' ∧ depthAfter depth (ts.filter (·.span.start < x.1)) = 0 ∧
      depthAfter depth (ts.filter (·.span.start ≤ x.1)) = 1

instance (depth : Nat) (ts : List Token) : DecidablePred (AtTop depth ts) := fun x =>
  decidable_of_iff _ (atTop_iff depth ts x).symm

variable {depth pos next : Nat} {k : Kind} {ts : List Token} {ls : List Lexeme} {x : Nat × Char}

theorem start_of_mem_tokensFrom {t : Token} (h : t ∈ tokensFrom pos ls) : pos ≤ t.span.start := by
  induction ls generalizing pos with
  | nil =>
    obtain rfl := List.mem_singleton.1 h
    exact Nat.le_refl _
  | cons l ls ih =>
    cases l with
    | token kind =>
      rcases List.mem_cons.1 h with rfl | h
      · exact Nat.le_refl _
      · exact Nat.le_trans (Nat.le_add_right _ _) (ih h)
    | gap _ | stray _ => exact Nat.le_trans (Nat.le_add_right _ _) (ih h)

/-- Tokens behind a character have no say in where it stands. -/
theorem atTop_append (us : List Token) (hts : ∀ t ∈ ts, x.1 < t.span.start) :
    AtTop depth (us ++ ts) x ↔ AtTop depth us x := by
  have hbehind : ∀ p : Token → Bool, (∀ t, p t = true → t.span.start ≤ x.1) →
      (us ++ ts).filter p = us.filter p := by
    intro p hp
    have hnone : ts.filter p = [] :=
      List.filter_eq_nil_iff.2 fun t ht hpt => Nat.not_lt.2 (hp t hpt) (hts t ht)
    rw [List.filter_append, hnone, List.append_nil]
  have hthrough := hbehind (·.span.start ≤ x.1) fun t ht => of_decide_eq_true ht
  have hbefore := hbehind (·.span.start < x.1) fun t ht => Nat.le_of_lt (of_decide_eq_true ht)
  rw [atTop_iff, atTop_iff, hthrough, hbefore, List.forall_mem_append]
  exact and_congr_left' (and_iff_left fun t ht _ hin => Nat.not_le.2 (hts t ht) hin.1)

/-- A token in front of a character counts if it is a parenthesis. -/
theorem atTop_cons (hk : pos < next) (hx : next ≤ x.1) :
    AtTop depth (⟨k, ⟨pos, next⟩⟩ :: ts) x ↔ AtTop (k.depthAfter depth) ts x := by
  have hcount : ∀ p : Token → Bool, p ⟨k, ⟨pos, next⟩⟩ = true →
      depthAfter depth ((⟨k, ⟨pos, next⟩⟩ :: ts).filter p) =
        depthAfter (k.depthAfter depth) (ts.filter p) := by
    intro p hp
    rw [List.filter_cons_of_pos hp]
    rfl
  have hlt : pos < x.1 := Nat.lt_of_lt_of_le hk hx
  have hthrough := hcount (·.span.start ≤ x.1) (decide_eq_true (Nat.le_of_lt hlt))
  have hbefore := hcount (·.span.start < x.1) (decide_eq_true hlt)
  rw [atTop_iff, atTop_iff, hthrough, hbefore, List.forall_mem_cons]
  exact and_congr_left' (and_iff_right fun _ hin => absurd hin.2 (Nat.not_lt.2 hx))

/-- Between tokens, plain characters stand at the top if nothing is open. -/
theorem atTop_gap (hx : Nesting.IsPlain x.2) : AtTop depth [] x ↔ depth = 0 :=
  ⟨fun h => h.top.elim id fun htop => absurd htop.1 hx.2.1,
    fun h => ⟨nofun, hx.2.2, .inl h⟩⟩

/-- In a token that is no string and no parenthesis they do so as well. -/
theorem atTop_plain (hx : Nesting.IsPlain x.2) (hs : k.isString = false)
    (hk : k.depthAfter depth = depth) (hpos : pos ≤ x.1) :
    AtTop depth [⟨k, ⟨pos, next⟩⟩] x ↔ depth = 0 := by
  have hthrough : depthAfter depth ([⟨k, ⟨pos, next⟩⟩].filter (·.span.start ≤ x.1)) = depth := by
    have hfilter : [(⟨k, ⟨pos, next⟩⟩ : Token)].filter (·.span.start ≤ x.1) = [⟨k, ⟨pos, next⟩⟩] :=
      List.filter_cons_of_pos (decide_eq_true hpos)
    rw [hfilter]
    exact hk
  constructor
  · rintro ⟨-, -, htop | htop⟩
    · exact hthrough.symm.trans htop
    · exact absurd htop.1 hx.2.1
  · refine fun h => ⟨fun t ht hstring => ?_, hx.2.2, .inl (hthrough.trans h)⟩
    obtain rfl := List.mem_singleton.1 ht
    exact absurd (hs.symm.trans hstring) Bool.false_ne_true

/-- The parenthesis that opens a group stands at the top if nothing is open before it. -/
theorem atTop_open :
    AtTop depth [⟨.leftParen, ⟨pos, next⟩⟩] (pos, '(') ↔ depth = 0 := by
  have hthrough : depthAfter depth
      ([(⟨.leftParen, ⟨pos, next⟩⟩ : Token)].filter (·.span.start ≤ pos)) = depth + 1 := by
    simp [depthAfter, Kind.depthAfter]
  have hbefore : depthAfter depth
      ([(⟨.leftParen, ⟨pos, next⟩⟩ : Token)].filter (·.span.start < pos)) = depth := by
    simp [depthAfter]
  have hclose : '(' ≠ ')' := by decide
  constructor
  · rintro ⟨-, -, htop | ⟨-, htop, -⟩⟩
    · exact absurd (hthrough.symm.trans htop) (Nat.succ_ne_zero depth)
    · exact hbefore.symm.trans htop
  · rintro rfl
    refine ⟨fun t ht hstring => ?_, hclose, .inr ⟨rfl, hbefore, hthrough⟩⟩
    obtain rfl := List.mem_singleton.1 ht
    cases hstring

/-! ## The scan and the tokens agree -/

/-- In one token the scan and the tokens agree, and the scan counts as they do. -/
theorem exposed_token (hk : k.Spelled) (depth pos : Nat) :
    Nesting.exposed ⟨depth, none⟩ pos k.written =
        (placed pos k.written).filter
          (AtTop depth [⟨k, ⟨pos, pos + byteLength k.written⟩⟩] ·) ∧
      Nesting.after ⟨depth, none⟩ k.written = ⟨k.depthAfter depth, none⟩ := by
  by_cases hl : k = .leftParen
  · subst hl
    refine ⟨?_, rfl⟩
    have hexposed : Nesting.exposed ⟨depth, none⟩ pos Kind.leftParen.written =
        (placed pos Kind.leftParen.written).filter fun _ => depth = 0 := by
      rw [Kind.written, Nesting.exposed, Nesting.exposes_unquoted rfl (by decide), placed,
        List.filter_cons]
      rfl
    refine hexposed.trans (List.filter_congr fun x hx => ?_)
    obtain rfl := List.mem_singleton.1 hx
    exact decide_eq_decide.2 atTop_open.symm
  by_cases hr : k = .rightParen
  · subst hr
    have hexposed : Nesting.exposed ⟨depth, none⟩ pos Kind.rightParen.written = [] :=
      Nesting.exposed_eq_nil fun sep => by simp [Kind.written, Nesting.cut, Nesting.exposes]
    refine ⟨hexposed.trans (List.filter_eq_nil_iff.2 fun x hx htop => ?_).symm, rfl⟩
    obtain rfl := List.mem_singleton.1 hx
    exact (of_decide_eq_true htop).not_close rfl
  cases hs : k.isString with
  | true =>
    cases k with
    | string content =>
      obtain ⟨hexposed, hafter⟩ := Nesting.exposed_written depth pos content.toList
      refine ⟨hexposed.trans (List.filter_eq_nil_iff.2 fun x hx htop => ?_).symm, hafter⟩
      obtain ⟨hle, hlt, -⟩ := bounds_of_mem_placed hx
      exact (of_decide_eq_true htop).outside _ (List.mem_singleton_self _) hs ⟨hle, hlt⟩
    | _ => cases hs
  | false =>
    have hplain := hk.isPlain hs hl hr
    have hdepth : k.depthAfter depth = depth := by
      unfold Kind.depthAfter
      split <;> first | rfl | contradiction
    refine ⟨?_, (Nesting.after_of_isPlain hplain rfl).trans (by rw [hdepth])⟩
    refine (Nesting.exposed_of_isPlain hplain).trans (List.filter_congr fun x hx => ?_)
    obtain ⟨hle, -, hmem⟩ := bounds_of_mem_placed hx
    exact decide_eq_decide.2 (atTop_plain (hplain _ hmem) hs hdepth hle).symm

/-- What a text without failures is made of: gaps, and tokens as they are spelled. -/
def IsClean : Lexeme → Prop
  | .gap t => ∀ c ∈ t, isGap c = true
  | .token k => k.Spelled
  | .stray _ => False

/-- The scan and the tokens agree, whatever is open before.  The induction is on the lexemes:
the first of them decides about its own characters, and all that it leaves to the others is how
many parentheses are open, which both sides count alike. -/
theorem exposed_lexemes (hls : ∀ l ∈ ls, IsClean l) (depth pos : Nat) :
    Nesting.exposed ⟨depth, none⟩ pos (ls.flatMap Lexeme.text) =
      (placed pos (ls.flatMap Lexeme.text)).filter (AtTop depth (tokensFrom pos ls) ·) := by
  induction ls generalizing depth pos with
  | nil => rfl
  | cons l ls ih =>
    obtain ⟨hl, hothers⟩ := List.forall_mem_cons.1 hls
    have hbehind : ∀ x ∈ placed pos l.text, ∀ t ∈ tokensFrom (pos + byteLength l.text) ls,
        x.1 < t.span.start := fun x hx t ht =>
      Nat.lt_of_lt_of_le (bounds_of_mem_placed hx).2.1 (start_of_mem_tokensFrom ht)
    rw [List.flatMap_cons, Nesting.exposed_append, placed_append, List.filter_append]
    cases l with
    | stray t => exact hl.elim
    | gap t =>
      have hplain : ∀ c ∈ t, Nesting.IsPlain c := fun c hc =>
        Nesting.isPlain_of_isBlank (isBlank_of_isGap (hl c hc))
      rw [Lexeme.text, Nesting.after_of_isPlain hplain rfl, ih hothers,
        Nesting.exposed_of_isPlain hplain]
      refine congrArg (· ++ _) (List.filter_congr fun x hx => ?_)
      have htop : AtTop depth (tokensFrom pos (.gap t :: ls)) x ↔ AtTop depth [] x :=
        atTop_append [] (hbehind x hx)
      exact decide_eq_decide.2
        (htop.trans (atTop_gap (hplain _ (bounds_of_mem_placed hx).2.2))).symm
    | token k =>
      obtain ⟨hexposed, hafter⟩ := exposed_token hl depth pos
      rw [Lexeme.text, hafter, ih hothers, hexposed]
      refine congrArg₂ (· ++ ·) (List.filter_congr fun x hx => ?_)
        (List.filter_congr fun x hx => ?_)
      · exact decide_eq_decide.2 (atTop_append [_] (hbehind x hx)).symm
      · have hk : pos < pos + byteLength k.written := by
          obtain ⟨c, r, hw, -⟩ := hl.head_not_isGap
          have hc := c.utf8Size_pos
          rw [hw, byteLength_cons]
          omega
        exact decide_eq_decide.2 (atTop_cons hk (bounds_of_mem_placed hx).1).symm

/-- Where a text has no failures, no lexeme of it is stray. -/
theorem not_stray_of_failuresFrom (h : failuresFrom pos false ls = []) {t : List Char} :
    Lexeme.stray t ∉ ls := by
  induction ls generalizing pos with
  | nil => exact List.not_mem_nil
  | cons l ls ih =>
    cases l with
    | stray u => cases h
    | gap u | token k =>
      intro ht
      rcases List.mem_cons.1 ht with ht | ht
      · cases ht
      · exact ih h ht

theorem isClean_of_failuresFrom {s : List Char}
    (h : failuresFrom pos false (Lexeme.ofText s) = []) : ∀ l ∈ Lexeme.ofText s, IsClean l
  | .gap _, hl => Lexeme.isGap_of_mem_ofText s hl
  | .token _, hl => Lexeme.spelled_of_mem_ofText s hl
  | .stray _, hl => not_stray_of_failuresFrom h hl

end Lexing

namespace Slice

/-- **The characters of a slice that stand at the top of it**, as its tokens have it. -/
def top (s : Slice) : List (Nat × Char) :=
  (placed s.start s.text).filter (Lexing.AtTop 0 (Lexing.ofSlice s).tokens ·)

/-- **The raw scan and the tokens agree on strings and groups**, where a slice is read without
failures: the characters that the scan finds exposed are those that stand at the top, so the slice
is split at the separators among those, and cut at the first of them. -/
theorem exposed_eq_top {s : Slice} (h : (Lexing.ofSlice s).failures = []) :
    Nesting.start.exposed s.start s.text = s.top ∧
      (∀ sep, (s.split sep).map Slice.start =
        s.start :: (s.top.filter (·.2 == sep)).map (·.1 + sep.utf8Size)) ∧
      ∀ sep, (s.cut sep).map (·.1.stop) = (s.top.find? (·.2 == sep)).map Prod.fst := by
  have hexposed : Nesting.start.exposed s.start s.text = s.top := by
    have hlexemes := Lexing.exposed_lexemes (Lexing.isClean_of_failuresFrom h) 0 s.start
    rwa [Lexeme.flatMap_text_ofText] at hlexemes
  refine ⟨hexposed, fun sep => ?_, fun sep => ?_⟩
  · rw [← hexposed]
    exact Nesting.starts_of_pieces sep Nesting.start s.start s.text
  · rw [← hexposed, ← Nesting.cut_eq_find, Slice.cut, Option.map_map]
    rfl

/-- A value with both quotes and two parentheses in a string, a group, and a parenthesis that closes
nothing. -/
def tangled : Slice := Slice.ofString "a,')''\"(',(b,'c'),d),e" 8

theorem starts_tangled :
    (Lexing.ofSlice tangled).failures = [] ∧
      (tangled.split ',').map Slice.start = [8, 10, 18, 26, 29] := by
  have hclean : (Lexing.ofSlice tangled).failures = [] := by decide +kernel
  exact ⟨hclean, ((exposed_eq_top hclean).2.1 ',').trans (by decide +kernel)⟩

end Slice
end OData
