import OData.Grammar.Basic
import OData.Query.Options

/-!
# Text at another place

A slice that stands `k` bytes further on holds the same text.  Whatever is taken off it
is the same, and every failure is the same but for its places, all of which are `k`
bytes further on.  The lemmas here say so for tokens, for the parts of a slice and for
items that are taken apart.
-/
namespace OData
open Text Grammar Options

/-! ## Shifting -/

/-- The span `k` bytes further on. -/
def Span.shift (k : Nat) (p : Span) : Span := ⟨p.start + k, p.stop + k⟩

/-- The token `k` bytes further on. -/
def Token.shift (k : Nat) (t : Token) : Token := ⟨t.kind, t.span.shift k⟩

/-- The slice `k` bytes further on. -/
def Slice.shift (k : Nat) (s : Slice) : Slice := ⟨s.text, s.start + k⟩

/-- The cause, with the places that it names `k` bytes further on. -/
def Cause.shift (k : Nat) : Cause → Cause
  | .repeatedOption option first => .repeatedOption option (first.shift k)
  | .repeatedExpand first => .repeatedExpand (first.shift k)
  | c => c

/-- **The failure with all its places `k` bytes further on.** -/
def Failure.shift (k : Nat) (f : Failure) : Failure := ⟨f.cause.shift k, f.span.shift k⟩

/-- The label `k` bytes further on. -/
def Label.shift (k : Nat) (l : Label) : Label := { l with span := l.span.shift k }

/-- **The diagnostic with all its labels `k` bytes further on.** -/
def Diagnostic.shift (k : Nat) (d : Diagnostic) : Diagnostic :=
  { d with labels := d.labels.map (Label.shift k) }

/-- The refusal with all its labels `k` bytes further on. -/
def Refusal.shift (k : Nat) : Refusal → Refusal
  | .malformed d => .malformed (d.shift k)
  | .invalid d => .invalid (d.shift k)

/-- The reason to stop, with all its places `k` bytes further on. -/
def Grammar.Stop.shift (k : Nat) : Stop → Stop
  | .refused f => .refused (f.shift k)
  | e => e

section Failures
variable {k : Nat}

theorem Span.join_shift (a b : Span) : (a.shift k).join (b.shift k) = (a.join b).shift k := by
  simp only [Span.join, Span.shift, Span.mk.injEq]
  omega

theorem Cause.shift_of_earlier {c : Cause} (h : c.earlier = none) : c.shift k = c := by
  cases c <;> first | rfl | cases h

/-- A failure that is shifted has its labels shifted, and nothing else changed. -/
theorem Failure.diagnostic_shift (f : Failure) :
    (f.shift k).diagnostic = f.diagnostic.shift k := by
  obtain ⟨cause, span⟩ := f
  cases cause <;> rfl

theorem Failure.refusal_shift (f : Failure) : (f.shift k).refusal = f.refusal.shift k := by
  have hcode : (f.shift k).cause.code = f.cause.code := by
    obtain ⟨cause, span⟩ := f
    cases cause <;> rfl
  rw [Failure.refusal, Failure.refusal, hcode, Failure.diagnostic_shift]
  split <;> rfl

end Failures

/-! ## Tokens -/

section Tokens
variable (k : Nat)

theorem tokensFrom_shift (ls : List Lexeme) (pos : Nat) :
    Lexing.tokensFrom (pos + k) ls = (Lexing.tokensFrom pos ls).map (Token.shift k) := by
  induction ls generalizing pos with
  | nil => rfl
  | cons l ls ih =>
    have hnext : pos + k + byteLength l.text = pos + byteLength l.text + k := by omega
    cases l with
    | token kind =>
      have hspan : (⟨pos + k, pos + byteLength (Lexeme.token kind).text + k⟩ : Span) =
          (⟨pos, pos + byteLength (Lexeme.token kind).text⟩ : Span).shift k := rfl
      rw [Lexing.tokensFrom, Lexing.tokensFrom, hnext, ih, hspan]
      rfl
    | gap t | stray t => simp only [Lexing.tokensFrom, hnext, ih]

theorem strayFailure_shift (run : Slice) :
    Lexing.strayFailure (run.shift k) = (Lexing.strayFailure run).shift k := by
  have hspan : (run.shift k).trimEnd.span = run.trimEnd.span.shift k := by
    exact congrArg (Span.mk _) (Nat.add_right_comm ..)
  unfold Lexing.strayFailure
  simp only [hspan]
  show (if run.trimEnd.text.head? = some Quoted.mark then _ else _) = _
  split
  · rfl
  · rfl

theorem failuresFrom_shift (ls : List Lexeme) (pos : Nat) (inRun : Bool) :
    Lexing.failuresFrom (pos + k) inRun ls =
      (Lexing.failuresFrom pos inRun ls).map (Failure.shift k) := by
  induction ls generalizing pos inRun with
  | nil => rfl
  | cons l ls ih =>
    have hnext : pos + k + byteLength l.text = pos + byteLength l.text + k := by omega
    cases l with
    | token kind | gap t => simp only [Lexing.failuresFrom, hnext, ih]
    | stray t =>
      cases inRun with
      | true => simp only [Lexing.failuresFrom, hnext, ih, if_true]
      | false =>
        simp only [Lexing.failuresFrom, hnext, ih, Bool.false_eq_true, if_false, List.map_cons]
        exact congrArg (· :: _) (strayFailure_shift k ⟨_, pos⟩)

/-- The tokens of a slice further on are its tokens, further on. -/
theorem tokens_shift (s : Slice) :
    (s.shift k).tokens =
      match s.tokens with
      | .ok ts => .ok (ts.map (Token.shift k))
      | .error f => .error (f.shift k) := by
  unfold Slice.tokens Lexing.ofSlice
  simp only [Slice.shift, tokensFrom_shift, failuresFrom_shift]
  cases Lexing.failuresFrom s.start false (Lexeme.ofText s.text) <;> rfl

end Tokens

/-! ## Slices -/

section Slices
variable (k : Nat) (s : Slice) (c : Char)

theorem Slice.trimStart_shift : (s.shift k).trimStart = s.trimStart.shift k :=
  congrArg (Slice.mk _) (Nat.add_right_comm ..)

theorem Slice.trim_shift : (s.shift k).trim = s.trim.shift k := by
  rw [Slice.trim, Slice.trimStart_shift]
  rfl

theorem Slice.stop_shift : (s.shift k).stop = s.stop + k := Nat.add_right_comm ..

theorem Slice.span_shift : (s.shift k).span = s.span.shift k :=
  congrArg (Span.mk _) (Slice.stop_shift k s)

theorem Slice.breakAt_shift : (s.shift k).breakAt c =
    (s.breakAt c).map fun p => (p.1.shift k, p.2.shift k) := by
  unfold Slice.breakAt
  simp only [Slice.shift]
  cases s.text.dropWhile (· != c) with
  | nil => rfl
  | cons d rest =>
    have hpos (n m : Nat) : s.start + k + n + m = s.start + n + m + k := by omega
    simp only [Option.map_some, Slice.stop, hpos]

theorem Slice.cut_shift : (s.shift k).cut c =
    (s.cut c).map fun p => (p.1.shift k, p.2.shift k) := by
  unfold Slice.cut
  simp only [Slice.shift]
  cases Nesting.cut c Nesting.start s.text with
  | none => rfl
  | some p =>
    have hpos (n m : Nat) : s.start + k + n + m = s.start + n + m + k := by omega
    simp only [Option.map_some, Slice.stop, hpos]

theorem Slice.place_shift (pos : Nat) (ts : List (List Char)) :
    Slice.place c (pos + k) ts = (Slice.place c pos ts).map (Slice.shift k) := by
  induction ts generalizing pos with
  | nil => rfl
  | cons t ts ih =>
    have hnext : pos + k + byteLength t + c.utf8Size = pos + byteLength t + c.utf8Size + k := by
      omega
    rw [Slice.place, hnext, ih]
    rfl

theorem Slice.split_shift : (s.shift k).split c = (s.split c).map (Slice.shift k) :=
  Slice.place_shift k c s.start _

end Slices

namespace Options
variable (k : Nat)

/-! ## Assignments and expand items -/

/-- The assignment `k` bytes further on. -/
def Assignment.shift (a : Assignment) : Assignment := ⟨a.option, a.name.shift k, a.value.shift k⟩

/-- The parts of an expand item `k` bytes further on. -/
def ExpandParts.shift (p : ExpandParts) : ExpandParts :=
  ⟨p.path.shift k, p.options.map (Slice.shift k)⟩

theorem assignment?_shift (item : Slice) :
    assignment? (item.shift k) =
      ((assignment? item).mapError (Failure.shift k)).map (Option.map (Assignment.shift k)) := by
  simp only [assignment?, Slice.trimStart_shift, Slice.breakAt_shift]
  generalize item.trimStart = t
  have htext : (t.shift k).text = t.text := rfl
  rw [htext]
  split
  · rfl
  · cases t.breakAt '=' with
    | none =>
      have hspan : (t.shift k).trimEnd.span = t.trimEnd.span.shift k :=
        Slice.span_shift k t.trimEnd
      simp only [Option.map_none, hspan]
      rfl
    | some p =>
      have hname : (p.1.shift k).trimEnd.toString = p.1.trimEnd.toString := rfl
      have hspan : (p.1.shift k).trimEnd.span = p.1.trimEnd.span.shift k :=
        Slice.span_shift k p.1.trimEnd
      simp only [Option.map_some, hname, hspan]
      cases (Keyword.find? p.1.trimEnd.toString : Option QueryOption) <;> rfl

theorem Assignment.span_shift (a : Assignment) : (a.shift k).span = a.span.shift k :=
  congrArg (Span.mk _) (Slice.stop_shift k a.value)

theorem expandParts_shift (item : Slice) :
    expandParts (item.shift k) =
      ((expandParts item).mapError (Failure.shift k)).map (ExpandParts.shift k) := by
  have htext : (item.shift k).text = item.text := rfl
  unfold expandParts
  rw [htext, Slice.cut_shift, Slice.span_shift]
  split
  · rfl
  · cases item.cut '(' with
    | none => rfl
    | some p =>
      obtain ⟨path, inside⟩ := p
      simp only [Option.map_some, Slice.shift, Slice.stop, Nat.add_right_comm _ k]
      cases Text.close 1 none inside.text with
      | closed options rest =>
        cases rest with
        | nil => rfl
        | cons c rest => rfl
      | unclosed | overdrawn => rfl

/-- The first place that is kept for a key, among places further on. -/
theorem lookup_shift {α : Type} [BEq α] (seen : List (α × Span)) (a : α) :
    (seen.map fun p => (p.1, p.2.shift k)).lookup a = (seen.lookup a).map (Span.shift k) := by
  induction seen with
  | nil => rfl
  | cons p seen ih =>
    rw [List.map_cons, List.lookup_cons, List.lookup_cons]
    split
    · rfl
    · exact ih

end Options

end OData
