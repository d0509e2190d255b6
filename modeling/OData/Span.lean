/-!
# Spans

A span is a stretch of the query text, given by two byte positions.  Spans are
always absolute: what is read from the middle of a query carries the positions it
has in the whole of it.

A span need not be well formed.  `join` covers two spans whatever they are, and
`clamp` makes any span fit a text of a given length.
-/

namespace OData

/-- **A stretch of the query text**, from byte `start` up to but not including byte `stop`. -/
structure Span where
  /-- The first byte position of the stretch. -/
  start : Nat
  /-- The byte position after the stretch. -/
  stop : Nat
  deriving DecidableEq, Repr, Inhabited

namespace Span

/-- The empty span at a position. -/
def point (pos : Nat) : Span := ⟨pos, pos⟩

/-- **The smallest span that covers both.** -/
def join (a b : Span) : Span := ⟨min a.start b.start, max a.stop b.stop⟩

/-- **The part of a span that lies in a text** of `length` bytes.  A span that ends
before it starts becomes the empty span at its start. -/
def clamp (length : Nat) (a : Span) : Span :=
  let start := min a.start length
  ⟨start, max (min a.stop length) start⟩

/-- The number of bytes of a span. -/
def size (a : Span) : Nat := a.stop - a.start

/-- A clamped span lies in the text and does not end before it starts. -/
theorem clamp_bounds (length : Nat) (a : Span) :
    (a.clamp length).start ≤ (a.clamp length).stop ∧ (a.clamp length).stop ≤ length := by
  simp only [clamp]
  omega

/-- Clamping leaves a span that fits as it is. -/
theorem clamp_of_bounds {length : Nat} {a : Span} (h : a.start ≤ a.stop) (h' : a.stop ≤ length) :
    a.clamp length = a := by
  cases a
  simp only [clamp] at *
  congr <;> omega

end Span

/-- **A value together with the stretch of text it was read from.** -/
structure Spanned (α : Type) where
  /-- The value. -/
  value : α
  /-- Where it stands. -/
  span : Span
  deriving DecidableEq, Repr

namespace Spanned

/-- Changes the value and keeps its place.  This is for callers, who measure or convert what was
read; reading a query does not need it. -/
def map {α β : Type} (f : α → β) (a : Spanned α) : Spanned β := ⟨f a.value, a.span⟩

end Spanned

end OData
