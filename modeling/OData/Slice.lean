import OData.Span
import OData.Text.Blank
import OData.Text.Nesting

/-!
# Slices of the query text

A slice is a part of the query text that knows where it begins.  Option lists are
taken apart by the operations below, each of which keeps account of the position,
so whatever is read from a slice reports its place in the whole query.
-/

namespace OData

/-- **A part of the query text**: its characters and the byte position of the first. -/
structure Slice where
  /-- The characters. -/
  text : List Char
  /-- The byte position of the first of them. -/
  start : Nat
  deriving DecidableEq, Repr

namespace Slice
open Text

/-- The whole of a text, as it stands at a position. -/
def ofString (s : String) (pos : Nat) : Slice := ⟨s.toList, pos⟩

/-- The characters of a slice as a string. -/
def toString (s : Slice) : String := String.ofList s.text

/-- The byte position after a slice. -/
def stop (s : Slice) : Nat := s.start + byteLength s.text

/-- The span of a slice. -/
def span (s : Slice) : Span := ⟨s.start, s.stop⟩

/-- A slice without its leading blanks; it begins where the blanks end. -/
def trimStart (s : Slice) : Slice :=
  ⟨Text.trimStart s.text, s.start + byteLength (s.text.takeWhile isBlank)⟩

/-- **A slice without its trailing blanks**; it begins where it began. -/
def trimEnd (s : Slice) : Slice := ⟨Text.trimEnd s.text, s.start⟩

/-- **A slice without the blanks at both ends.** -/
def trim (s : Slice) : Slice := s.trimStart.trimEnd

/-- The parts of a slice before and after the first `c` anywhere in it. -/
def breakAt (c : Char) (s : Slice) : Option (Slice × Slice) :=
  match s.text.dropWhile (· != c) with
  | [] => none
  | d :: rest =>
    let before : Slice := ⟨s.text.takeWhile (· != c), s.start⟩
    some (before, ⟨rest, before.stop + d.utf8Size⟩)

/-- **The parts of a slice before and after the first `c` outside quotes and parentheses.** -/
def cut (c : Char) (s : Slice) : Option (Slice × Slice) :=
  (Nesting.cut c Nesting.start s.text).map fun p =>
    let before : Slice := ⟨p.1, s.start⟩
    (before, ⟨p.2, before.stop + c.utf8Size⟩)

/-- Texts that stand one after the other, each but the last followed by `sep`, placed
from a position on. -/
def place (sep : Char) : Nat → List (List Char) → List Slice
  | _, [] => []
  | pos, t :: r => ⟨t, pos⟩ :: place sep (pos + byteLength t + sep.utf8Size) r

/-- **The parts of a slice between its separators** outside quotes and parentheses. -/
def split (sep : Char) (s : Slice) : List Slice := place sep s.start (Nesting.split sep s.text)

end Slice

end OData
