import OData.Failure
import OData.Slice
import OData.Token.Lexeme

/-!
# The tokens of a slice

A slice of the query text becomes its tokens, closed by the end of the text, and
the failures of the characters that made none.  Stray characters with no token
between them are one failure.  Its text runs from the first of them to the next
token, less the blanks at its end; where all of it is blank that leaves nothing,
and the failure is reported at the empty span.
-/

namespace OData
open Text

/-- **What reading a slice gives.** -/
structure Lexing where
  /-- The tokens, the last of which is the end of the text. -/
  tokens : List Token
  /-- The failures, from left to right. -/
  failures : List Failure
  deriving DecidableEq, Repr

namespace Lexing

/-- The tokens of a sequence of lexemes that begins at a position. -/
def tokensFrom (pos : Nat) : List Lexeme → List Token
  | [] => [⟨.eof, Span.point pos⟩]
  | l :: r =>
    let next := pos + byteLength l.text
    match l with
    | .token kind => ⟨kind, ⟨pos, next⟩⟩ :: tokensFrom next r
    | _ => tokensFrom next r

/-- The failure of a run of stray characters, given up to the next token. -/
def strayFailure (run : Slice) : Failure :=
  let shown := run.trimEnd
  if shown.text.head? = some Quoted.mark then ⟨.unclosedString, shown.span⟩
  else ⟨.strayText shown.toString, shown.span⟩

/-- The lexeme is a token. -/
def isToken : Lexeme → Bool
  | .token _ => true
  | _ => false

/-- The failures of a sequence of lexemes that begins at a position.  `inRun` says that
stray characters came before with no token after them, so that more of them belong to
a failure that has been reported. -/
def failuresFrom (pos : Nat) (inRun : Bool) : List Lexeme → List Failure
  | [] => []
  | l :: r =>
    let next := pos + byteLength l.text
    match l with
    | .token _ => failuresFrom next false r
    | .gap _ => failuresFrom next inRun r
    | .stray t =>
      if inRun then failuresFrom next true r
      else
        let run := t ++ (r.takeWhile fun l => !isToken l).flatMap Lexeme.text
        strayFailure ⟨run, pos⟩ :: failuresFrom next true r

/-- **Reads a slice.** -/
def ofSlice (s : Slice) : Lexing :=
  let lexemes := Lexeme.ofText s.text
  ⟨tokensFrom s.start lexemes, failuresFrom s.start false lexemes⟩

end Lexing

/-- **The tokens of a slice** in which every character belongs to one, or its first failure. -/
def Slice.tokens (s : Slice) : Except Failure (List Token) :=
  match Lexing.ofSlice s with
  | ⟨tokens, []⟩ => .ok tokens
  | ⟨_, f :: _⟩ => .error f

end OData
