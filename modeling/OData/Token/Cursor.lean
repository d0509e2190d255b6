import OData.Failure

/-!
# A cursor over tokens

A cursor is a place in a sequence of tokens, kept as the tokens before it, the
nearest first, and those from it on.  It moves forwards only, one token at a time,
and never off the last token, so at the end of a text it stays at the end of the
text.  An empty sequence reads as the end of an empty text.

`Reading` is the type of what is done with a cursor: it gives a value or a failure,
and in both cases leaves the cursor somewhere.
-/

namespace OData

/-- **A place in a sequence of tokens.** -/
structure Cursor where
  /-- The tokens before the place, the nearest first. -/
  before : List Token
  /-- The tokens from the place on. -/
  rest : List Token
  deriving DecidableEq, Repr

namespace Cursor

/-- The cursor at the start of a sequence. -/
def ofTokens (ts : List Token) : Cursor := ⟨[], ts⟩

/-- The number of tokens that the cursor has moved past. -/
def position (c : Cursor) : Nat := c.before.length

/-- **The token `n` places ahead**, or the last token if there are not as many. -/
def ahead (c : Cursor) (n : Nat) : Token :=
  match c.rest[n]? with
  | some t => t
  | none => c.rest.getLast?.getD Token.nothing

/-- **The token at the cursor.** -/
def current (c : Cursor) : Token := c.rest.head?.getD Token.nothing

/-- The place of the token that the cursor has moved past last, or of the token at the
cursor if it has not moved. -/
def previousSpan (c : Cursor) : Span :=
  match c.before with
  | t :: _ => t.span
  | [] => c.current.span

/-- **Moves past a token**, unless it is the last. -/
def advance (c : Cursor) : Cursor :=
  match c.rest with
  | t :: u :: r => ⟨t :: c.before, u :: r⟩
  | _ => c

/-- The token at the cursor is of a kind. -/
def isAt (c : Cursor) (k : Kind) : Bool := c.current.kind == k

/-- The token at the cursor is a given word. -/
def isAtWord (c : Cursor) (w : String) : Bool := c.current.kind.word? == some w

/-- The failure at the cursor of a token that is not what is needed. -/
def wants (c : Cursor) (what : String) : Failure :=
  ⟨.expected what c.current.kind, c.current.span⟩

end Cursor

/-- **What is done with a cursor.** -/
abbrev Reading := EStateM Failure Cursor

namespace Reading

/-- Moves past a token. -/
def advance : Reading Unit := modify Cursor.advance

/-- Moves past the token at the cursor if it is of a kind, and says whether it was. -/
def consume (k : Kind) : Reading Bool := do
  let c ← get
  if c.isAt k then
    advance
    pure true
  else pure false

/-- Moves past the token at the cursor if it is a given word, and says whether it was. -/
def consumeWord (w : String) : Reading Bool := do
  let c ← get
  if c.isAtWord w then
    advance
    pure true
  else pure false

/-- Moves past a token of a kind, and fails at any other. -/
def expect (k : Kind) : Reading Span := do
  let c ← get
  if c.isAt k then
    advance
    pure c.current.span
  else throw (c.wants k.describe)

/-- Moves past a word, and fails at any other token. -/
def expectWord (what : String) : Reading (Spanned String) := do
  let c ← get
  match c.current.kind.word? with
  | some w =>
    advance
    pure ⟨w, c.current.span⟩
  | none => throw (c.wants what)

/-! ### What is done -/

section Apply
variable (c : Cursor)

theorem consume_apply (k : Kind) :
    consume k c = if c.isAt k then .ok true c.advance else .ok false c := by
  have h : consume k c = (if c.isAt k then _ else _ : Reading Bool) c := rfl
  rw [h]
  split <;> rfl

theorem consumeWord_apply (w : String) :
    consumeWord w c = if c.isAtWord w then .ok true c.advance else .ok false c := by
  have h : consumeWord w c = (if c.isAtWord w then _ else _ : Reading Bool) c := rfl
  rw [h]
  split <;> rfl

theorem expect_apply (k : Kind) :
    expect k c = if c.isAt k then .ok c.current.span c.advance
      else .error (c.wants k.describe) c := by
  have h : expect k c = (if c.isAt k then _ else _ : Reading Span) c := rfl
  rw [h]
  split <;> rfl

theorem expectWord_apply (what : String) :
    expectWord what c =
      match c.current.kind.word? with
      | some w => .ok ⟨w, c.current.span⟩ c.advance
      | none => .error (c.wants what) c := by
  have h : expectWord what c =
      (match c.current.kind.word? with | some w => _ | none => _ : Reading _) c := rfl
  rw [h]
  cases c.current.kind.word? <;> rfl

end Apply

end Reading

end OData
