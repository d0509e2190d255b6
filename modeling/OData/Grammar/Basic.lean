import OData.Settings
import OData.Token.Cursor
import OData.Token.Lexing

/-!
# What a grammar is made of

A grammar reads tokens off a cursor and keeps two counts.  The **depth** is the
number of brackets it is in; the **operators** are those it has read and not yet
built a tree from.  Either count may not pass its limit.

All of the state outlives a failure.  The cursor stays at the token that was
refused, and the operators stay counted; only the depth is put back, because
`nested` leaves a bracket however its inside ends.

`Stop` has two reasons beside a failure.  Neither is ever the outcome of a parse:
`overdrawn` would be a count that falls below zero, and `exhausted` a repetition
that takes more steps than there are tokens.
-/

namespace OData.Grammar

/-- **Why reading stops.** -/
inductive Stop where
  /-- The text is refused. -/
  | refused (failure : Failure)
  /-- A repetition outlasted the tokens. -/
  | exhausted
  /-- A count fell below zero. -/
  | overdrawn
  deriving DecidableEq, Repr

/-- **What a grammar is given**: the settings, and the option whose value it reads. -/
structure Context where
  /-- The settings of the parse. -/
  settings : Settings
  /-- The option, if there is one. -/
  option : Option QueryOption
  deriving DecidableEq, Repr

/-- **What a grammar keeps.** -/
structure State where
  /-- The place in the tokens. -/
  cursor : Cursor
  /-- The number of brackets around the place. -/
  depth : Nat
  /-- The number of operators read whose chain is not built. -/
  operators : Nat
  deriving DecidableEq, Repr

/-- The state before the first of some tokens, at a depth. -/
def State.start (tokens : List Token) (depth : Nat) : State := ⟨Cursor.ofTokens tokens, depth, 0⟩

/-- **Reads a value**, or stops. -/
abbrev Parse := EStateM Stop State

/-! ## Tokens -/

/-- Refuses the text for a cause at a place. -/
def refuse {α : Type} (cause : Cause) (span : Span) : Parse α := throw (.refused ⟨cause, span⟩)

/-- The cursor. -/
def cursor : Parse Cursor := do pure (← get).cursor

/-- The token at the cursor. -/
def current : Parse Token := do pure (← cursor).current

/-- The place of the token at the cursor. -/
def here : Parse Span := do pure (← current).span

/-- The place of the token before the cursor. -/
def previousSpan : Parse Span := do pure (← cursor).previousSpan

/-- The word at the cursor, if there is one. -/
def currentWord? : Parse (Option String) := do pure (← current).kind.word?

/-- The token at the cursor is of a kind. -/
def isAt (k : Kind) : Parse Bool := do pure ((← cursor).isAt k)

/-- The token at the cursor is a given word. -/
def isAtWord (w : String) : Parse Bool := do pure ((← cursor).isAtWord w)

/-- Refuses the token at the cursor, for a cause. -/
def refuseHere {α : Type} (cause : Cause) : Parse α := do refuse cause (← here)

/-- Refuses the token at the cursor, where another is wanted. -/
def refuseFor {α : Type} (what : String) : Parse α := do
  throw (.refused ((← cursor).wants what))

/-- Lets a reading move the cursor and leaves the counts as they are. -/
def reading {α : Type} (m : Reading α) : Parse α := fun s =>
  match m s.cursor with
  | .ok a c => .ok a { s with cursor := c }
  | .error f c => .error (.refused f) { s with cursor := c }

/-- Moves past a token. -/
def advance : Parse Unit := reading Reading.advance

/-- Moves past the token at the cursor if it is of a kind. -/
def consume (k : Kind) : Parse Bool := reading (Reading.consume k)

/-- Moves past the token at the cursor if it is a given word. -/
def consumeWord (w : String) : Parse Bool := reading (Reading.consumeWord w)

/-- Moves past a token of a kind. -/
def expect (k : Kind) : Parse Span := reading (Reading.expect k)

/-- Moves past a word. -/
def expectWord (what : String) : Parse (Spanned String) := reading (Reading.expectWord what)

/-! ## Counts -/

/-- Goes into a bracket, which the limit on the depth may forbid. -/
def enter (ctx : Context) : Parse Unit := do
  let s ← get
  if s.depth < ctx.settings.maxDepth then set { s with depth := s.depth + 1 }
  else refuseHere (.tooDeep ctx.settings.maxDepth)

/-- The state outside of the bracket it is in, if it is in one. -/
def State.outside (s : State) : Option State :=
  match s.depth with
  | 0 => none
  | d + 1 => some { s with depth := d }

/-- **Reads the inside of a bracket.**  The bracket is left whether the inside is read or
refused. -/
def nested {α : Type} (ctx : Context) (inside : Parse α) : Parse α := do
  enter ctx
  fun s =>
    match inside s with
    | .ok a t =>
      match t.outside with
      | some u => .ok a u
      | none => .error .overdrawn t
    | .error e t =>
      match t.outside with
      | some u => .error e u
      | none => .error .overdrawn t

/-- Counts one more operator, which the limit on operators may forbid. -/
def charge (ctx : Context) : Parse Unit := do
  let s ← get
  if s.operators < ctx.settings.maxOperatorDepth then set { s with operators := s.operators + 1 }
  else refuseHere (.tooManyOperators ctx.settings.maxOperatorDepth)

/-- Counts `n` operators less, once their chain is built. -/
def release (n : Nat) : Parse Unit := do
  let s ← get
  if n ≤ s.operators then set { s with operators := s.operators - n }
  else throw .overdrawn

/-! ## Repetition

Every round of a repetition moves past a token, so there are fewer rounds than
tokens from the cursor on. -/

/-- **More rounds than a repetition can have** that starts at the cursor. -/
def rounds : Parse Nat := do pure ((← cursor).rest.length + 1)

/-- Reads items for as long as there is a separator in front of one, for at most as many
rounds as given. -/
def following {α : Type} (sep : Kind) (item : Parse α) : Nat → Parse (List α)
  | 0 => throw .exhausted
  | n + 1 => do
    if ← consume sep then
      let a ← item
      let others ← following sep item n
      pure (a :: others)
    else pure []

/-- **Reads a list of items** with a separator between each two of them. -/
def separated {α : Type} (sep : Kind) (item : Parse α) : Parse (List α) := do
  let first ← item
  let others ← following sep item (← rounds)
  pure (first :: others)

/-- **Reads all the tokens** there are. -/
def complete {α : Type} (p : Parse α) : Parse α := do
  let a ← p
  let _ ← expect .eof
  pure a

/-- **Reads a whole slice** of the query text, which is in `depth` brackets. -/
def run {α : Type} (p : Parse α) (depth : Nat) (s : Slice) : Except Stop α :=
  match s.tokens with
  | .error f => .error (.refused f)
  | .ok tokens =>
    match p (State.start tokens depth) with
    | .ok a _ => .ok a
    | .error e _ => .error e

end OData.Grammar
