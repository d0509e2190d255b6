import OData.Text.Basic

/-!
# Quotes and parentheses in raw text

An option list is taken apart before any of it is read as tokens, so its
separators have to be told from the same characters inside strings and inside
parentheses.  `Nesting` is what a scan from the left knows about the place it has
reached: how many parentheses are open and which quote, if any.  A character is
**exposed** when it stands outside of both; the parenthesis that opens a group is
exposed itself, the one that closes it and quotes never are.

* `split` cuts a text at every exposed separator, `cut` at the first.
* `close` finds the end of a group that has just been opened.
-/

namespace OData.Text

/-- **The state of a scan**: the number of open parentheses and the open quote. -/
structure Nesting where
  /-- The number of parentheses open outside of quotes. -/
  depth : Nat
  /-- The quote that would end the quoted text the scan is in. -/
  quote : Option Char
  deriving DecidableEq, Repr

namespace Nesting

/-- **The state at the start of a text**: nothing is open. -/
def start : Nesting := ⟨0, none⟩

/-- The two marks that open and close quoted text. -/
def isQuote (c : Char) : Bool := c == '\'' || c == '"'

/-- **The state after one more character.**  A closing parenthesis with nothing to
close changes nothing. -/
def next (n : Nesting) (c : Char) : Nesting :=
  match n.quote with
  | some q => if c = q then ⟨n.depth, none⟩ else n
  | none =>
    if isQuote c then ⟨n.depth, some c⟩
    else if c = '(' then ⟨n.depth + 1, none⟩
    else if c = ')' then ⟨n.depth - 1, none⟩
    else n

/-- The state after a whole text. -/
def after (n : Nesting) (s : List Char) : Nesting := s.foldl next n

/-- A character is exposed in a state if nothing is open there and it neither
quotes nor closes. -/
def exposes (n : Nesting) (c : Char) : Bool := n == start && !isQuote c && c != ')'

/-- **The text before and after the first exposed `c`** of a text scanned from `n`. -/
def cut (c : Char) (n : Nesting) : List Char → Option (List Char × List Char)
  | [] => none
  | d :: r =>
    if n.exposes d && d == c then some ([], r)
    else (cut c (n.next d) r).map fun p => (d :: p.1, p.2)

/-- The pieces between the exposed separators of a text scanned from `n`: the
first piece, and the pieces after it. -/
def pieces (sep : Char) (n : Nesting) : List Char → List Char × List (List Char)
  | [] => ([], [])
  | c :: r =>
    let (first, others) := pieces sep (n.next c) r
    if n.exposes c && c == sep then ([], first :: others) else (c :: first, others)

/-- **The pieces between the exposed separators of a text**, at least one. -/
def split (sep : Char) (s : List Char) : List (List Char) :=
  let (first, others) := pieces sep start s
  first :: others

end Nesting

/-- How the search for the end of a group ends. -/
inductive Closing where
  /-- The group ends: its inside, and the text after its closing parenthesis. -/
  | closed (inner rest : List Char)
  /-- The text ends first. -/
  | unclosed
  /-- A parenthesis closes although none is open; a search that starts inside a group
  never meets one. -/
  | overdrawn
  deriving DecidableEq, Repr

namespace Closing

/-- The same end, one character further from the start of the search. -/
def cons (c : Char) : Closing → Closing
  | closed inner rest => closed (c :: inner) rest
  | unclosed => unclosed
  | overdrawn => overdrawn

end Closing

/-- **Searches the parenthesis that closes a group**, with `depth` parentheses open,
the group's own included, and `quote` the quote that is open. -/
def close (depth : Nat) (quote : Option Char) : List Char → Closing
  | [] => .unclosed
  | c :: r =>
    match quote with
    | some q => (close depth (if c = q then none else some q) r).cons c
    | none =>
      if c = '\'' ∨ c = '"' then (close depth (some c) r).cons c
      else if c = '(' then (close (depth + 1) none r).cons c
      else if c = ')' then
        match depth with
        | 0 => .overdrawn
        | 1 => .closed [] r
        | d + 2 => (close (d + 1) none r).cons c
      else (close depth none r).cons c

end OData.Text
