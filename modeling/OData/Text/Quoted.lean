import OData.Text.Basic

/-!
# Quoted text

A string is written between single quotes, and a single quote inside it is
written twice.  `encode` writes the inside of a string and `munch` reads it up to
the quote that closes it; a text whose quotes never close has no string at its
front at all, however many pairs it holds.

A search term may also stand between double quotes, which know no escape.
-/

namespace OData.Text.Quoted

/-- The single quote, which opens and closes a string. -/
def mark : Char := '\''

/-- **The inside of a string as it is written**: every single quote is doubled. -/
def encode : List Char → List Char
  | [] => []
  | c :: r => if c = mark then mark :: mark :: encode r else c :: encode r

/-- **A string as it is written**, with the quotes around it. -/
def written (s : List Char) : List Char := mark :: (encode s ++ [mark])

/-- **Reads a string after its opening quote.**  The answer is the content, with
every pair of quotes read as one, and the text after the closing quote, which is
the first quote that is not part of a pair; `none` if there is no such quote. -/
def munch : List Char → Option (List Char × List Char)
  | [] => none
  | c :: r =>
    if c = mark then
      match r with
      | [] => some ([], [])
      | d :: t =>
        if d = mark then (munch t).map fun p => (mark :: p.1, p.2) else some ([], d :: t)
    else (munch r).map fun p => (c :: p.1, p.2)

/-- Reads every pair of single quotes as one, from left to right; a quote that
stands alone is kept. -/
def collapse : List Char → List Char
  | [] => []
  | [c] => [c]
  | c :: d :: r =>
    if c = mark ∧ d = mark then mark :: collapse r else c :: collapse (d :: r)

/-- The text between two equal marks at the very ends of a text, if they are two. -/
def between (q : Char) : List Char → Option (List Char)
  | [] => none
  | c :: r =>
    if c = q then
      match r.getLast? with
      | some d => if d = q then some r.dropLast else none
      | none => none
    else none

/-- The term that a quoted search text stands for.  Between double quotes the
text is taken as it is; between single quotes a pair of them stands for one.  An
empty term is refused, and so is a text without quotes around it. -/
def term (s : List Char) : Option (List Char) :=
  match between '"' s with
  | some body => if body = [] then none else some body
  | none =>
    match between mark s with
    | some body => if body = [] then none else some (collapse body)
    | none => none

/-- Reading takes nothing but a written string: its inside, as `encode` writes the
content, then the closing quote, then what is left. -/
theorem encode_append_of_munch {s content rest : List Char} (h : munch s = some (content, rest)) :
    encode content ++ mark :: rest = s := by
  fun_induction munch s generalizing content with
  | case1 => simp at h
  | case2 =>
    simp only [Option.some.injEq, Prod.mk.injEq] at h
    simp [← h.1, ← h.2, encode]
  | case3 t ih =>
    obtain ⟨⟨a, b⟩, hp, he⟩ := Option.map_eq_some_iff.1 h
    simp only [Prod.mk.injEq] at he
    rw [← he.1, ← ih (by rw [hp, he.2])]
    simp [encode]
  | case4 d t hd =>
    simp only [Option.some.injEq, Prod.mk.injEq] at h
    simp [← h.1, ← h.2, encode]
  | case5 c r hc ih =>
    obtain ⟨⟨a, b⟩, hp, he⟩ := Option.map_eq_some_iff.1 h
    simp only [Prod.mk.injEq] at he
    rw [← he.1, ← ih (by rw [hp, he.2])]
    simp [encode, hc]

end OData.Text.Quoted
