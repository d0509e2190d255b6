/-!
# Text measured in bytes

Inside the library a text is the list of its characters, because that is what
the scanners recurse on and what their laws are about.  Positions, however, are
counted in bytes of the UTF-8 encoding, so the one measure of a text that the
rest of the library uses is `byteLength`: it is additive, hence the position
after a text is the position before it plus its length.

The character classes below are those of the tokens.  They are deliberately
ASCII: a letter or a digit of another script belongs to no word and no number.
-/

namespace OData.Text

/-- **The length of a text in bytes** of its UTF-8 encoding. -/
def byteLength : List Char → Nat
  | [] => 0
  | c :: r => c.utf8Size + byteLength r

@[simp] theorem byteLength_nil : byteLength [] = 0 := rfl

@[simp] theorem byteLength_cons (c : Char) (r : List Char) :
    byteLength (c :: r) = c.utf8Size + byteLength r := rfl

@[simp] theorem byteLength_append (s t : List Char) :
    byteLength (s ++ t) = byteLength s + byteLength t := by
  induction s with
  | nil => simp
  | cons c r ih => simp [ih, Nat.add_assoc]

/-- A decimal digit: one of the ten ASCII digits. -/
def isDigit (c : Char) : Bool := '0' ≤ c && c ≤ '9'

/-- A character that may begin a word: an ASCII letter or the low line. -/
def isWordStart (c : Char) : Bool :=
  ('A' ≤ c && c ≤ 'Z') || ('a' ≤ c && c ≤ 'z') || c == '_'

/-- A character that may continue a word: one that may begin it, or a digit. -/
def isWordPart (c : Char) : Bool := isWordStart c || isDigit c

end OData.Text
