import OData.Literal
import OData.Text.Basic

/-!
# Dates and times by their shape

A quoted string is classified by its shape alone: `2020-13-45` is a date.  Each
recogniser below reads its part from the front of a text and gives the rest back,
so that an instant is read as a date, the letter `T`, a time of day and an offset.
At every point the next character tells what to read, so there is one way to read
a text and no choice to take back.
-/

namespace OData.Temporal
open Text

/-- Reads a text of a given shape off the front of a text: a zero of the shape stands
for any digit, every other character for itself. -/
def munchShape : List Char → List Char → Option (List Char)
  | [], s => some s
  | _ :: _, [] => none
  | p :: shape, c :: s =>
    if (if p = '0' then isDigit c else c == p) then munchShape shape s else none

/-- Reads a date. -/
def munchDate (s : List Char) : Option (List Char) := munchShape "0000-00-00".toList s

/-- Reads a fraction of a second, if one is there. -/
def munchFraction (s : List Char) : List Char :=
  match munchShape ".0".toList s with
  | some r => r.dropWhile isDigit
  | none => s

/-- Reads seconds with an optional fraction, if they are there. -/
def munchSeconds (s : List Char) : List Char :=
  match munchShape ":00".toList s with
  | some r => munchFraction r
  | none => s

/-- Reads a time of day: hours and minutes, then seconds if they are there. -/
def munchTimeOfDay (s : List Char) : Option (List Char) :=
  (munchShape "00:00".toList s).map munchSeconds

/-- Reads an offset: the letter `Z`, or a sign, hours and minutes. -/
def munchOffset (s : List Char) : Option (List Char) :=
  match s with
  | 'Z' :: r => some r
  | '+' :: r => munchShape "00:00".toList r
  | '-' :: r => munchShape "00:00".toList r
  | _ => none

/-- Reads an instant: a date and a time of day with the letter `T` between them, and an
offset. -/
def munchInstant (s : List Char) : Option (List Char) := do
  let time ← munchShape "0000-00-00T".toList s
  let offset ← munchTimeOfDay time
  munchOffset offset

/-- The whole text is a date. -/
def isDate (s : List Char) : Bool := munchDate s == some []

/-- The whole text is a time of day. -/
def isTimeOfDay (s : List Char) : Bool := munchTimeOfDay s == some []

/-- The whole text is an instant. -/
def isInstant (s : List Char) : Bool := munchInstant s == some []

end OData.Temporal

namespace OData

/-- The literal that a quoted text stands for, told from its shape. -/
def Literal.ofQuoted (text : String) : Literal :=
  let s := text.toList
  if Temporal.isDate s then .date text
  else if Temporal.isTimeOfDay s then .timeOfDay text
  else if Temporal.isInstant s then .dateTimeOffset text
  else .string text

end OData
