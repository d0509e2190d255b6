/-!
# Literals

The constants of an expression.  Numbers with a fraction or an exponent keep the
text they were written with, since no value of a machine type holds them exactly;
integers are values.  A quoted string is a date, a time of day or an instant if it
has the shape of one, and a plain string otherwise.
-/

namespace OData

/-- **The three numbers that are not finite.** -/
inductive NonFinite where
  | nan
  | infinity
  | negativeInfinity
  deriving DecidableEq, Repr

/-- How a number that is not finite is written. -/
def NonFinite.word : NonFinite → String
  | .nan => "NaN"
  | .infinity => "INF"
  | .negativeInfinity => "-INF"

/-- **The literals.** -/
inductive Literal where
  /-- No value, possibly with the name of the type that it would have. -/
  | null (hint : Option String)
  /-- A number that is not finite. -/
  | nonFinite (value : NonFinite)
  /-- A parameter, with its at sign. -/
  | parameter (name : String)
  /-- A string. -/
  | string (text : String)
  /-- A string with the shape of a time of day. -/
  | timeOfDay (text : String)
  /-- A string with the shape of a date. -/
  | date (text : String)
  /-- A string with the shape of a date, a time of day and an offset. -/
  | dateTimeOffset (text : String)
  /-- A number with a fraction. -/
  | decimal (text : String)
  /-- A number with an exponent. -/
  | double (text : String)
  /-- An integer of 64 bits. -/
  | integer (value : Int)
  /-- True or false. -/
  | boolean (value : Bool)
  deriving DecidableEq, Repr

/-- **The name of a literal's type.** -/
def Literal.typeName : Literal → String
  | .null _ => "null"
  | .nonFinite _ => "NaN/Infinity"
  | .parameter _ => "parameter-alias"
  | .string _ => "string"
  | .timeOfDay _ => "timeOfDay"
  | .date _ => "date"
  | .dateTimeOffset _ => "dateTimeOffset"
  | .decimal _ => "decimal"
  | .double _ => "double"
  | .integer _ => "integer"
  | .boolean _ => "boolean"

end OData
