import OData.Span
import OData.Text.Quoted

/-!
# Tokens

What the value of an option is made of.  Words are all of one kind: whether a word
is an operator, a function or a property is for the grammar to say.

`Kind.written` is the text that a kind is read from.  It is unique, except that the
end of the text is written as nothing.
-/

namespace OData

/-- **The kinds of tokens.** -/
inductive Kind where
  | leftParen | rightParen | comma | slash | colon | semicolon | equals | star | dot
  /-- A string, by its content. -/
  | string (content : String)
  /-- A number without fraction and exponent. -/
  | integer (text : String)
  /-- A number with a fraction and no exponent. -/
  | decimal (text : String)
  /-- A number with an exponent. -/
  | double (text : String)
  | negativeInfinity
  /-- A parameter, with its at sign. -/
  | parameter (name : String)
  /-- A word, with its dollar sign if it has one. -/
  | word (text : String)
  /-- The end of the text. -/
  | eof
  deriving DecidableEq, Repr

namespace Kind

/-- **The text that a kind is read from.** -/
def written : Kind → List Char
  | leftParen => ['(']
  | rightParen => [')']
  | comma => [',']
  | slash => ['/']
  | colon => [':']
  | semicolon => [';']
  | equals => ['=']
  | star => ['*']
  | dot => ['.']
  | string content => Text.Quoted.written content.toList
  | integer text | decimal text | double text => text.toList
  | negativeInfinity => ['-', 'I', 'N', 'F']
  | parameter name => name.toList
  | word text => text.toList
  | eof => []

/-- How a message speaks of a token. -/
def describe : Kind → String
  | leftParen => "'('"
  | rightParen => "')'"
  | comma => "','"
  | slash => "'/'"
  | colon => "':'"
  | semicolon => "';'"
  | equals => "'='"
  | star => "'*'"
  | dot => "'.'"
  | string content => s!"string literal '{content}'"
  | integer text | decimal text | double text => s!"number {text}"
  | negativeInfinity => "-INF"
  | parameter name => s!"parameter alias {name}"
  | word text => s!"'{text}'"
  | eof => "end of input"

/-- The kinds that are literals by themselves. -/
def isLiteral : Kind → Bool
  | string _ | integer _ | decimal _ | double _ | negativeInfinity | parameter _ => true
  | _ => false

/-- The word that a token is. -/
def word? : Kind → Option String
  | word text => some text
  | _ => none

end Kind

/-- **A token**: its kind and its place. -/
structure Token where
  /-- What it is. -/
  kind : Kind
  /-- Where it stands. -/
  span : Span
  deriving DecidableEq, Repr

/-- The end of no text at all. -/
def Token.nothing : Token := ⟨.eof, Span.point 0⟩

end OData
