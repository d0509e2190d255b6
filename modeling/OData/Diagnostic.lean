import OData.Span
import OData.Text.Basic
import OData.Keyword

/-!
# Diagnostics

What a caller gets to see of a failure: a message, labels that point into the
query text, a code that stays the same when wording changes, and sometimes a hint.
A diagnostic may point anywhere; its `report` against a text points into it.
-/

namespace OData

/-- **The codes of diagnostics.** -/
inductive Code where
  /-- Characters that make no token. -/
  | lexical
  /-- Text that does not match the grammar. -/
  | grammar
  /-- Nesting beyond a limit. -/
  | depth
  /-- An option value of the wrong shape. -/
  | invalidParameter
  /-- An option given twice. -/
  | duplicateOption
  /-- A path expanded twice. -/
  | duplicateExpand
  deriving DecidableEq, Repr

/-- The text of a code. -/
def Code.word : Code → String
  | .lexical => "odata::lex"
  | .grammar => "odata::syntax"
  | .depth => "odata::depth"
  | .invalidParameter => "odata::invalid_parameter"
  | .duplicateOption => "odata::duplicate_option"
  | .duplicateExpand => "odata::duplicate_expand"

instance : Keyword Code where
  all := [.lexical, .grammar, .depth, .invalidParameter, .duplicateOption, .duplicateExpand]
  word := Code.word
  mem_all := by intro a; cases a <;> decide
  nodup_words := by decide

/-- **What a label stands for** in its diagnostic. -/
inductive LabelRole where
  /-- The place that caused the failure. -/
  | primary
  /-- A place that has to do with it. -/
  | secondary
  deriving DecidableEq, Repr

/-- **A place in the query text and what there is to say about it.** -/
structure Label where
  /-- The place. -/
  span : Span
  /-- What is said about it. -/
  message : String
  /-- Whether it is the cause. -/
  role : LabelRole
  deriving DecidableEq, Repr

/-- **A diagnostic.** -/
structure Diagnostic where
  /-- What went wrong. -/
  message : String
  /-- Where, in the order in which the places were added. -/
  labels : List Label
  /-- What to do about it. -/
  help : Option String
  /-- The kind of failure. -/
  code : Option Code
  deriving DecidableEq, Repr

/-- The place of a diagnostic: that of its first primary label. -/
def Diagnostic.primarySpan (d : Diagnostic) : Option Span :=
  (d.labels.find? fun l => l.role == .primary).map Label.span

/-! ## Reports -/

/-- **A label of a report**, which lies in the text. -/
structure Mark where
  /-- The first byte. -/
  offset : Nat
  /-- The number of bytes. -/
  length : Nat
  /-- What is said about it. -/
  text : String
  /-- Whether it is the cause. -/
  isPrimary : Bool
  deriving DecidableEq, Repr

/-- **A diagnostic as it is shown with its text.** -/
structure Report where
  /-- What went wrong. -/
  text : String
  /-- The kind of failure. -/
  code : Option Code
  /-- What to do about it. -/
  help : Option String
  /-- Where, in the diagnostic's order. -/
  marks : List Mark
  deriving DecidableEq, Repr

/-- The label as a mark in a text of `length` bytes. -/
def Label.mark (length : Nat) (l : Label) : Mark :=
  let place := l.span.clamp length
  ⟨place.start, place.size, l.message, l.role == .primary⟩

/-- **The report of a diagnostic against a text.** -/
def Diagnostic.report (source : String) (d : Diagnostic) : Report :=
  ⟨d.message, d.code, d.help, d.labels.map (Label.mark (Text.byteLength source.toList))⟩

/-! ## Refusals -/

/-- **The two ways to refuse a text.** -/
inductive Refusal where
  /-- The text does not match the grammar. -/
  | malformed (diagnostic : Diagnostic)
  /-- The text matches the grammar and breaks another rule. -/
  | invalid (diagnostic : Diagnostic)
  deriving DecidableEq, Repr

namespace Refusal

/-- The diagnostic of a refusal. -/
def diagnostic : Refusal → Diagnostic
  | .malformed d | .invalid d => d

/-- The diagnostic of a message about one place. -/
private def remark (message : String) (span : Span) (code : Code) : Diagnostic :=
  ⟨message, [⟨span, "here", .primary⟩], none, some code⟩

/-- Refuses a text for its form, in the caller's words. -/
def ofForm (message : String) (span : Span) : Refusal := .malformed (remark message span .grammar)

/-- Refuses a text for a rule, in the caller's words. -/
def ofRule (message : String) (span : Span) (code : Code) : Refusal :=
  .invalid (remark message span code)

end Refusal

end OData
