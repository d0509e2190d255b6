import OData.Grammar.ResourcePath
import OData.Query.Options

/-!
# Reading a query

A text that begins with a dollar sign holds options only.  Any other begins with a
resource path, which goes on to the first question mark outside of quotes and
parentheses, or if there is none to the first ampersand, or if there is none to the
end; a blank path is no path.

The outcome is a `Verdict`.  Text that does not match the grammar is malformed, and
the verdict holds a full diagnostic together with the text; text that matches it
and breaks another rule is rejected with a message and a place.
-/

namespace OData

/-! ## The two halves of a text -/

/-- **The two halves of a query text**: the resource path, and the options if there may be
any. -/
structure Halves where
  /-- The resource path. -/
  path : Slice
  /-- The options. -/
  options : Option Slice
  deriving DecidableEq, Repr

/-- **Takes a query text apart.** -/
def Halves.ofSlice (s : Slice) : Halves :=
  if s.text.head? = some '$' then ⟨⟨[], s.start⟩, some s⟩
  else
    match s.cut '?' with
    | some (path, options) => ⟨path, some options⟩
    | none =>
      match s.cut '&' with
      | some (path, options) => ⟨path, some options⟩
      | none => ⟨s, none⟩

namespace Query

/-- **Reads a query.** -/
def read (settings : Settings) (text : String) : Except Grammar.Stop Query := do
  let halves := Halves.ofSlice (Slice.ofString text 0)
  let path ←
    if halves.path.trim.text = [] then pure none
    else some <$> Grammar.run (Grammar.resourcePath ⟨settings, none⟩) 0 halves.path
  let query ←
    match halves.options with
    | some options => Options.optionList settings settings.maxDepth '&' options
    | none => pure Query.empty
  pure { query with path := path }

end Query

/-! ## Verdicts -/

/-- **A text that does not match the grammar.** -/
structure MalformedQuery where
  /-- What is wrong with it. -/
  diagnostic : Diagnostic
  /-- The text. -/
  source : String
  deriving DecidableEq, Repr

namespace MalformedQuery

/-- The place of the failure. -/
def span (m : MalformedQuery) : Span := m.diagnostic.primarySpan.getD (Span.point 0)

/-- The failure in one line: its message and its place. -/
def describe (m : MalformedQuery) : String :=
  s!"{m.diagnostic.message} at {m.span.start}..{m.span.stop}"

/-- The failure as it is shown with the text. -/
def report (m : MalformedQuery) : Report := m.diagnostic.report m.source

end MalformedQuery

/-- **A text that matches the grammar and breaks another rule.** -/
structure RejectedQuery where
  /-- What is wrong with it. -/
  message : String
  /-- The place of it. -/
  span : Span
  deriving DecidableEq, Repr

/-- **What becomes of a query text.** -/
inductive Verdict where
  /-- It is a query. -/
  | query (query : Query)
  /-- It breaks a rule. -/
  | rejected (rejected : RejectedQuery)
  /-- It does not match the grammar. -/
  | malformed (malformed : MalformedQuery)
  /-- Reading it ended without either, which no text makes happen. -/
  | undecided

/-- What a failure makes of a text. -/
def Verdict.ofRefusal (source : String) : Refusal → Verdict
  | .malformed d => .malformed ⟨d, source⟩
  | .invalid d => .rejected ⟨d.message, d.primarySpan.getD (Span.point 0)⟩

/-- **Reads a query text**, and says what becomes of it. -/
def parse (settings : Settings) (text : String) : Verdict :=
  match Query.read settings text with
  | .ok query => .query query
  | .error (.refused failure) => Verdict.ofRefusal text failure.refusal
  | .error .exhausted | .error .overdrawn => .undecided

end OData
