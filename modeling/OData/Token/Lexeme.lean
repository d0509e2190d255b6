import OData.Token
import OData.Text.Blank
import OData.Text.Numeral

/-!
# Lexemes

A text is a sequence of lexemes: gaps, tokens and stray text.  Each lexeme is as
long as it can be, and the classes of tokens are told apart by how they begin, so
at most one of the readers below takes anything off the front of a given text.

A string that is never closed is stray up to the end of the text.  Any other
character that begins no token is stray by itself.

Nothing is lost on the way: a lexeme and what follows it are the text it was read
from (`written_append_of_munch`), which is also why reading ends.
-/

namespace OData
open Text

/-- **A part of a text.** -/
inductive Lexeme where
  /-- White space between tokens. -/
  | gap (text : List Char)
  /-- A token. -/
  | token (kind : Kind)
  /-- Characters that belong to no token. -/
  | stray (text : List Char)
  deriving DecidableEq, Repr

namespace Lexeme

/-- The characters of a lexeme. -/
def text : Lexeme → List Char
  | gap t => t
  | token kind => kind.written
  | stray t => t

/-! ## One token -/

/-- The token that a character is by itself. -/
def punctuation? : Char → Option Kind
  | '(' => some .leftParen
  | ')' => some .rightParen
  | ',' => some .comma
  | '/' => some .slash
  | ':' => some .colon
  | ';' => some .semicolon
  | '=' => some .equals
  | '*' => some .star
  | '.' => some .dot
  | _ => none

/-- Reads a character that is a token by itself. -/
def munchPunctuation : List Char → Option (Kind × List Char)
  | [] => none
  | c :: r => (punctuation? c).map fun k => (k, r)

/-- Reads a string. -/
def munchString : List Char → Option (Kind × List Char)
  | [] => none
  | c :: r =>
    if c = Quoted.mark then (Quoted.munch r).map fun p => (.string (String.ofList p.1), p.2)
    else none

/-- The token of a number. -/
def numberKind (form : Numeral.Form) (text : String) : Kind :=
  match form with
  | .integer => .integer text
  | .decimal => .decimal text
  | .double => .double text

/-- Reads a number. -/
def munchNumber (s : List Char) : Option (Kind × List Char) :=
  (Numeral.munch s).map fun p => (numberKind p.1 (String.ofList p.2.1), p.2.2)

/-- Reads the number below all numbers. -/
def munchNegativeInfinity : List Char → Option (Kind × List Char)
  | '-' :: 'I' :: 'N' :: 'F' :: r => some (.negativeInfinity, r)
  | _ => none

/-- Reads a name: a character that may begin a word, and all that may continue it. -/
def munchName : List Char → Option (List Char × List Char)
  | [] => none
  | c :: r =>
    if isWordStart c then some (c :: r.takeWhile isWordPart, r.dropWhile isWordPart) else none

/-- Reads a parameter: an at sign and a name. -/
def munchParameter : List Char → Option (Kind × List Char)
  | '@' :: r => (munchName r).map fun p => (.parameter (String.ofList ('@' :: p.1)), p.2)
  | _ => none

/-- Reads a word: a name, possibly after a dollar sign. -/
def munchWord : List Char → Option (Kind × List Char)
  | '$' :: r => (munchName r).map fun p => (.word (String.ofList ('$' :: p.1)), p.2)
  | s => (munchName s).map fun p => (.word (String.ofList p.1), p.2)

/-- Reads one token off the front of a text. -/
def munch (s : List Char) : Option (Kind × List Char) :=
  munchPunctuation s <|> munchString s <|> munchNumber s <|> munchNegativeInfinity s <|>
    munchParameter s <|> munchWord s

/-! ## What reading takes -/

/-- A token and the rest that is left after it make up a text, and the token is not empty. -/
def Takes (s : List Char) (p : Kind × List Char) : Prop :=
  p.1.written ++ p.2 = s ∧ p.1.written ≠ []

theorem takes_punctuation {s : List Char} {p : Kind × List Char}
    (h : munchPunctuation s = some p) : Takes s p := by
  cases s with
  | nil => simp [munchPunctuation] at h
  | cons c r =>
    obtain ⟨k, hk, rfl⟩ := Option.map_eq_some_iff.1 h
    have hw : k.written = [c] := by
      unfold punctuation? at hk
      split at hk <;> cases hk <;> rfl
    simp [Takes, hw]

theorem takes_string {s : List Char} {p : Kind × List Char} (h : munchString s = some p) :
    Takes s p := by
  cases s with
  | nil => simp [munchString] at h
  | cons c r =>
    rw [munchString] at h
    split at h
    · next hc =>
      obtain ⟨⟨a, b⟩, hp, rfl⟩ := Option.map_eq_some_iff.1 h
      have := Quoted.encode_append_of_munch hp
      simp [Takes, Kind.written, Quoted.written, this, hc]
    · simp at h

theorem takes_number {s : List Char} {p : Kind × List Char} (h : munchNumber s = some p) :
    Takes s p := by
  obtain ⟨⟨f, a, b⟩, hp, rfl⟩ := Option.map_eq_some_iff.1 h
  have := Numeral.append_of_munch hp
  cases f <;> simpa [Takes, Kind.written, numberKind] using this

theorem takes_negativeInfinity {s : List Char} {p : Kind × List Char}
    (h : munchNegativeInfinity s = some p) : Takes s p := by
  unfold munchNegativeInfinity at h
  split at h <;> cases h
  simp [Takes, Kind.written]

theorem append_of_munchName {s : List Char} {p : List Char × List Char}
    (h : munchName s = some p) : p.1 ++ p.2 = s ∧ p.1 ≠ [] := by
  cases s with
  | nil => simp [munchName] at h
  | cons c r =>
    rw [munchName] at h
    split at h
    · simp only [Option.some.injEq] at h
      subst h
      simp [List.takeWhile_append_dropWhile]
    · simp at h

theorem takes_parameter {s : List Char} {p : Kind × List Char}
    (h : munchParameter s = some p) : Takes s p := by
  unfold munchParameter at h
  split at h
  · obtain ⟨q, hq, rfl⟩ := Option.map_eq_some_iff.1 h
    simp [Takes, Kind.written, (append_of_munchName hq).1]
  · simp at h

theorem takes_word {s : List Char} {p : Kind × List Char} (h : munchWord s = some p) :
    Takes s p := by
  unfold munchWord at h
  split at h
  · obtain ⟨q, hq, rfl⟩ := Option.map_eq_some_iff.1 h
    simp [Takes, Kind.written, (append_of_munchName hq).1]
  · obtain ⟨q, hq, rfl⟩ := Option.map_eq_some_iff.1 h
    simpa [Takes, Kind.written] using append_of_munchName hq

/-- A token and what follows it are the text it was read from. -/
theorem takes_of_munch {s : List Char} {p : Kind × List Char} (h : munch s = some p) :
    Takes s p := by
  simp only [munch, Option.orElse_eq_orElse, Option.orElse_eq_or, Option.or_eq_some_iff] at h
  rcases h with h | ⟨-, h | ⟨-, h | ⟨-, h | ⟨-, h | ⟨-, h⟩⟩⟩⟩⟩
  · exact takes_punctuation h
  · exact takes_string h
  · exact takes_number h
  · exact takes_negativeInfinity h
  · exact takes_parameter h
  · exact takes_word h

/-- What follows a token is shorter than the text before it. -/
theorem length_lt_of_munch {s : List Char} {k : Kind} {rest : List Char}
    (h : munch s = some (k, rest)) : rest.length < s.length := by
  obtain ⟨rfl, hk⟩ : k.written ++ rest = s ∧ k.written ≠ [] := takes_of_munch h
  have := List.length_pos_iff.2 hk
  rw [List.length_append]
  omega

/-! ## The whole text -/

/-- **The lexemes of a text**, from left to right. -/
def ofText (s : List Char) : List Lexeme :=
  match s with
  | [] => []
  | c :: r =>
    if isGap c then gap (c :: r.takeWhile isGap) :: ofText (r.dropWhile isGap)
    else
      match _h : munch (c :: r) with
      | some (kind, rest) => token kind :: ofText rest
      | none => if c = Quoted.mark then [stray (c :: r)] else stray [c] :: ofText r
termination_by s.length
decreasing_by
  · have := (List.dropWhile_suffix isGap (l := r)).length_le
    simp only [List.length_cons]
    omega
  · exact length_lt_of_munch _h
  · simp

/-- **The lexemes of a text are the text.** -/
theorem flatMap_text_ofText (s : List Char) : (ofText s).flatMap text = s := by
  fun_induction ofText s with
  | case1 => rfl
  | case2 c r hc ih => simp [text, ih, List.takeWhile_append_dropWhile]
  | case3 c r hc kind rest h ih => simpa [text, ih] using (takes_of_munch h).1
  | case4 r => simp [text]
  | case5 c r _ _ _ ih => simp [text, ih]

end Lexeme

end OData
