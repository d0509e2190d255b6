import Mathlib.Data.List.Chain
import OData.Proofs.Text.Nesting
import OData.Proofs.Token.Lexing

/-!
# Writing tokens

`render` writes kinds of tokens as text, with one space between two of them that
would run together otherwise, and around operators.  A null and the string after it
are the exception: they belong together and stand without a gap.

What is written is read again (`tokens_render`): the tokens of the text are of the
kinds that were written, whatever the position of the text is, and a null is adjacent
to the string after it.
-/
namespace OData
open Grammar Text

/-! ## Rendering -/

namespace Kind

/-- The kinds that stand for a number. -/
def isNumber : Kind → Bool
  | .integer _ | .decimal _ | .double _ => true
  | _ => false

/-- The kinds that are a string. -/
def isString : Kind → Bool
  | .string _ => true
  | _ => false

/-- The kinds that are no mark of punctuation. -/
def isSolid (k : Kind) : Bool := k.isLiteral || k.word?.isSome

/-- A space stands between two kinds: between two that are no marks, unless they are a
null and a string; around an operator next to a parenthesis; and between a number and a
dot. -/
def spaced (k next : Kind) : Bool :=
  (k.isSolid && next.isSolid && !(k == .word "null" && next.isString)) ||
    (k == .rightParen && next.isSolid) || ((k.word?.any isOperatorWord) && next == .leftParen) ||
    (k.isNumber && next == .dot)

end Kind

/-- The space in front of a sequence of kinds, if there is one. -/
def gapBefore (k : Kind) : List Kind → List Char
  | [] => []
  | next :: _ => if k.spaced next then [' '] else []

/-- **The text of a sequence of kinds.** -/
def render : List Kind → List Char
  | [] => []
  | k :: ks => k.written ++ (gapBefore k ks ++ render ks)

/-- The lexemes of that text. -/
def lexemes : List Kind → List Lexeme
  | [] => []
  | k :: ks =>
    .token k :: ((if gapBefore k ks = [] then [] else [.gap [' ']]) ++ lexemes ks)

theorem gapBefore_cases (k : Kind) (ks : List Kind) :
    gapBefore k ks = [] ∨ gapBefore k ks = [' '] := by
  cases ks with
  | nil => exact .inl rfl
  | cons next ks =>
    rw [gapBefore]
    split
    · exact .inr rfl
    · exact .inl rfl

/-- Two sequences are written one after the other, possibly with a space between them. -/
theorem exists_render_append (ks ks' : List Kind) :
    ∃ g, (g = [] ∨ g = [' ']) ∧ render (ks ++ ks') = render ks ++ (g ++ render ks') := by
  induction ks with
  | nil => exact ⟨[], .inl rfl, rfl⟩
  | cons k ks ih =>
    obtain ⟨g, hg, he⟩ := ih
    cases ks with
    | nil => exact ⟨gapBefore k ks', gapBefore_cases k ks', by simp [render, gapBefore]⟩
    | cons next ks =>
      refine ⟨g, hg, ?_⟩
      have hgap : gapBefore k (next :: ks ++ ks') = gapBefore k (next :: ks) := rfl
      rw [List.cons_append, render, he, hgap]
      show _ = (k.written ++ (gapBefore k (next :: ks) ++ render (next :: ks))) ++ _
      simp only [List.append_assoc]

/-- The text has a character for every kind at least. -/
theorem length_le_render {ks : List Kind} (h : ∀ k ∈ ks, k.Spelled) :
    ks.length ≤ (render ks).length := by
  induction ks with
  | nil => exact Nat.le_refl _
  | cons k ks ih =>
    obtain ⟨hk, hks⟩ := List.forall_mem_cons.1 h
    have := List.length_pos_iff.2 hk.written_ne_nil
    have := ih hks
    simp only [render, List.length_cons, List.length_append]
    omega

/-! ## What follows a token -/

namespace Kind

/-- A mark of punctuation goes on with no token but a number that ends in front of a dot. -/
theorem leaves_of_not_isSolid {k next : Kind} {t : List Char} (hn : next.Spelled)
    (hs : next.isSolid = false) (hdot : k.isNumber = true → next ≠ .dot) :
    k.Leaves (next.written ++ t) := by
  cases next with
  | string | integer | decimal | double | negativeInfinity | parameter | word => cases hs
  | eof => exact hn.elim
  | dot =>
    cases k with
    | integer | decimal | double => exact absurd rfl (hdot rfl)
    | parameter | word => rintro c ⟨⟩; decide
    | string => simp [Leaves, written, Quoted.mark]
    | _ => trivial
  | _ =>
    cases k with
    | integer | decimal | double => rintro c ⟨⟩; decide
    | parameter | word => rintro c ⟨⟩; decide
    | string => simp [Leaves, written, Quoted.mark]
    | _ => trivial

/-- What is written after a token does not go on with it. -/
theorem leaves_render (k : Kind) {ks : List Kind} (h : ∀ k ∈ ks, k.Spelled) :
    k.Leaves (gapBefore k ks ++ render ks) := by
  cases ks with
  | nil => exact Kind.Leaves.nil k
  | cons next ks =>
    rw [gapBefore]
    cases hsp : k.spaced next with
    | true => exact leaves_of_isGap k (by decide) _
    | false =>
      have hn := h next (List.mem_cons_self ..)
      simp only [spaced, Bool.or_eq_false_iff] at hsp
      obtain ⟨⟨⟨hboth, -⟩, -⟩, hdot⟩ := hsp
      show k.Leaves (next.written ++ _)
      cases hs : next.isSolid with
      | false =>
        refine leaves_of_not_isSolid hn hs fun hk he => ?_
        simp [hk, he] at hdot
      | true =>
        cases hk : k.isSolid with
        | false => cases k <;> trivial
        | true =>
          -- The one pair without a space: a null and its string.
          simp only [hk, hs, Bool.and_self, Bool.true_and, Bool.not_eq_false',
            Bool.and_eq_true, beq_iff_eq] at hboth
          obtain ⟨rfl, hstring⟩ := hboth
          cases next with
          | string => rintro c ⟨⟩; decide
          | _ => cases hstring

end Kind

/-! ## Reading what is written -/

/-- The lexemes of what is written are those that were written. -/
theorem ofText_render {ks : List Kind} (h : ∀ k ∈ ks, k.Spelled) :
    Lexeme.ofText (render ks) = lexemes ks := by
  induction ks with
  | nil => simp [render, lexemes, Lexeme.ofText]
  | cons k ks ih =>
    obtain ⟨hk, hks⟩ := List.forall_mem_cons.1 h
    -- The token is read whole, since what is written after it does not go on with it.
    have hread : Lexeme.ofText (render (k :: ks)) =
        .token k :: Lexeme.ofText (gapBefore k ks ++ render ks) :=
      Lexeme.ofText_written_append hk (Kind.leaves_render k hks)
    rw [hread, lexemes]
    refine congrArg (Lexeme.token k :: ·) ?_
    -- The space in front of the next token, if there is one, is a gap by itself.
    rcases gapBefore_cases k ks with hg | hg
    · rw [hg, if_pos rfl]
      exact ih hks
    · have hnext : ∀ c ∈ (render ks).head?, isGap c = false := by
        cases ks with
        | nil =>
          intro c hc
          cases hc
        | cons next ks => exact (hks next (List.mem_cons_self ..)).head?_append _
      have hne : [' '] ≠ [] := List.cons_ne_nil ' ' []
      have hspace : ∀ c ∈ [' '], isGap c = true := List.forall_mem_singleton.2 rfl
      rw [hg, if_neg hne, Lexeme.ofText_gap_append hne hspace hnext, ih hks]
      rfl

/-- A null and a string after it are adjacent. -/
def Tight (w : List Token) : Prop :=
  w.IsChain fun t u => t.kind = .word "null" → u.kind.isString = true → u.span.start = t.span.stop

theorem Tight.append {v w : List Token} (h : Tight (v ++ w)) : Tight v ∧ Tight w := by
  obtain ⟨hv, hw, -⟩ := List.isChain_append.1 h
  exact ⟨hv, hw⟩

theorem Tight.tail {t : Token} {w : List Token} (h : Tight (t :: w)) : Tight w :=
  (Tight.append (v := [t]) h).2

/-- The tokens of written kinds are of those kinds, and tight. -/
theorem exists_tokensFrom_lexemes (ks : List Kind) : ∀ pos : Nat,
    ∃ w stop, Lexing.tokensFrom pos (lexemes ks) = w ++ [⟨.eof, Span.point stop⟩] ∧
      w.map Token.kind = ks ∧ Tight w ∧
      ∀ next ks', ks = next :: ks' → ∃ t w', w = t :: w' ∧ t.span.start = pos := by
  induction ks with
  | nil => exact fun pos => ⟨[], pos, rfl, rfl, .nil, by simp⟩
  | cons k ks ih =>
    intro pos
    have htokens : Lexing.tokensFrom pos (lexemes (k :: ks)) =
        ⟨k, ⟨pos, pos + byteLength k.written⟩⟩ :: Lexing.tokensFrom
          (pos + byteLength k.written + byteLength (gapBefore k ks)) (lexemes ks) := by
      rcases gapBefore_cases k ks with hg | hg
      · simp [lexemes, hg, Lexing.tokensFrom, Lexeme.text]
      · simp [lexemes, hg, Lexing.tokensFrom, Lexeme.text]
    obtain ⟨w, stop, hw, hkinds, htight, hstart⟩ :=
      ih (pos + byteLength k.written + byteLength (gapBefore k ks))
    refine ⟨_ :: w, stop, by rw [htokens, hw]; rfl, by simp [hkinds], ?_, ?_⟩
    · cases w with
      | nil => exact .singleton _
      | cons u w =>
        refine .cons_cons (fun hnull hstring => ?_) htight
        -- There is no space between a null and a string.
        obtain ⟨next, ks', rfl⟩ := List.exists_cons_of_ne_nil
          (show ks ≠ [] by rintro rfl; cases hkinds)
        obtain ⟨t, w', ⟨rfl, rfl⟩, hpos⟩ := hstart next ks' rfl
        have hnext : u.kind = next := (List.cons.inj hkinds).1
        subst hnext
        obtain rfl : k = .word "null" := hnull
        have hgap : gapBefore (.word "null") (u.kind :: ks') = [] := by
          cases hu : u.kind with
          | string text =>
            rw [gapBefore, if_neg]
            simp [Kind.spaced, Kind.isSolid, Kind.isLiteral, Kind.word?, Kind.isString,
              Kind.isNumber]
          | _ => rw [hu] at hstring; cases hstring
        rw [hpos, hgap]
        rfl
    · rintro _ _ ⟨⟩
      exact ⟨_, _, rfl, rfl⟩

theorem stray_notMem_lexemes (ks : List Kind) (t : List Char) : Lexeme.stray t ∉ lexemes ks := by
  induction ks with
  | nil => exact List.not_mem_nil
  | cons k ks ih =>
    rw [lexemes]
    split <;> simp [ih]

/-- **What is written is read again**, at whatever position it stands. -/
theorem tokens_render {ks : List Kind} (h : ∀ k ∈ ks, k.Spelled) (pos : Nat) :
    ∃ w stop, (⟨render ks, pos⟩ : Slice).tokens = .ok (w ++ [⟨.eof, Span.point stop⟩]) ∧
      w.map Token.kind = ks ∧ Tight w := by
  obtain ⟨w, stop, hw, hkinds, htight, -⟩ := exists_tokensFrom_lexemes ks pos
  refine ⟨w, stop, ?_, hkinds, htight⟩
  have hfailures := Lexing.failuresFrom_eq_nil (stray_notMem_lexemes ks) pos false
  simp only [Slice.tokens, Lexing.ofSlice, ofText_render h, hfailures, hw]

/-! ## Written text is closed -/

/-- **Parentheses are balanced** in a sequence of kinds. -/
inductive Balanced : List Kind → Prop
  | nil : Balanced []
  | single {k : Kind} : k ≠ .leftParen → k ≠ .rightParen → Balanced [k]
  | group {ks : List Kind} : Balanced ks → Balanced (.leftParen :: (ks ++ [.rightParen]))
  | append {ks ks' : List Kind} : Balanced ks → Balanced ks' → Balanced (ks ++ ks')

theorem Balanced.cons {k : Kind} {ks : List Kind} (h : Balanced ks) (hl : k ≠ .leftParen)
    (hr : k ≠ .rightParen) : Balanced (k :: ks) :=
  .append (.single hl hr) h

/-- The characters of tokens that are neither parts of words nor tokens themselves. -/
def signs : List Char := ['$', '@', '.', '+', '-']

theorem mem_of_isNumber {form : Numeral.Form} {s : List Char} (h : Numeral.IsNumber form s)
    {c : Char} (hc : c ∈ s) : isWordPart c = true ∨ c ∈ signs := by
  obtain ⟨hsign, hD, hF, hE⟩ := h
  have hdigits : ∀ {s : List Char}, Numeral.IsDigits s → c ∈ s → isWordPart c = true :=
    fun hs hc => Numeral.isWordPart_of_isDigit (hs.2 c hc)
  simp only [List.mem_append] at hc
  rcases hc with hc | hc | hc | hc
  · rcases hsign with rfl | rfl <;> simp_all [signs]
  · exact .inl (hdigits hD hc)
  · cases hF with
    | none => cases hc
    | some hs =>
      rcases List.mem_cons.1 hc with rfl | hc
      · simp [signs]
      · exact .inl (hdigits hs hc)
  · cases hE with
    | none => cases hc
    | some hl hsign hs =>
      rcases List.mem_cons.1 hc with rfl | hc
      · rcases hl with rfl | rfl <;> exact .inl (by decide)
      · rcases List.mem_append.1 hc with hc | hc
        · rcases hsign with rfl | rfl | rfl <;> simp_all [signs]
        · exact .inl (hdigits hs hc)

/-- The characters that tokens other than strings are made of. -/
theorem Kind.Spelled.mem_written {k : Kind} (h : k.Spelled) (hs : k.isString = false) {c : Char}
    (hc : c ∈ k.written) :
    isWordPart c = true ∨ c ∈ signs ∨ Lexeme.punctuation? c = some k := by
  cases k with
  | string => cases hs
  | eof => exact h.elim
  | integer | decimal | double =>
    rcases mem_of_isNumber h hc with hc | hc
    · exact .inl hc
    · exact .inr (.inl hc)
  | parameter name =>
    obtain ⟨s, hs, hN⟩ := h
    rw [written, hs] at hc
    rcases List.mem_cons.1 hc with rfl | hc
    · simp [signs]
    · exact .inl (isWordPart_of_isNameText hN c hc)
  | word text =>
    rcases h with hN | ⟨s, hs, hN⟩
    · exact .inl (isWordPart_of_isNameText hN c hc)
    · rw [written, hs] at hc
      rcases List.mem_cons.1 hc with rfl | hc
      · simp [signs]
      · exact .inl (isWordPart_of_isNameText hN c hc)
  | negativeInfinity =>
    simp only [written, List.mem_cons, List.not_mem_nil, or_false] at hc
    rcases hc with rfl | rfl | rfl | rfl <;> decide
  | _ =>
    simp only [written, List.mem_cons, List.not_mem_nil, or_false] at hc
    rw [hc]
    exact .inr (.inr rfl)

theorem isPlain_of_isWordPart {c : Char} (h : isWordPart c = true) : Nesting.IsPlain c := by
  refine ⟨?_, ?_, ?_⟩
  · rw [Nesting.isQuote, Bool.or_eq_false_iff, beq_eq_false_iff_ne, beq_eq_false_iff_ne]
    constructor <;> (rintro rfl; exact absurd h (by decide))
  all_goals
    rintro rfl
    exact absurd h (by decide)

/-- A token that is no string and no parenthesis is plain. -/
theorem Kind.Spelled.isPlain {k : Kind} (h : k.Spelled) (hs : k.isString = false)
    (hl : k ≠ .leftParen) (hr : k ≠ .rightParen) : ∀ c ∈ k.written, Nesting.IsPlain c := by
  intro c hc
  rcases h.mem_written hs hc with hc | hc | hc
  · exact isPlain_of_isWordPart hc
  · simp only [signs, List.mem_cons, List.not_mem_nil, or_false] at hc
    rcases hc with rfl | rfl | rfl | rfl | rfl <;> exact ⟨by decide, by decide, by decide⟩
  · refine ⟨?_, ?_, ?_⟩
    · rw [Nesting.isQuote, Bool.or_eq_false_iff, beq_eq_false_iff_ne, beq_eq_false_iff_ne]
      constructor <;> (rintro rfl; cases hc)
    · rintro rfl
      cases hc
      exact hl rfl
    · rintro rfl
      cases hc
      exact hr rfl

/-- A separator that no token is written with. -/
structure IsOutside (sep : Char) (ks : List Kind) : Prop where
  notWord : isWordPart sep = false
  notSign : sep ∉ signs
  notMark : ∀ k ∈ ks, Lexeme.punctuation? sep ≠ some k
  ne_space : sep ≠ ' '
  ne_open : sep ≠ '('

theorem IsOutside.mono {sep : Char} {ks ks' : List Kind} (h : IsOutside sep ks)
    (hs : ∀ k ∈ ks', k ∈ ks) : IsOutside sep ks' :=
  { h with notMark := fun k hk => h.notMark k (hs k hk) }

/-- **What is written with balanced parentheses can stand between separators.** -/
theorem Balanced.fits {sep : Char} {ks : List Kind} (h : Balanced ks)
    (hk : ∀ k ∈ ks, k.Spelled) (hsep : IsOutside sep ks) : Fits sep (render ks) := by
  -- The spaces between the parts fit as well.
  have hgap : ∀ g : List Char, g = [] ∨ g = [' '] → Fits sep g := by
    rintro g (rfl | rfl)
    · exact .nil
    · refine .of_isPlain fun c hc => ?_
      obtain rfl := List.mem_singleton.1 hc
      exact ⟨⟨by decide, by decide, by decide⟩, hsep.ne_space.symm⟩
  induction h with
  | nil => exact .nil
  | @single k hl hr =>
    have hspelled := hk k (List.mem_cons_self ..)
    have hrender : render [k] = k.written := by simp [render, gapBefore]
    rw [hrender]
    cases hs : k.isString with
    | true =>
      cases k with
      | string text => exact .written text.toList
      | _ => cases hs
    | false =>
      refine .of_isPlain fun c hc => ⟨hspelled.isPlain hs hl hr c hc, ?_⟩
      rintro rfl
      rcases hspelled.mem_written hs hc with hc | hc | hc
      · rw [hsep.notWord] at hc
        cases hc
      · exact hsep.notSign hc
      · exact hsep.notMark k (List.mem_cons_self ..) hc
  | @group ks _ ih =>
    have hmem : ∀ k ∈ ks, k ∈ Kind.leftParen :: (ks ++ [.rightParen]) := fun k hk => by simp [hk]
    have hin := ih (fun k h => hk k (hmem k h)) (hsep.mono hmem)
    obtain ⟨g, hg, he⟩ := exists_render_append ks [.rightParen]
    -- In its parentheses the group need not fit, only be closed.
    have hclosed : IsClosed (gapBefore .leftParen (ks ++ [.rightParen]) ++ (render ks ++ g)) :=
      (hgap _ (gapBefore_cases ..)).1.append (hin.1.append (hgap g hg).1)
    have hrender : render (.leftParen :: (ks ++ [.rightParen])) =
        '(' :: (gapBefore .leftParen (ks ++ [.rightParen]) ++ (render ks ++ g) ++ [')']) := by
      have hclose : render [.rightParen] = [')'] := rfl
      rw [render, he, hclose]
      simp [Kind.written]
    rw [hrender]
    exact .group hclosed hsep.ne_open
  | @append ks ks' _ _ ih ih' =>
    obtain ⟨g, hg, he⟩ := exists_render_append ks ks'
    rw [he]
    exact (ih (fun k h => hk k (List.mem_append_left _ h))
      (hsep.mono fun k h => List.mem_append_left _ h)).append ((hgap g hg).append
        (ih' (fun k h => hk k (List.mem_append_right _ h))
          (hsep.mono fun k h => List.mem_append_right _ h)))

end OData
