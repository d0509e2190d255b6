import OData.Proofs.Grammar.Run
import OData.Proofs.Token.Lexeme
import OData.Token.Lexing

/-!
# The tokens of a slice

Whatever the text of a slice is, its tokens are closed by the one end of the text,
and each of the others is spelled.  This is all that a grammar has to know about
the lexer.
-/
namespace OData
open Grammar

/-- The kind of a lexeme that is a token. -/
def Lexeme.kind? : Lexeme → Option Kind
  | token kind => some kind
  | _ => none

namespace Lexing

/-- The kinds of the tokens are those of the lexemes, and then the end of the text. -/
theorem kinds_tokensFrom (pos : Nat) (ls : List Lexeme) :
    (tokensFrom pos ls).map Token.kind = ls.filterMap Lexeme.kind? ++ [.eof] := by
  induction ls generalizing pos with
  | nil => rfl
  | cons l ls ih =>
    cases l with
    | token kind => exact congrArg (kind :: ·) (ih _)
    | gap _ | stray _ => exact ih _

/-- **Where nothing is stray there are no failures.** -/
theorem failuresFrom_eq_nil {ls : List Lexeme} (h : ∀ t, Lexeme.stray t ∉ ls) (pos : Nat)
    (inRun : Bool) : failuresFrom pos inRun ls = [] := by
  induction ls generalizing pos inRun with
  | nil => rfl
  | cons l ls ih =>
    have hls : ∀ t, Lexeme.stray t ∉ ls := fun t ht => h t (List.mem_cons_of_mem _ ht)
    cases l with
    | token _ | gap _ => exact ih hls _ _
    | stray t => exact absurd (List.mem_cons_self ..) (h t)

/-- The tokens of a sequence of lexemes are those in it, and then the end of the text. -/
theorem exists_of_tokensFrom (pos : Nat) (ls : List Lexeme) :
    ∃ body, tokensFrom pos ls =
        body ++ [⟨.eof, Span.point (pos + Text.byteLength (ls.flatMap Lexeme.text))⟩] ∧
      ∀ t ∈ body, Lexeme.token t.kind ∈ ls := by
  induction ls generalizing pos with
  | nil => exact ⟨[], rfl, nofun⟩
  | cons l r ih =>
    obtain ⟨body, hb, hm⟩ := ih (pos + Text.byteLength l.text)
    rw [List.flatMap_cons, Text.byteLength_append, ← Nat.add_assoc]
    cases l with
    | token kind =>
      refine ⟨_ :: body, by rw [tokensFrom]; exact congrArg _ hb, ?_⟩
      intro t ht
      rcases List.mem_cons.1 ht with rfl | ht
      · exact List.mem_cons_self ..
      · exact List.mem_cons_of_mem _ (hm t ht)
    | gap _ => exact ⟨body, hb, fun t ht => List.mem_cons_of_mem _ (hm t ht)⟩
    | stray _ => exact ⟨body, hb, fun t ht => List.mem_cons_of_mem _ (hm t ht)⟩

end Lexing

theorem Slice.tokens_eq_ok {s : Slice} {ts : List Token} (h : s.tokens = .ok ts) :
    ts = Lexing.tokensFrom s.start (Lexeme.ofText s.text) := by
  unfold Slice.tokens at h
  split at h
  · next hl =>
    cases h
    exact (congrArg Lexing.tokens hl).symm
  · cases h

theorem Slice.tokens_of_failures {s : Slice} (h : (Lexing.ofSlice s).failures = []) :
    s.tokens = .ok (Lexing.ofSlice s).tokens := by
  unfold Slice.tokens
  split
  · next htokens => rw [htokens]
  · next htokens => cases htokens ▸ h

/-- The tokens of a slice are spelled, and then the text ends. -/
theorem Slice.exists_of_tokens {s : Slice} {ts : List Token} (h : s.tokens = .ok ts) :
    ∃ body stop, ts = body ++ [⟨.eof, Span.point stop⟩] ∧ ∀ t ∈ body, t.kind.Spelled := by
  obtain ⟨body, hb, hm⟩ := Lexing.exists_of_tokensFrom s.start (Lexeme.ofText s.text)
  exact ⟨body, _, (Slice.tokens_eq_ok h).trans hb,
    fun t ht => Lexeme.spelled_of_mem_ofText _ (hm t ht)⟩

/-- **The end of the text is the last token of a slice, and only that.** -/
theorem Slice.ends_of_tokens {s : Slice} {ts : List Token} (h : s.tokens = .ok ts) : Ends ts := by
  obtain ⟨body, stop, hb, hm⟩ := Slice.exists_of_tokens h
  refine ⟨body, _, hb, rfl, fun t ht hk => ?_⟩
  have := hm t ht
  rw [hk] at this
  exact this

end OData
