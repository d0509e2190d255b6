import OData.Proofs.Grammar.Agreement
import OData.Proofs.Limits.Lists
import OData.Proofs.Query.Equality
import OData.Proofs.Token.Partition

/-!
# Layout does not change meaning

A text may be laid out anew: with other gaps between its tokens, and somewhere else in a query.
What is read from it stays the same, and so does every refusal but for its places, which are those
of the same tokens (`relaid_alike`).  Only one gap means anything.  A string directly after a null
is the name of a type, and with a gap between them it is a string of its own; so the new layout
must keep each of these together or apart (`Slice.Relaid`).

That tokens stand in order is what makes places of tokens the same under both layouts: where two
places are joined, the first of the tokens and the last of them are the same ones on both sides.
-/
namespace OData
open Grammar

/-! ## Layouts -/

/-- Which tokens are nulls with a string directly after them, for all tokens but the last. -/
def Token.hints (ts : List Token) : List Bool :=
  ts.zipWith (fun t u => match t.kind, u.kind with
    | .word "null", .string _ => u.span.start == t.span.stop
    | _, _ => false) ts.tail

/-- **A slice is laid out anew**: it has the same kinds of tokens and nothing that makes none, and
the same nulls have a string directly after them. -/
structure Slice.Relaid (s s' : Slice) : Prop where
  failures : (Lexing.ofSlice s).failures = []
  failures' : (Lexing.ofSlice s').failures = []
  kinds : (Lexing.ofSlice s).tokens.map Token.kind = (Lexing.ofSlice s').tokens.map Token.kind
  hints : Token.hints (Lexing.ofSlice s).tokens = Token.hints (Lexing.ofSlice s').tokens

/-! ## Places of tokens -/

/-- A place runs from one token to another, or is that of a single token. -/
structure Span.Over (p : Span) (ts : List Token) (i j : Nat) : Prop where
  le : i ≤ j
  start : ∃ t, ts[i]? = some t ∧ p.start = t.span.start
  stop : ∃ t, ts[j]? = some t ∧ p.stop = t.span.stop

/-- **Places of the same tokens** in two layouts of them. -/
def Span.Alike (ts ts' : List Token) (p p' : Span) : Prop :=
  ∃ i j, p.Over ts i j ∧ p'.Over ts' i j

/-- Labels that say the same about the same tokens. -/
structure Label.Alike (ts ts' : List Token) (l l' : Label) : Prop where
  span : l.span.Alike ts ts' l'.span
  message : l.message = l'.message
  role : l.role = l'.role

/-- **Diagnostics that say the same** about the same tokens. -/
structure Diagnostic.Alike (ts ts' : List Token) (d d' : Diagnostic) : Prop where
  message : d.message = d'.message
  labels : List.Forall₂ (Label.Alike ts ts') d.labels d'.labels
  help : d.help = d'.help
  code : d.code = d'.code

/-- **Refusals of one class** that say the same about the same tokens. -/
inductive Refusal.Alike (ts ts' : List Token) : Refusal → Refusal → Prop
  | malformed {d d' : Diagnostic} : d.Alike ts ts' d' → Alike ts ts' (.malformed d) (.malformed d')
  | invalid {d d' : Diagnostic} : d.Alike ts ts' d' → Alike ts ts' (.invalid d) (.invalid d')

/-- **Results that mean the same**: the same value, or refusals that say the same about the same
tokens. -/
inductive Grammar.Alike {α : Type} (ts ts' : List Token) : Except Stop α → Except Stop α → Prop
  | value (a : α) : Alike ts ts' (.ok a) (.ok a)
  | refused {f f' : Failure} : f.refusal.Alike ts ts' f'.refusal →
      Alike ts ts' (.error (.refused f)) (.error (.refused f'))

namespace Lexing.Partitions
variable {r : Lexing} {s : Slice}

/-- Later tokens start and stop later. -/
theorem monotone (h : r.Partitions s) {i j : Nat} {t u : Token} (hij : i ≤ j)
    (ht : r.tokens[i]? = some t) (hu : r.tokens[j]? = some u) :
    t.span.start ≤ u.span.start ∧ t.span.stop ≤ u.span.stop := by
  have hsize : ∀ v ∈ r.tokens, v.span.start ≤ v.span.stop := fun v hv =>
    (h.marks _ (List.mem_append_left _ (List.mem_map_of_mem hv))).1.ordered
  have htsize := hsize t (List.mem_of_getElem? ht)
  have husize := hsize u (List.mem_of_getElem? hu)
  rcases Nat.lt_or_eq_of_le hij with hlt | rfl
  · obtain ⟨hi, rfl⟩ := List.getElem?_eq_some_iff.1 ht
    obtain ⟨hj, rfl⟩ := List.getElem?_eq_some_iff.1 hu
    have hle := List.pairwise_iff_getElem.1 h.ordered i j hi hj hlt
    omega
  · obtain rfl := Option.some.inj (ht.symm.trans hu)
    exact ⟨Nat.le_refl _, Nat.le_refl _⟩

/-- What covers two places runs from the first of their tokens to the last. -/
theorem over_join (h : r.Partitions s) {a b : Span} {i j k l : Nat} (ha : a.Over r.tokens i j)
    (hb : b.Over r.tokens k l) : (a.join b).Over r.tokens (min i k) (max j l) := by
  obtain ⟨hij, ⟨t, ht, hstart⟩, ⟨u, hu, hstop⟩⟩ := ha
  obtain ⟨hkl, ⟨v, hv, hstart'⟩, ⟨w, hw, hstop'⟩⟩ := hb
  refine ⟨by omega, ?_, ?_⟩
  · simp only [Span.join, hstart, hstart']
    rcases Nat.le_total i k with hle | hle
    · rw [Nat.min_eq_left hle, Nat.min_eq_left (h.monotone hle ht hv).1]
      exact ⟨t, ht, rfl⟩
    · rw [Nat.min_eq_right hle, Nat.min_eq_right (h.monotone hle hv ht).1]
      exact ⟨v, hv, rfl⟩
  · simp only [Span.join, hstop, hstop']
    rcases Nat.le_total j l with hle | hle
    · rw [Nat.max_eq_right hle, Nat.max_eq_right (h.monotone hle hu hw).2]
      exact ⟨w, hw, rfl⟩
    · rw [Nat.max_eq_left hle, Nat.max_eq_left (h.monotone hle hw hu).2]
      exact ⟨u, hu, rfl⟩

end Lexing.Partitions

/-! ## Both layouts read -/

/-- The comparison of two layouts, for which places correspond that are of the same tokens. -/
def Grammar.Comparison.relaid (settings : Settings) (option : Option QueryOption)
    (s s' : Slice) : Comparison where
  left := ⟨settings, option⟩
  right := ⟨settings, option⟩
  place := Span.Alike (Lexing.ofSlice s).tokens (Lexing.ofSlice s').tokens
  cause c c' := c = c' ∧ c.earlier = none
  excused _ := False
  even := True
  option := rfl
  parameters := rfl
  operators := Nat.le_refl _
  join := by
    rintro a b a' b' ⟨i, j, ha, ha'⟩ ⟨k, l, hb, hb'⟩
    exact ⟨min i k, max j l, s.partitions.over_join ha hb, s'.partitions.over_join ha' hb'⟩
  refl h := ⟨rfl, h⟩
  tooDeep := .inr ⟨trivial, rfl, rfl⟩
  tooManyOperators := .inr rfl

section Relaid
variable {settings : Settings} {option : Option QueryOption} {s s' : Slice} {depth : Nat} {α : Type}

/-- The tokens of two layouts correspond from any of them on.  The induction is on the tokens that
are left, and those before them only count. -/
theorem tokens_relaid {before before' rest rest' : List Token}
    (hs : (Lexing.ofSlice s).tokens = before ++ rest)
    (hs' : (Lexing.ofSlice s').tokens = before' ++ rest')
    (hlength : before.length = before'.length) (hne : rest ≠ [])
    (hkinds : rest.map Token.kind = rest'.map Token.kind)
    (hhints : Token.hints rest = Token.hints rest') :
    (Comparison.relaid settings option s s').Tokens rest rest' := by
  induction rest generalizing before before' rest' with
  | nil => exact absurd rfl hne
  | cons t rest ih =>
    match rest' with
    | [] => cases hkinds
    | t' :: rest' =>
      obtain ⟨hkind, hkinds⟩ := List.cons.inj hkinds
      have hplace : (Comparison.relaid settings option s s').place t.span t'.span := by
        have ht : (Lexing.ofSlice s).tokens[before.length]? = some t := by simp [hs]
        have ht' : (Lexing.ofSlice s').tokens[before.length]? = some t' := by simp [hs', hlength]
        exact ⟨before.length, before.length, ⟨Nat.le_refl _, ⟨t, ht, rfl⟩, ⟨t, ht, rfl⟩⟩,
          ⟨Nat.le_refl _, ⟨t', ht', rfl⟩, ⟨t', ht', rfl⟩⟩⟩
      match rest, rest' with
      | [], [] => exact .last hkind hplace
      | u :: rest, u' :: rest' =>
        obtain ⟨hhint, hhints⟩ := List.cons.inj hhints
        have hnext : (Lexing.ofSlice s).tokens = (before ++ [t]) ++ u :: rest := by simp [hs]
        have hnext' : (Lexing.ofSlice s').tokens = (before' ++ [t']) ++ u' :: rest' := by simp [hs']
        refine .cons hkind hplace ?_
          (ih hnext hnext' (by simp [hlength]) (by simp) hkinds hhints)
        intro hnull hint hstring
        have hstring' : u'.kind = .string hint := (List.cons.inj hkinds).1 ▸ hstring
        simpa [hnull, hstring, hkind ▸ hnull, hstring'] using hhint

/-- Refusals for one cause say the same. -/
theorem Failure.refusal_alike {ts ts' : List Token} {c : Cause} {p p' : Span}
    (hc : c.earlier = none) (hp : p.Alike ts ts' p') :
    (Failure.refusal ⟨c, p⟩).Alike ts ts' (Failure.refusal ⟨c, p'⟩) := by
  have hdiagnostic : (Failure.diagnostic ⟨c, p⟩).Alike ts ts' (Failure.diagnostic ⟨c, p'⟩) := by
    refine ⟨rfl, .cons ⟨hp, rfl, rfl⟩ ?_, rfl, rfl⟩
    rw [hc]
    exact .nil
  unfold Failure.refusal
  split
  · exact .invalid hdiagnostic
  · exact .malformed hdiagnostic

/-- What reads corresponding tokens alike reads both layouts alike. -/
theorem run_relaid (h : s.Relaid s') {P : α → Prop} {p : Parse α}
    (hp : (Comparison.relaid settings option s s').Agree Eq p p)
    (hruns : ∀ n, Runs P n (n - 1) depth 0 p) :
    Alike (Lexing.ofSlice s).tokens (Lexing.ofSlice s').tokens (run p depth s)
      (run p depth s') := by
  have htokens : (Comparison.relaid settings option s s').Tokens (Lexing.ofSlice s).tokens
      (Lexing.ofSlice s').tokens :=
    tokens_relaid (List.nil_append _).symm (List.nil_append _).symm rfl
      (Slice.ends_of_tokens (Slice.tokens_of_failures h.failures)).ne_nil h.kinds h.hints
  have hstart : (Comparison.relaid settings option s s').States
      (State.start (Lexing.ofSlice s).tokens depth)
      (State.start (Lexing.ofSlice s').tokens depth) :=
    ⟨⟨.nil, htokens⟩, rfl, Nat.le_refl _, fun _ => rfl⟩
  have hsettles := Options.settles_run hruns s
  have ho := hp hstart
  unfold run at hsettles ⊢
  rw [Slice.tokens_of_failures h.failures] at hsettles ⊢
  rw [Slice.tokens_of_failures h.failures']
  simp only at hsettles ⊢
  generalize p (State.start (Lexing.ofSlice s).tokens depth) = x at ho hsettles
  generalize p (State.start (Lexing.ofSlice s').tokens depth) = y at ho
  cases ho with
  | ok hab _ _ _ =>
    subst hab
    exact .value _
  | @error e e' _ _ he _ _ =>
    -- A run is never exhausted or overdrawn, so both sides are refused.
    cases hsettles with
    | refused f =>
      cases e' with
      | refused f' =>
        obtain ⟨⟨hcause, hearlier⟩, hplace⟩ := he
        obtain ⟨c, p⟩ := f
        obtain ⟨c', p'⟩ := f'
        obtain rfl : c = c' := hcause
        exact .refused (Failure.refusal_alike hearlier hplace)
      | exhausted | overdrawn => exact he.elim
  | @excused e _ _ he _ => cases e <;> exact he.elim

end Relaid

/-- **Layout does not change meaning.**  A filter, a pipeline and a resource path are read from any
layout of a text as the same trees, or refused for the same cause at the same tokens. -/
theorem relaid_alike {s s' : Slice} (h : s.Relaid s') (ctx : Context) (depth : Nat) :
    Alike (Lexing.ofSlice s).tokens (Lexing.ofSlice s').tokens
        (run (filter ctx) depth s) (run (filter ctx) depth s') ∧
      Alike (Lexing.ofSlice s).tokens (Lexing.ofSlice s').tokens
        (run (pipeline ctx) depth s) (run (pipeline ctx) depth s') ∧
      Alike (Lexing.ofSlice s).tokens (Lexing.ofSlice s').tokens
        (run (resourcePath ctx) depth s) (run (resourcePath ctx) depth s') := by
  let W := Comparison.relaid ctx.settings ctx.option s s'
  have hfilter : W.Agree Eq (filter ctx) (filter ctx) := Comparison.filter
  have hpipeline : W.Agree Eq (pipeline ctx) (pipeline ctx) := Comparison.pipeline
  have hpath : W.Agree Eq (resourcePath ctx) (resourcePath ctx) := Comparison.resourcePath
  exact ⟨run_relaid h hfilter fun _ => runs_filter, run_relaid h hpipeline fun _ => runs_pipeline,
    run_relaid h hpath fun _ => runs_resourcePath⟩

/-- A condition with a null of a type, and arithmetic in parentheses where a condition should be. -/
def spaced : Slice := .ofString "null'T' eq x and(a add 1)" 0

/-- The same tokens further on, with other gaps. -/
def respaced : Slice := .ofString " null'T'  eq\tx and ( a\nadd  1)" 7

/-- The parentheses are refused, as the sixth token up to the tenth. -/
theorem respaced_refused :
    spaced.Relaid respaced ∧
      Alike (Lexing.ofSlice spaced).tokens (Lexing.ofSlice respaced).tokens
        (run (filter ⟨Settings.standard, some .filter⟩) 0 spaced)
        (run (filter ⟨Settings.standard, some .filter⟩) 0 respaced) ∧
      run (filter ⟨Settings.standard, some .filter⟩) 0 spaced =
        .error (.refused ⟨.notBoolean, ⟨16, 25⟩⟩) ∧
      run (filter ⟨Settings.standard, some .filter⟩) 0 respaced =
        .error (.refused ⟨.notBoolean, ⟨26, 37⟩⟩) := by
  have hrelaid : spaced.Relaid respaced := by
    constructor <;> decide +kernel
  exact ⟨hrelaid, (relaid_alike hrelaid ⟨Settings.standard, some .filter⟩ 0).1,
    by decide +kernel, by decide +kernel⟩

end OData
