import OData.Proofs.Grammar.Agreement
import OData.Proofs.Query.Places
import OData.Proofs.Query.Shift

/-!
# Option lists agree with themselves

A comparison of two runs of a grammar is a comparison of two ways to read an option list:
on the left a slice, on the right the same slice some bytes further on, each in its own
number of brackets and under its own settings.  The two agree as runs of grammars do
(`Comparison.Results`), if the places in the slice correspond to those further on
(`Comparison.Covers`).  There is one lemma for each reader again, from the tokens of a
slice to whole option lists (`Comparison.optionList`); what is read further on, in other
brackets or under other limits is read off from these.
-/
namespace OData.Grammar.Comparison
open Options
variable (W : Comparison) (k : Nat) {α β γ δ : Type}

/-! ## Results -/

/-- **Results that correspond.** -/
inductive Results (r : α → β → Prop) : Except Stop α → Except Stop β → Prop
  | ok {a : α} {b : β} : r a b → Results r (.ok a) (.ok b)
  | error {e e' : Stop} : W.Stops e e' → Results r (.error e) (.error e')
  | excused {e : Stop} (x : Except Stop β) : W.Excuses e → Results r (.error e) x

/-- **Places in a slice correspond to those further on.** -/
def Covers (s : Slice) : Prop := ∀ p, s.Marks p → W.place p (p.shift k)

/-- The right side has as much room for brackets as the left, in so many brackets. -/
structure Rooms (depth depth' : Nat) : Prop where
  room : depth' + W.left.settings.maxDepth ≤ depth + W.right.settings.maxDepth
  even : W.even → depth' + W.left.settings.maxDepth = depth + W.right.settings.maxDepth

/-- Failures that tell of two places correspond if both places do. -/
structure Repeats : Prop where
  option : ∀ {o : QueryOption} {p : Span}, W.place p (p.shift k) →
    W.cause (.repeatedOption o p) (.repeatedOption o (p.shift k))
  expand : ∀ {p : Span}, W.place p (p.shift k) →
    W.cause (.repeatedExpand p) (.repeatedExpand (p.shift k))

/-- Readers of nested lists agree. -/
def Nests (nested nested' : Slice → Except Stop Query) : Prop :=
  ∀ s, W.Covers k s → W.Results Eq (nested s) (nested' (s.shift k))

/-- The same comparison for the value of an option. -/
def withOption (o : Option QueryOption) : Comparison :=
  { W with left := ⟨W.left.settings, o⟩, right := ⟨W.right.settings, o⟩, option := rfl }

variable {W k}

namespace Results
variable {r : α → β → Prop} {q : γ → δ → Prop} {x : Except Stop α} {y : Except Stop β}

theorem bind {f : α → Except Stop γ} {g : β → Except Stop δ} (h : W.Results r x y)
    (hf : ∀ a b, r a b → W.Results q (f a) (g b)) : W.Results q (x >>= f) (y >>= g) := by
  cases h with
  | ok hab => exact hf _ _ hab
  | error he => exact .error he
  | excused _ he => exact .excused _ he

/-- What is done with a value that both sides read. -/
theorem bind_eq {x y : Except Stop α} {f : α → Except Stop γ} {g : α → Except Stop δ}
    (h : W.Results Eq x y) (hf : ∀ a, W.Results q (f a) (g a)) :
    W.Results q (x >>= f) (y >>= g) :=
  h.bind fun a _ hab => hab ▸ hf a

theorem map {x y : Except Stop α} (f : α → γ) (h : W.Results Eq x y) :
    W.Results Eq (f <$> x) (f <$> y) := by
  cases h with
  | ok hab => exact .ok (congrArg f hab)
  | error he => exact .error he
  | excused _ he => exact .excused _ he

theorem refuse {c : Cause} {p p' : Span} (hc : c.earlier = none) (hp : W.place p p') :
    W.Results r (.error (.refused ⟨c, p⟩)) (.error (.refused ⟨c, p'⟩)) :=
  .error ⟨W.refl hc, hp⟩

/-- If nothing is excused then both sides read the same, or neither reads anything. -/
theorem eq_ok_iff {x y : Except Stop α} (h : W.Results Eq x y) (hex : ∀ c, ¬ W.excused c) (a : α) :
    x = .ok a ↔ y = .ok a := by
  cases h with
  | ok hab => rw [hab]
  | error _ => exact ⟨fun h => (nomatch h), fun h => (nomatch h)⟩
  | @excused e _ he =>
    cases e with
    | refused f => exact absurd he (hex f.cause)
    | exhausted | overdrawn => exact he.elim

end Results

/-! ## Slices -/

section Slices
variable {s t : Slice} {f : Failure}

theorem Covers.part (h : W.Covers k s) (ht : t.PartOf s) : W.Covers k t :=
  fun p hp => h p (ht.marks hp)

theorem Covers.span (h : W.Covers k s) : W.place s.span (s.shift k).span := by
  rw [Slice.span_shift]
  exact h _ s.marks_span

theorem Covers.failure {r : α → β → Prop} (h : W.Covers k s) (hf : s.MarksFailure f) :
    W.Results r (.error (.refused f)) (.error (.refused (f.shift k))) := by
  have hcause : f.cause.shift k = f.cause := Cause.shift_of_earlier hf.earlier
  have hshift : f.shift k = ⟨f.cause, f.span.shift k⟩ := by rw [Failure.shift, hcause]
  rw [hshift]
  exact .refuse hf.earlier (h _ hf.span)

/-- The tokens of a slice correspond to those further on. -/
theorem tokens_correspond {ts : List Token} (hne : ts ≠ [])
    (h : ∀ t ∈ ts, W.place t.span (t.span.shift k)) : W.Tokens ts (ts.map (Token.shift k)) := by
  induction ts with
  | nil => exact absurd rfl hne
  | cons t ts ih =>
    obtain ⟨ht, hts⟩ := List.forall_mem_cons.1 h
    cases ts with
    | nil => exact .last rfl ht
    | cons u ts =>
      refine .cons rfl ht (fun _ _ _ => ?_) (ih (by simp) hts)
      simp only [Token.shift, Span.shift]
      omega

/-- **A slice is read as it is read further on**, by a grammar that agrees with itself. -/
theorem run {o : Option QueryOption} {p p' : Parse α} {depth depth' : Nat}
    (h : (W.withOption o).Agree Eq p p') (hd : W.Rooms depth depth') (hs : W.Covers k s) :
    W.Results Eq (Grammar.run p depth s) (Grammar.run p' depth' (s.shift k)) := by
  unfold Grammar.run
  rw [tokens_shift]
  cases hts : s.tokens with
  | error f => exact hs.failure (Slice.marks_of_tokens_error hts)
  | ok ts =>
    have htokens : (W.withOption o).Tokens ts (ts.map (Token.shift k)) :=
      tokens_correspond (Slice.ends_of_tokens hts).ne_nil
        fun t ht => hs _ (Slice.marks_of_tokens hts ht)
    have hstart : (W.withOption o).States (State.start ts depth)
        (State.start (ts.map (Token.shift k)) depth') :=
      ⟨⟨.nil, htokens⟩, rfl, hd.room, hd.even⟩
    have ho := h hstart
    simp only
    generalize p (State.start ts depth) = x at ho
    generalize p' (State.start (ts.map (Token.shift k)) depth') = y at ho
    cases ho with
    | ok hab _ _ _ => exact .ok hab
    | @error e e' _ _ he _ _ =>
      have he : W.Stops e e' := he
      exact .error he
    | @excused e _ y he _ =>
      have he : W.Excuses e := he
      exact .excused _ he

end Slices

/-! ## Items -/

section Lists
variable {depth depth' : Nat} {nested nested' : Slice → Except Stop Query}

/-- The places that are kept correspond to those further on. -/
def Kept (W : Comparison) (k : Nat) (seen : List (α × Span)) : Prop :=
  ∀ x ∈ seen, W.place x.2 (x.2.shift k)

theorem Kept.nil : W.Kept k ([] : List (α × Span)) := fun _ h => nomatch h

theorem Kept.lookup [BEq α] [LawfulBEq α] {seen : List (α × Span)} (h : W.Kept k seen) {a : α}
    {first : Span} (hf : seen.lookup a = some first) : W.place first (first.shift k) := by
  obtain ⟨l, l', rfl, -⟩ := List.lookup_eq_some_iff.1 hf
  exact h (a, first) (by simp)

theorem Kept.cons {seen : List (α × Span)} (h : W.Kept k seen) {a : α} {p : Span}
    (hp : W.place p (p.shift k)) : W.Kept k ((a, p) :: seen) :=
  List.forall_mem_cons.2 ⟨hp, h⟩

theorem itemOptions (hn : W.Nests k nested nested') {parts : ExpandParts}
    (hp : ∀ inside, parts.options = some inside → W.Covers k inside) :
    W.Results Eq (Options.itemOptions nested parts)
      (Options.itemOptions nested' (parts.shift k)) := by
  obtain ⟨path, options⟩ := parts
  cases options with
  | none => exact .ok rfl
  | some inside => exact hn inside (hp inside rfl)

theorem expandItems (hr : W.Repeats k) (hd : W.Rooms depth depth')
    (hn : W.Nests k nested nested') {seen : List (String × Span)} (hseen : W.Kept k seen)
    {items : List Slice} (hitems : ∀ t ∈ items, W.Covers k t) :
    W.Results Eq (Options.expandItems W.left.settings depth nested seen items)
      (Options.expandItems W.right.settings depth' nested' (seen.map fun p => (p.1, p.2.shift k))
        (items.map (Slice.shift k))) := by
  induction items generalizing seen with
  | nil => exact .ok rfl
  | cons item items ih =>
    obtain ⟨hitem, hitems⟩ := List.forall_mem_cons.1 hitems
    have hitem := hitem.part item.standsIn_trim.partOf
    rw [List.map_cons, expandItems_cons, expandItems_cons, Slice.trim_shift, expandParts_shift]
    cases hparts : expandParts item.trim with
    | error f => exact hitem.failure (marks_of_expandParts_error hparts)
    | ok parts =>
      have hin := ExpandParts.in_of_expandParts hparts
      have hpath := hitem.part hin.path
      have hspan : (parts.path.shift k).span = parts.path.span.shift k := Slice.span_shift k _
      refine (run (W := W) (o := none) (expandPath (W := W.withOption none)) hd hpath).bind_eq ?_
      intro path
      simp only [lookup_shift]
      cases hlookup : seen.lookup path with
      | some first => exact .error ⟨hr.expand (hseen.lookup hlookup), hpath.span⟩
      | none =>
        refine (itemOptions hn fun inside h => hitem.part (hin.options inside h)).bind_eq ?_
        intro options
        have hrest := ih (hseen.cons (a := path) (hpath _ parts.path.marks_span)) hitems
        refine Results.bind_eq ?_ fun others => .ok rfl
        rw [List.map_cons] at hrest
        simp only [ExpandParts.shift, hspan]
        exact hrest

theorem optionValue (hr : W.Repeats k) (hd : W.Rooms depth depth')
    (hn : W.Nests k nested nested') {a : Assignment} (hvalue : W.Covers k a.value)
    (hplace : W.place a.span (a.span.shift k)) :
    W.Results Eq (Options.optionValue W.left.settings depth nested a)
      (Options.optionValue W.right.settings depth' nested' (a.shift k)) := by
  -- Values of five options are read as tokens or items; the others are read off the text.
  have hinvalid : W.Results (Eq : OptionValue → OptionValue → Prop)
      (.error (.refused ⟨.invalidValue a.option, a.span⟩))
      (.error (.refused ⟨.invalidValue a.option, (a.shift k).span⟩)) := by
    rw [Assignment.span_shift]
    exact .refuse rfl hplace
  have hoption : (a.shift k).option = a.option := rfl
  have htext : (a.shift k).value.text = a.value.text := rfl
  have hstring : (a.shift k).value.toString = a.value.toString := rfl
  have hslice : (a.shift k).value = a.value.shift k := rfl
  unfold Options.optionValue
  simp only [hoption, htext, hstring]
  generalize ho : a.option = o at hinvalid
  cases o with
  | select =>
    exact .map _ (run (o := none) (selection (W := W.withOption none)) hd hvalue)
  | orderBy =>
    exact .map _ (run (o := none) (ordering (W := W.withOption none)) hd hvalue)
  | filter =>
    exact .map _ (run (filter (W := W.withOption (some .filter))) hd hvalue)
  | apply =>
    exact .map _ (run (pipeline (W := W.withOption (some .apply))) hd hvalue)
  | expand =>
    rw [hslice, Slice.split_shift]
    refine .map _ (expandItems hr hd hn .nil fun t ht => ?_)
    exact hvalue.part (Slice.standsIn_of_mem_split ht).partOf
  | top | skip =>
    simp only
    cases Text.Numeral.unsigned? a.value.text with
    | none => exact hinvalid
    | some n => exact .ok rfl
  | search =>
    simp only
    cases Text.Quoted.term a.value.text with
    | none => exact hinvalid
    | some term => exact .ok rfl
  | count =>
    simp only
    split
    · exact .ok rfl
    · split
      · exact .ok rfl
      · exact hinvalid
  | format | callback =>
    simp only
    split
    · exact hinvalid
    · exact .ok rfl

/-! ## Lists -/

theorem assignAll (hr : W.Repeats k) {value value' : Assignment → Except Stop OptionValue}
    (hv : ∀ a : Assignment, W.Covers k a.value → W.place a.span (a.span.shift k) →
      W.Results Eq (value a) (value' (a.shift k)))
    {seen : List (QueryOption × Span)} (hseen : W.Kept k seen) (q : Query) {items : List Slice}
    (hitems : ∀ t ∈ items, W.Covers k t) :
    W.Results Eq (Options.assignAll value seen q items)
      (Options.assignAll value' (seen.map fun p => (p.1, p.2.shift k)) q
        (items.map (Slice.shift k))) := by
  induction items generalizing seen q with
  | nil => exact .ok rfl
  | cons item items ih =>
    obtain ⟨hitem, hitems⟩ := List.forall_mem_cons.1 hitems
    have hshift := assignment?_shift k item
    rw [List.map_cons]
    cases h : assignment? item with
    | error f =>
      rw [h] at hshift
      rw [assignAll_of_error h, assignAll_of_error hshift]
      exact hitem.failure (marks_of_assignment?_error h)
    | ok a? =>
      rw [h] at hshift
      cases a? with
      | none =>
        rw [assignAll_of_none h, assignAll_of_none hshift]
        exact ih hseen q hitems
      | some a =>
        have hin := Assignment.in_of_assignment? h
        have hname := hitem _ hin.name
        have hlookup := lookup_shift (k := k) seen a.option
        cases hs : seen.lookup a.option with
        | some first =>
          rw [hs] at hlookup
          rw [assignAll_of_seen h hs, assignAll_of_seen hshift hlookup]
          exact .error ⟨hr.option (hseen.lookup hs), hname⟩
        | none =>
          rw [hs] at hlookup
          rw [assignAll_of_unseen h hs, assignAll_of_unseen hshift hlookup]
          refine (hv a (hitem.part hin.value) (hitem _ hin.span)).bind_eq fun v => ?_
          exact ih (hseen.cons hname) (q.assign v) hitems

theorem listWith (hr : W.Repeats k) (hd : W.Rooms depth depth')
    (hn : W.Nests k nested nested') (sep : Char) :
    W.Nests k (Options.listWith W.left.settings depth nested sep)
      (Options.listWith W.right.settings depth' nested' sep) := by
  intro s hs
  unfold Options.listWith
  rw [Slice.split_shift]
  exact assignAll hr (fun a hvalue hspan => optionValue hr hd hn hvalue hspan)
    .nil Query.empty fun t ht => hs.part (Slice.standsIn_of_mem_split ht).partOf

section Room
variable {room room' : Nat} (hr : W.Repeats k) (hroom : room ≤ W.left.settings.maxDepth)
  (hroom' : room' ≤ W.right.settings.maxDepth) (hle : room ≤ room') (heven : W.even → room = room')
include hr hroom hroom' hle heven

/-- The lists in brackets decide about a list. -/
theorem optionList_of_nestedList (hn : W.Nests k (Options.nestedList W.left.settings room)
    (Options.nestedList W.right.settings room')) (sep : Char) :
    W.Nests k (Options.optionList W.left.settings room sep)
      (Options.optionList W.right.settings room' sep) := by
  have hd : W.Rooms (W.left.settings.maxDepth - room) (W.right.settings.maxDepth - room') :=
    ⟨by omega, fun he => by have := heven he; omega⟩
  intro s hs
  rw [optionList_eq, optionList_eq]
  exact listWith hr hd hn sep s hs

/-- A list in brackets is read as it is read further on, if there is room for at least as
many brackets there. -/
theorem nestedList : W.Nests k (Options.nestedList W.left.settings room)
    (Options.nestedList W.right.settings room') := by
  induction room generalizing room' with
  | zero =>
    intro s hs
    -- Without room on the left there is none on the right, or the refusal is excused.
    rcases W.tooDeep with he | ⟨he, hc⟩
    · exact .excused _ he
    · obtain rfl := heven he
      exact .error ⟨hc, hs _ (Slice.marks_point s.hasBoundary_start)⟩
  | succ room ih =>
    obtain ⟨less, rfl⟩ := Nat.exists_eq_succ_of_ne_zero (by omega : room' ≠ 0)
    have heven (he : W.even) : room = less := Nat.succ.inj (heven he)
    exact optionList_of_nestedList hr (by omega) (by omega) (by omega) heven
      (ih (by omega) (by omega) (by omega) heven) ';'

/-- **An option list is read as it is read further on**, if there is room for at least as many
brackets there. -/
theorem optionList (sep : Char) : W.Nests k (Options.optionList W.left.settings room sep)
    (Options.optionList W.right.settings room' sep) :=
  optionList_of_nestedList hr hroom hroom' hle heven
    (nestedList hr hroom hroom' hle heven) sep

end Room

end Lists

/-! ## Queries -/

/-- **A text is read alike on both sides**, if its places correspond to themselves. -/
theorem read (hr : W.Repeats 0) (hle : W.left.settings.maxDepth ≤ W.right.settings.maxDepth)
    (heven : W.even → W.left.settings.maxDepth = W.right.settings.maxDepth) {text : String}
    (h : W.Covers 0 (Slice.ofString text 0)) :
    W.Results Eq (Query.read W.left.settings text) (Query.read W.right.settings text) := by
  have hin := Halves.in_ofSlice (Slice.ofString text 0)
  rw [Query.read_eq, Query.read_eq]
  generalize Halves.ofSlice (Slice.ofString text 0) = halves at hin
  obtain ⟨path, options⟩ := halves
  have hd : W.Rooms 0 0 := ⟨by omega, fun he => by rw [heven he]⟩
  have hpath : W.Results Eq (Query.readPath W.left.settings path)
      (Query.readPath W.right.settings path) := by
    unfold Query.readPath
    split
    · exact .ok rfl
    · exact .map _ (run (o := none) (resourcePath (W := W.withOption none)) hd (h.part hin.path))
  have hoptions : W.Results Eq (Query.readOptions W.left.settings options)
      (Query.readOptions W.right.settings options) := by
    cases options with
    | none => exact .ok rfl
    | some options =>
      exact optionList hr (Nat.le_refl _) (Nat.le_refl _) hle heven '&' options
        (h.part (hin.options options rfl))
  exact hpath.bind_eq fun segments => hoptions.bind_eq fun q => .ok rfl

end OData.Grammar.Comparison
