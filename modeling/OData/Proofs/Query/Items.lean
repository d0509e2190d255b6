import OData.Proofs.Text.Nesting
import OData.Query.Verdict

/-!
# Items of an option list

How the text of a query is taken apart, with one account of all that can come of it at each stage:
an item of an option list (`takenApart`), an expand item (`itemTakenApart`), and the value of an
option, which a grammar reads or the reader of the list itself (`valueRead`).  Whoever has to know
how a text is read goes through these cases, and need not open the readers again.

What was taken apart is put together again too: an item is made of its name and its value
(`text_of_assignment`), and what a list or a whole text is read as is what its parts are
(`optionList_eq`, `read_eq`).
-/
namespace OData.Options
open Text Grammar

theorem bind_eq_ok {ε α β : Type} {x : Except ε α} {f : α → Except ε β} {b : β} :
    x >>= f = .ok b ↔ ∃ a, x = .ok a ∧ f a = .ok b := by
  cases x with
  | ok a => exact ⟨fun h => ⟨a, rfl, h⟩, by rintro ⟨_, ⟨⟩, h⟩; exact h⟩
  | error e => exact ⟨fun h => (nomatch h), by rintro ⟨_, ⟨⟩, _⟩⟩

theorem map_eq_ok {ε α β : Type} {x : Except ε α} {f : α → β} {b : β} :
    f <$> x = .ok b ↔ ∃ a, x = .ok a ∧ f a = b := by
  cases x with
  | ok a => exact ⟨fun h => ⟨a, rfl, Except.ok.inj h⟩, by rintro ⟨_, ⟨⟩, rfl⟩; rfl⟩
  | error e => exact ⟨fun h => (nomatch h), by rintro ⟨_, ⟨⟩, _⟩⟩

/-! ## Trimming -/

theorem exists_trimStart (s : List Char) :
    ∃ b, s = b ++ trimStart s ∧ ∀ c ∈ b, isBlank c = true :=
  ⟨s.takeWhile isBlank, (List.takeWhile_append_dropWhile ..).symm,
    fun c hc => List.all_eq_true.1 List.all_takeWhile c hc⟩

/-- The text in front of the first of some characters, and the text after it. -/
theorem text_of_breakAt {s name value : Slice} {c : Char} (h : s.breakAt c = some (name, value)) :
    s.text = name.text ++ c :: value.text ∧ c ∉ name.text := by
  unfold Slice.breakAt at h
  split at h
  · cases h
  · next d rest hd =>
    cases h
    have hc : d = c := by
      have := List.head?_dropWhile_not (fun x => x != c) s.text
      rw [hd] at this
      simpa using this
    subst hc
    refine ⟨?_, fun hmem => ?_⟩
    · rw [← hd]
      exact (List.takeWhile_append_dropWhile ..).symm
    · have := List.all_eq_true.1 (List.all_takeWhile (l := s.text)) _ hmem
      simp at this

/-! ## Assignments -/

theorem isPlain_of_mem_word (option : QueryOption) :
    ∀ c ∈ option.word.toList, Nesting.IsPlain c := by
  have h : option.word.toList.all
      (fun c => Nesting.isQuote c == false && c != '(' && c != ')') = true := by
    cases option <;> decide
  intro c hc
  have := List.all_eq_true.1 h c hc
  simp only [Bool.and_eq_true, beq_iff_eq, bne_iff_ne] at this
  exact ⟨this.1.1, this.1.2, this.2⟩

/-- How an item is taken apart: it is blank, or there is no equals sign, or the name in front
of that is no option, or it is an assignment. -/
inductive TakenApart (item : Slice) : Except Failure (Option Assignment) → Prop
  | blank : item.trimStart.text = [] → TakenApart item (.ok none)
  | missingValue : item.trimStart.breakAt '=' = none →
      TakenApart item (.error ⟨.missingValue item.trimStart.trimEnd.toString,
        item.trimStart.trimEnd.span⟩)
  | unknownOption {name value : Slice} : item.trimStart.breakAt '=' = some (name, value) →
      TakenApart item (.error ⟨.unknownOption name.trimEnd.toString, name.trimEnd.span⟩)
  | assignment {name value : Slice} {option : QueryOption} :
      item.trimStart.breakAt '=' = some (name, value) →
      Keyword.find? name.trimEnd.toString = some option →
      TakenApart item (.ok (some ⟨option, name.trimEnd.span, value⟩))

theorem takenApart (item : Slice) : TakenApart item (assignment? item) := by
  simp only [assignment?]
  split
  · next hblank => exact .blank hblank
  · split
    · next hbreak => exact .missingValue hbreak
    · next name value hbreak =>
      split
      · exact .unknownOption hbreak
      · next option hoption => exact .assignment hbreak hoption

/-- An assignment is written as the word of its option, an equals sign and the value, with
blanks in front of the first two. -/
theorem text_of_assignment {item : Slice} {a : Assignment}
    (h : assignment? item = .ok (some a)) :
    ∃ b b', (∀ c ∈ b, isBlank c = true) ∧ (∀ c ∈ b', isBlank c = true) ∧
      item.text = b ++ (a.option.word.toList ++ (b' ++ '=' :: a.value.text)) := by
  obtain ⟨b, hb, hblank⟩ := exists_trimStart item.text
  have htaken := takenApart item
  rw [h] at htaken
  cases htaken with
  | @assignment name value option hbreak hoption =>
    obtain ⟨htext, -⟩ := text_of_breakAt hbreak
    obtain ⟨b', hname, hblank'⟩ := exists_append_of_trimEnd name.text
    have hword : trimEnd name.text = option.word.toList := by
      have : name.trimEnd.toString = option.word := Keyword.find?_eq_some_iff.1 hoption
      rw [← String.toList_inj] at this
      simpa [Slice.toString, Slice.trimEnd] using this
    refine ⟨b, b', hblank, hblank', ?_⟩
    rw [hb]
    refine congrArg (b ++ ·) ?_
    rw [← hword, ← List.append_assoc, ← hname]
    exact htext

/-- The value of an item exposes no separator that the item does not. -/
theorem cut_value_eq_none {item : Slice} {a : Assignment} {sep : Char}
    (h : assignment? item = .ok (some a)) (hi : Nesting.cut sep Nesting.start item.text = none) :
    Nesting.cut sep Nesting.start a.value.text = none := by
  obtain ⟨b, b', hb, hb', ht⟩ := text_of_assignment h
  have hplain : ∀ c ∈ b ++ (a.option.word.toList ++ (b' ++ ['='])), Nesting.IsPlain c := by
    simp only [List.forall_mem_append, List.forall_mem_singleton]
    exact ⟨fun c hc => Nesting.isPlain_of_isBlank (hb c hc), isPlain_of_mem_word _,
      fun c hc => Nesting.isPlain_of_isBlank (hb' c hc), ⟨by decide, by decide, by decide⟩⟩
  have hsplit : item.text = (b ++ (a.option.word.toList ++ (b' ++ ['=']))) ++ a.value.text := by
    rw [ht]
    simp
  rw [hsplit, Nesting.cut_append_eq_none, Nesting.after_of_isPlain hplain rfl] at hi
  exact hi.2

/-! ## Expand items -/

/-- How an expand item is taken apart: there is none, or it is a path alone, or a path and a
group, or text follows the group, or the group is not closed. -/
inductive ItemTakenApart (item : Slice) : Except Failure ExpandParts → Prop
  | missing : item.text = [] → ItemTakenApart item (.error ⟨.missingExpandItem, item.span⟩)
  | path : item.cut '(' = none → ItemTakenApart item (.ok ⟨item, none⟩)
  | group {path inside : Slice} {options : List Char} : item.cut '(' = some (path, inside) →
      close 1 none inside.text = .closed options [] →
      ItemTakenApart item (.ok ⟨path, some ⟨options, inside.start⟩⟩)
  | textAfter {path inside : Slice} {options rest : List Char} {c : Char} :
      item.cut '(' = some (path, inside) → close 1 none inside.text = .closed options (c :: rest) →
      ItemTakenApart item (.error ⟨.textAfterExpandOptions,
        ⟨inside.start + byteLength options + 1, item.stop⟩⟩)
  | unclosed {path inside : Slice} : item.cut '(' = some (path, inside) →
      ItemTakenApart item (.error ⟨.unclosedExpandOptions, ⟨path.stop, inside.start⟩⟩)

theorem itemTakenApart (item : Slice) : ItemTakenApart item (expandParts item) := by
  unfold expandParts
  split
  · next hnone => exact .missing hnone
  · split
    · next hcut => exact .path hcut
    · next path inside hcut =>
      split
      · next options hclose => exact .group hcut hclose
      · next options c rest hclose => exact .textAfter hcut hclose
      · exact .unclosed hcut

section Expand
variable (settings : Settings) (depth : Nat) (nested : Slice → Except Stop Query)
  (seen : List (String × Span))

/-- The options of an expand item, which need not be there. -/
def itemOptions (parts : ExpandParts) : Except Stop Query :=
  match parts.options with
  | some inside => nested inside
  | none => .ok Query.empty

theorem expandItems_cons (item : Slice) (items : List Slice) :
    expandItems settings depth nested seen (item :: items) =
      match expandParts item.trim with
      | .error f => .error (.refused f)
      | .ok parts =>
        run expandPath depth parts.path >>= fun path =>
          match seen.lookup path with
          | some first => .error (.refused ⟨.repeatedExpand first, parts.path.span⟩)
          | none =>
            itemOptions nested parts >>= fun options =>
              expandItems settings depth nested ((path, parts.path.span) :: seen) items >>=
                fun others => .ok (⟨path, options⟩ :: others) := by
  rw [expandItems]
  cases expandParts item.trim with
  | error f => rfl
  | ok parts =>
    refine congrArg (run expandPath depth parts.path >>= ·) (funext fun path => ?_)
    cases seen.lookup path with
    | some first => rfl
    | none =>
      unfold itemOptions
      cases parts.options <;> rfl

end Expand

/-! ## Values -/

section Values
variable (settings : Settings) (depth : Nat) (nested : Slice → Except Stop Query)

/-- The value is read from the text, as it is read for its option. -/
def ReadsAs (text : Slice) : OptionValue → Prop
  | .select items => run selection depth text = .ok items
  | .expand items => expandItems settings depth nested [] (text.split ',') = .ok items
  | .filter e => run (filter ⟨settings, some .filter⟩) depth text = .ok e
  | .orderBy items => run ordering depth text = .ok items
  | .callback raw | .format raw => text.text ≠ [] ∧ text.toString = raw
  | .search term => Quoted.term text.text = some term.toList
  | .count wanted => text.toString = if wanted then "true" else "false"
  | .skip n | .top n => Numeral.unsigned? text.text = some n
  | .apply stages => run (pipeline ⟨settings, some .apply⟩) depth text = .ok stages

/-- How the value of an option is read: by a grammar, as expand items, or off its text, which
is a value without trees or is refused. -/
inductive ValueRead (a : Assignment) : Except Stop OptionValue → Prop
  | select : ValueRead a (OptionValue.select <$> run selection depth a.value)
  | orderBy : ValueRead a (OptionValue.orderBy <$> run ordering depth a.value)
  | filter :
      ValueRead a (OptionValue.filter <$> run (filter ⟨settings, some .filter⟩) depth a.value)
  | apply :
      ValueRead a (OptionValue.apply <$> run (pipeline ⟨settings, some .apply⟩) depth a.value)
  | expand : ValueRead a
      (OptionValue.expand <$> expandItems settings depth nested [] (a.value.split ','))
  | plain {v : OptionValue} : (Query.empty.assign v).filter = none →
      (Query.empty.assign v).apply = none → (Query.empty.assign v).expand = none →
      ValueRead a (.ok v)
  | invalid : ValueRead a (.error (.refused ⟨.invalidValue a.option, a.span⟩))

theorem valueRead (a : Assignment) :
    ValueRead settings depth nested a (optionValue settings depth nested a) := by
  have hinvalid : ValueRead settings depth nested a
      (.error (.refused ⟨.invalidValue a.option, a.span⟩)) := .invalid
  unfold optionValue
  generalize a.option = o at hinvalid
  cases o with
  | select => exact .select
  | orderBy => exact .orderBy
  | filter => exact .filter
  | apply => exact .apply
  | expand => exact .expand
  | top | skip =>
    simp only
    cases Numeral.unsigned? a.value.text with
    | none => exact hinvalid
    | some n => exact .plain rfl rfl rfl
  | search =>
    simp only
    cases Quoted.term a.value.text with
    | none => exact hinvalid
    | some term => exact .plain rfl rfl rfl
  | count =>
    simp only
    split
    · exact .plain rfl rfl rfl
    · split
      · exact .plain rfl rfl rfl
      · exact hinvalid
  | format | callback =>
    simp only
    split
    · exact hinvalid
    · exact .plain rfl rfl rfl

variable {settings depth nested}

/-- **The value of an option** is one of that option, and is read from the text. -/
theorem optionValue_eq_ok {a : Assignment} {v : OptionValue} :
    optionValue settings depth nested a = .ok v ↔
      v.option = a.option ∧ ReadsAs settings depth nested a.value v := by
  unfold optionValue
  constructor
  · intro h
    cases ho : a.option with
    | select | expand | filter | orderBy | apply =>
      simp only [ho] at h
      obtain ⟨x, hx, rfl⟩ := map_eq_ok.1 h
      exact ⟨rfl, hx⟩
    | top | skip =>
      simp only [ho] at h
      split at h
      · next n hn =>
        cases h
        exact ⟨rfl, hn⟩
      · cases h
    | search =>
      simp only [ho] at h
      split at h
      · next term hterm =>
        cases h
        exact ⟨rfl, hterm.trans (congrArg some String.toList_ofList.symm)⟩
      · cases h
    | format | callback =>
      simp only [ho] at h
      split at h
      · cases h
      · next hne =>
        cases h
        exact ⟨rfl, hne, rfl⟩
    | count =>
      simp only [ho] at h
      split at h
      · next htrue =>
        cases h
        exact ⟨rfl, htrue⟩
      · split at h
        · next hfalse =>
          cases h
          exact ⟨rfl, hfalse⟩
        · cases h
  · rintro ⟨ho, h⟩
    simp only [← ho]
    cases v with
    | select | expand | filter | orderBy | apply => exact map_eq_ok.2 ⟨_, h, rfl⟩
    | top n | skip n =>
      have hn : Numeral.unsigned? a.value.text = some n := h
      simp only [OptionValue.option, hn]
    | search term =>
      have hterm : Quoted.term a.value.text = some term.toList := h
      simp only [OptionValue.option, hterm, String.ofList_toList]
    | format raw | callback raw =>
      obtain ⟨hne, hraw⟩ := h
      simp only [OptionValue.option, if_neg hne, hraw]
    | count wanted =>
      have hword : a.value.toString = if wanted then "true" else "false" := h
      cases wanted with
      | true => simp only [OptionValue.option, hword, if_true]
      | false =>
        have hne : ¬ "false" = "true" := by decide
        simp only [OptionValue.option, hword, Bool.false_eq_true, if_false, if_neg hne, if_true]

end Values

/-! ## Lists -/

section Lists
variable {value : Assignment → Except Stop OptionValue} {seen : List (QueryOption × Span)}
  {q : Query} {item : Slice} {items : List Slice} {a : Assignment}

theorem assignAll_of_error {f : Failure} (h : assignment? item = .error f) :
    assignAll value seen q (item :: items) = .error (.refused f) := by
  rw [assignAll, h]

/-- A blank item is passed over. -/
theorem assignAll_of_none (h : assignment? item = .ok none) :
    assignAll value seen q (item :: items) = assignAll value seen q items := by
  rw [assignAll, h]

/-- An option that was seen is refused, whatever its value is. -/
theorem assignAll_of_seen {first : Span} (h : assignment? item = .ok (some a))
    (hs : seen.lookup a.option = some first) :
    assignAll value seen q (item :: items) =
      .error (.refused ⟨.repeatedOption a.option first, a.name⟩) := by
  rw [assignAll, h]
  simp only [hs]

/-- An option that was not seen has its value read, and then it is seen. -/
theorem assignAll_of_unseen (h : assignment? item = .ok (some a))
    (hs : seen.lookup a.option = none) :
    assignAll value seen q (item :: items) =
      value a >>= fun v => assignAll value ((a.option, a.name) :: seen) (q.assign v) items := by
  rw [assignAll, h]
  simp only [hs]

end Lists

/-! ## Lists in brackets -/

/-- Reads an option list in brackets, if there is room for one more. -/
def nestedList (settings : Settings) : Nat → Slice → Except Stop Query
  | 0 => tooDeep settings
  | room + 1 => optionList settings room ';'

theorem optionList_eq (settings : Settings) (room : Nat) (sep : Char) (list : Slice) :
    optionList settings room sep list =
      listWith settings (settings.maxDepth - room) (nestedList settings room) sep list := by
  cases room <;> rfl

end OData.Options

namespace OData
open Grammar Options

/-! ## Queries -/

/-- What is in a list that need not be there is in one that is there. -/
theorem exists_of_mem_getD {α : Type} {l? : Option (List α)} {a : α} (h : a ∈ l?.getD []) :
    ∃ l, l? = some l ∧ a ∈ l := by
  cases l? with
  | none => exact absurd h List.not_mem_nil
  | some l => exact ⟨l, rfl, h⟩

namespace Query

/-- Reads the resource path of a query, which is not there if it is blank. -/
def readPath (settings : Settings) (path : Slice) : Except Stop (Option (List PathSegment)) :=
  if path.trim.text = [] then .ok none
  else some <$> run (resourcePath ⟨settings, none⟩) 0 path

/-- Reads the options of a query, which need not be there. -/
def readOptions (settings : Settings) (options : Option Slice) : Except Stop Query :=
  match options with
  | some options => optionList settings settings.maxDepth '&' options
  | none => .ok Query.empty

/-- A query is read as its path and then its options. -/
theorem read_eq (settings : Settings) (text : String) :
    read settings text =
      readPath settings (Halves.ofSlice (Slice.ofString text 0)).path >>= fun path =>
        readOptions settings (Halves.ofSlice (Slice.ofString text 0)).options >>= fun query =>
          .ok { query with path := path } := by
  unfold read readPath readOptions
  generalize Halves.ofSlice (Slice.ofString text 0) = halves
  obtain ⟨path, options⟩ := halves
  by_cases hp : path.trim.text = []
  · simp only [hp, if_true]
    cases options <;> rfl
  · simp only [hp, if_false]
    cases options <;> rfl

end Query

theorem parse_eq_query {settings : Settings} {text : String} {q : Query} :
    parse settings text = .query q ↔ Query.read settings text = .ok q := by
  unfold parse
  cases h : Query.read settings text with
  | ok q' => simp
  | error e =>
    cases e with
    | refused f =>
      simp only [Verdict.ofRefusal]
      cases f.refusal <;> simp
    | _ => simp

end OData
