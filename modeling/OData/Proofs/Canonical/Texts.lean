import OData.Proofs.Canonical.Stages
import OData.Proofs.Query.Values
import OData.Proofs.Text.Joined

/-!
# The canonical text of a query

Each option that is there is written as its name, an equals sign and the text of its
value, in the order of the options, with separators between them: ampersands at the
top and semicolons inside the parentheses of an expand item.  An expand item without
options has no parentheses.  In front of it all stands the resource path, if there is
one, with a slash before and a question mark after it.
-/
namespace OData
open Text

/-! ## Options -/

/-- The text of the value of an option, where the text of expand items is `expanded`. -/
def OptionValue.textWith (expanded : List Char) : OptionValue → List Char
  | .select items => render (listed .comma selectKinds items)
  | .expand _ => expanded
  | .filter e => render (e.kinds false .disjunction)
  | .orderBy items => render (listed .comma OrderByItem.kinds items)
  | .callback text | .format text => text.toList
  | .search term => Quoted.written term.toList
  | .count wanted => if wanted then "true".toList else "false".toList
  | .skip n | .top n => Nat.toDigits 10 n
  | .apply stages => render (pipelineKinds stages)

/-- **An option as it is written**, with the text of its value. -/
def QueryOption.written (option : QueryOption) (value : List Char) : List Char :=
  option.word.toList ++ '=' :: value

/-- The text of an expand item: its path, and its options in parentheses if it has any. -/
def itemText (path : String) (options : List Char) : List Char :=
  render (expandPathKinds path) ++ if options = [] then [] else '(' :: (options ++ [')'])

mutual

/-- **The options of a query as they are written**, in the order of the options. -/
def Query.written : Query → List (List Char)
  | ⟨path, select, expand, filter, orderBy, callback, format, search, count, skip, top, apply⟩ =>
    let q : Query :=
      ⟨path, select, expand, filter, orderBy, callback, format, search, count, skip, top, apply⟩
    let expanded :=
      match expand with
      | none => []
      | some items => joined ',' (ExpandItem.texts items)
    q.values.map fun v => v.option.written (v.textWith expanded)

/-- Expand items as they are written. -/
def ExpandItem.texts : List ExpandItem → List (List Char)
  | [] => []
  | ⟨path, options⟩ :: items => itemText path (joined ';' options.written) :: ExpandItem.texts items

end

/-- **The text of the value of an option.** -/
def OptionValue.text (v : OptionValue) : List Char :=
  v.textWith
    (match v with
    | .expand items => joined ',' (ExpandItem.texts items)
    | _ => [])

/-- The text of an option with its value. -/
def OptionValue.written (v : OptionValue) : List Char := v.option.written v.text

/-- **The text of an expand item.** -/
def ExpandItem.text (item : ExpandItem) : List Char :=
  itemText item.path (joined ';' item.options.written)

/-- The text of the options of a query. -/
def Query.optionsText (sep : Char) (q : Query) : List Char := joined sep q.written

/-- The canonical text of a query. -/
def Query.canonical (q : Query) : String :=
  String.ofList <|
    match q.path with
    | none => q.optionsText '&'
    | some segments => render (pathKinds segments) ++ '?' :: q.optionsText '&'

/-- The raw texts of a query are closed: in the formats and callbacks, at every level, all
quotes and parentheses close, and nothing closes that was not open. -/
inductive Query.ClosedTexts : Query → Prop
  | mk {q : Query} :
      (∀ text, q.callback = some text → IsClosed text.toList) →
      (∀ text, q.format = some text → IsClosed text.toList) →
      (∀ items, q.expand = some items → ∀ i ∈ items, ClosedTexts i.options) →
      ClosedTexts q

theorem ExpandItem.texts_eq (items : List ExpandItem) :
    ExpandItem.texts items = items.map ExpandItem.text := by
  induction items with
  | nil => rfl
  | cons item items ih =>
    obtain ⟨path, options⟩ := item
    rw [ExpandItem.texts, ih]
    rfl

/-- The options of a query are written one by one. -/
theorem Query.written_eq (q : Query) : q.written = q.values.map OptionValue.written := by
  have hcongr : ∀ v ∈ q.values, v.textWith
      (match q.expand with
      | none => []
      | some items => joined ',' (ExpandItem.texts items)) = v.text := by
    intro v hv
    rw [mem_values] at hv
    cases v with
    | expand items =>
      obtain ⟨_, he, ⟨⟩⟩ := Option.map_eq_some_iff.1 hv
      rw [he]
      rfl
    | _ => rfl
  have hunfold : q.written = q.values.map fun v => v.option.written (v.textWith
      (match q.expand with
      | none => []
      | some items => joined ',' (ExpandItem.texts items))) := by
    rw [Query.written.eq_def]
    cases q
    rfl
  rw [hunfold]
  exact List.map_congr_left fun v hv => congrArg v.option.written (hcongr v hv)

example : Query.canonical
    { path := some [⟨"A", some [.positional (.integer 1)]⟩]
      expand := some [⟨"B", { top := some 3 }⟩]
      filter := some (.comparison .eq (.property ⟨"E", none⟩) (.literal (.null (some "x")))) } =
    "/A(1)?$expand=B($top=3)&$filter=E eq null'x'" := by
  cbv

end OData
