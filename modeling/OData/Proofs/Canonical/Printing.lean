import OData.Proofs.Canonical.Rendering
import OData.Proofs.Grammar.Listing
import OData.Proofs.Text.Joined
import OData.Proofs.WellFormed.Trees

/-!
# Printing names, literals and lists

The canonical text of a tree is given by kinds of tokens first.  `Prints D ks a` says
that the kinds `ks` are a way to print `a`, where `D` is the rule that reads it: they
are spelled, their parentheses are balanced, and tokens of these kinds are derived,
wherever they stand.

This module has the printed forms of names, literals and flat lists, and of lists with
a separator over whatever can be printed.
-/
namespace OData
open Grammar Text

/-! ## Printed forms -/

/-- **The kinds are a way to print a value**, which is read by a rule. -/
structure Prints {α : Type} (D : List Token → α → Prop) (ks : List Kind) (a : α) : Prop where
  spelled : ∀ k ∈ ks, k.Spelled ∧ k ≠ .semicolon
  balanced : Balanced ks
  derived : ∀ w, w.map Token.kind = ks → Tight w → D w a

section Split
variable {w : List Token} {k : Kind} {ks ks' : List Kind}

theorem eq_nil_of_kinds (h : w.map Token.kind = []) : w = [] := List.map_eq_nil_iff.1 h

theorem exists_cons_of_kinds (h : w.map Token.kind = k :: ks) (ht : Tight w) :
    ∃ p v, w = ⟨k, p⟩ :: v ∧ v.map Token.kind = ks ∧ Tight v := by
  obtain ⟨⟨_, p⟩, v, rfl, rfl, hv⟩ := List.map_eq_cons_iff.1 h
  exact ⟨p, v, rfl, hv, ht.tail⟩

theorem exists_append_of_kinds (h : w.map Token.kind = ks ++ ks') (ht : Tight w) :
    ∃ u v, w = u ++ v ∧ u.map Token.kind = ks ∧ v.map Token.kind = ks' ∧ Tight u ∧ Tight v := by
  obtain ⟨u, v, rfl, hu, hv⟩ := List.map_eq_append_iff.1 h
  exact ⟨u, v, rfl, hu, hv, ht.append⟩

theorem exists_singleton_of_kinds (h : w.map Token.kind = [k]) : ∃ p, w = [⟨k, p⟩] := by
  obtain ⟨⟨_, p⟩, v, rfl, rfl, hv⟩ := List.map_eq_cons_iff.1 h
  obtain rfl := eq_nil_of_kinds hv
  exact ⟨p, rfl⟩

end Split

/-- A kind that can be printed anywhere: no parenthesis, and no semicolon, which would
end an option. -/
structure Kind.IsLone (k : Kind) : Prop where
  spelled : k.Spelled
  ne_semicolon : k ≠ .semicolon
  ne_left : k ≠ .leftParen
  ne_right : k ≠ .rightParen

theorem Kind.isLone_dot : Kind.dot.IsLone := ⟨trivial, nofun, nofun, nofun⟩

theorem Kind.isLone_comma : Kind.comma.IsLone := ⟨trivial, nofun, nofun, nofun⟩

theorem Kind.isLone_slash : Kind.slash.IsLone := ⟨trivial, nofun, nofun, nofun⟩

theorem Kind.isLone_colon : Kind.colon.IsLone := ⟨trivial, nofun, nofun, nofun⟩

theorem Kind.isLone_equals : Kind.equals.IsLone := ⟨trivial, nofun, nofun, nofun⟩

theorem Kind.isLone_star : Kind.star.IsLone := ⟨trivial, nofun, nofun, nofun⟩

/-- The token of a literal is no parenthesis and no semicolon. -/
theorem Kind.isLone_of_isLiteral {k : Kind} (h : k.isLiteral = true) (hk : k.Spelled) :
    k.IsLone := by
  refine ⟨hk, ?_, ?_, ?_⟩ <;> (rintro rfl; cases h)

namespace Prints
variable {α β : Type} {D : List Token → α → Prop} {E : List Token → β → Prop}
variable {ks ks' : List Kind} {k : Kind} {a : α} {b : β}

/-- What is read by one rule as one thing may be read by another as another. -/
theorem map (h : Prints D ks a) (hE : ∀ w, D w a → E w b) : Prints E ks b :=
  ⟨h.spelled, h.balanced, fun w hw ht => hE w (h.derived w hw ht)⟩

theorem nil (h : D [] a) : Prints D [] a := by
  refine ⟨by simp, .nil, fun w hw _ => ?_⟩
  obtain rfl := eq_nil_of_kinds hw
  exact h

theorem single (hk : k.IsLone) (h : ∀ p, D [⟨k, p⟩] a) : Prints D [k] a := by
  refine ⟨by simpa using ⟨hk.spelled, hk.ne_semicolon⟩, .single hk.ne_left hk.ne_right,
    fun w hw _ => ?_⟩
  obtain ⟨p, rfl⟩ := exists_singleton_of_kinds hw
  exact h p

/-- **One token more in front.** -/
theorem cons (hk : k.IsLone) (h : Prints D ks a) :
    Prints (fun w a => ∃ p v, w = ⟨k, p⟩ :: v ∧ D v a) (k :: ks) a := by
  refine ⟨List.forall_mem_cons.2 ⟨⟨hk.spelled, hk.ne_semicolon⟩, h.spelled⟩,
    h.balanced.cons hk.ne_left hk.ne_right, fun w hw ht => ?_⟩
  obtain ⟨p, v, rfl, hv, ht⟩ := exists_cons_of_kinds hw ht
  exact ⟨p, v, rfl, h.derived v hv ht⟩

/-- **Two things, one after the other.** -/
theorem append (h : Prints D ks a) (h' : Prints E ks' b) :
    Prints (fun w (x : α × β) => ∃ u v, w = u ++ v ∧ D u x.1 ∧ E v x.2) (ks ++ ks') (a, b) := by
  refine ⟨List.forall_mem_append.2 ⟨h.spelled, h'.spelled⟩, h.balanced.append h'.balanced,
    fun w hw ht => ?_⟩
  obtain ⟨u, v, rfl, hu, hv, htu, htv⟩ := exists_append_of_kinds hw ht
  exact ⟨u, v, rfl, h.derived u hu htu, h'.derived v hv htv⟩

/-- **The same in parentheses.** -/
theorem enclosed (h : Prints D ks a) :
    Prints (fun w a => ∃ p v q, w = ⟨.leftParen, p⟩ :: (v ++ [⟨.rightParen, q⟩]) ∧ D v a)
      (.leftParen :: (ks ++ [.rightParen])) a := by
  refine ⟨?_, h.balanced.group, fun w hw ht => ?_⟩
  · refine List.forall_mem_cons.2 ⟨⟨trivial, nofun⟩, List.forall_mem_append.2 ⟨h.spelled, ?_⟩⟩
    simp [Kind.Spelled]
  · obtain ⟨p, w, rfl, hw, ht⟩ := exists_cons_of_kinds hw ht
    obtain ⟨v, u, rfl, hv, hu, htv, -⟩ := exists_append_of_kinds hw ht
    obtain ⟨q, rfl⟩ := exists_singleton_of_kinds hu
    exact ⟨p, v, q, rfl, h.derived v hv htv⟩

end Prints

/-- The text of a name begins a word and continues it. -/
def isNameText : List Char → Bool
  | [] => false
  | c :: r => isWordStart c && r.all isWordPart

theorem isWord_of_isNameText {w : String} (h : isNameText w.toList = true) : IsWord w := by
  refine .inl ?_
  cases hs : w.toList with
  | nil => rw [hs] at h; cases h
  | cons c r =>
    rw [hs, isNameText, Bool.and_eq_true] at h
    exact ⟨c, r, rfl, h.1, List.all_eq_true.1 h.2⟩

theorem IsWord.isLone {w : String} (h : IsWord w) : (Kind.word w).IsLone :=
  ⟨h, nofun, nofun, nofun⟩

theorem isLone_of_isNameText {w : String} (h : isNameText w.toList = true) :
    (Kind.word w).IsLone :=
  (isWord_of_isNameText h).isLone

/-- A word has word characters only, but for a dollar sign. -/
theorem IsWord.notMem {w : String} (h : IsWord w) {c : Char} (hc : isWordPart c = false)
    (hd : c ≠ '$') : c ∉ w.toList := by
  have hname : ∀ {s : List Char}, IsNameText s → c ∉ s := by
    rintro _ ⟨d, r, rfl, hd, hr⟩ hmem
    rcases List.mem_cons.1 hmem with rfl | hmem
    · simp [isWordPart, hd] at hc
    · rw [hr c hmem] at hc
      cases hc
  rcases h with h | ⟨s, hs, h⟩
  · exact hname h
  · rw [hs, List.mem_cons, not_or]
    exact ⟨hd, hname h⟩

/-! ## Lists -/

/-- **A list in print**: its items with a separator between each two. -/
def listed {α : Type} (sep : Kind) (f : α → List Kind) : List α → List Kind
  | [] => []
  | a :: as => f a ++ as.flatMap fun b => sep :: f b

/-- A mark that separates. -/
def IsMark (k : Kind) : Prop := k = .comma ∨ k = .slash ∨ k = .dot

section Lists
variable {α : Type} {D : List Token → α → Prop} {sep : Kind} {f : α → List Kind}

theorem IsMark.isLone (h : IsMark sep) : sep.IsLone := by
  rcases h with rfl | rfl | rfl
  · exact Kind.isLone_comma
  · exact Kind.isLone_slash
  · exact Kind.isLone_dot

theorem Prints.followed (hsep : IsMark sep) {as : List α} (h : ∀ a ∈ as, Prints D (f a) a) :
    Prints (Followed sep D) (as.flatMap fun a => sep :: f a) as := by
  induction as with
  | nil => exact .nil .nil
  | cons a as ih =>
    obtain ⟨ha, has⟩ := List.forall_mem_cons.1 h
    refine ((ha.append (ih has)).cons hsep.isLone).map ?_
    rintro _ ⟨p, _, rfl, u, v, rfl, hu, hv⟩
    exact .cons p hu hv

theorem Prints.separated (hsep : IsMark sep) {as : List α} (hne : as ≠ [])
    (h : ∀ a ∈ as, Prints D (f a) a) : Prints (Separated sep D) (listed sep f as) as := by
  cases as with
  | nil => exact absurd rfl hne
  | cons a as =>
    obtain ⟨ha, has⟩ := List.forall_mem_cons.1 h
    refine (ha.append (Prints.followed hsep has)).map ?_
    rintro _ ⟨u, v, rfl, hu, hv⟩
    exact .mk hu hv

end Lists

/-! ## Names -/

/-- The parts of a text between the places where a character stands. -/
def partsOf (c : Char) (text : String) : List String :=
  (text.toList.splitOn c).map String.ofList

theorem partsOf_intercalate {c : Char} {names : List String} (hne : names ≠ [])
    (h : ∀ n ∈ names, c ∉ n.toList) :
    partsOf c ((String.singleton c).intercalate names) = names := by
  have hsplit : ([c].intercalate (names.map String.toList)).splitOn c =
      names.map String.toList :=
    List.splitOn_intercalate c (by simpa using h) (by simpa using hne)
  rw [partsOf, String.toList_intercalate, String.toList_singleton, hsplit, List.map_map]
  simp [Function.comp_def]

/-- The kinds of a path. -/
def nameKinds (path : String) : List Kind := listed .slash (fun n => [.word n]) (partsOf '/' path)

/-- The kinds of a part of a selected item. -/
def partKinds (part : String) : List Kind :=
  listed .dot (fun n => [if n = "*" then .star else .word n]) (partsOf '.' part)

/-- The kinds of a selected item. -/
def selectKinds (item : String) : List Kind := listed .slash partKinds (partsOf '/' item)

/-- The kinds of the path of an expand item. -/
def expandPathKinds (path : String) : List Kind := if path = "*" then [.star] else nameKinds path

/-- The kinds of a path to sort by. -/
def OrderByItem.kinds (item : OrderByItem) : List Kind :=
  nameKinds item.path ++ [.word item.direction.word]

section Names

theorem prints_segment {name : String} (h : IsWord name) (hop : isOperatorWord name = false) :
    Prints IsSegment [.word name] name :=
  .single h.isLone fun p => .mk p hop

theorem partsOf_path {names : List String} (h : AreSegments names) :
    partsOf '/' ("/".intercalate names) = names :=
  partsOf_intercalate h.1 fun n hn => (h.2 n hn).1.notMem (by decide) (by decide)

theorem prints_path {names : List String} (h : AreSegments names) :
    Prints IsPath (nameKinds ("/".intercalate names)) names := by
  rw [nameKinds, partsOf_path h]
  exact Prints.separated (.inr (.inl rfl)) h.1 fun n hn => prints_segment (h.2 n hn).1 (h.2 n hn).2

theorem prints_memberPath {path : String} (h : IsPathName path) :
    Prints DerivesPath (nameKinds path) path := by
  obtain ⟨names, hs, rfl⟩ := h
  exact (prints_path hs).map fun w hw => ⟨names, hw, rfl⟩

theorem prints_expandPath {path : String} (h : IsExpandName path) :
    Prints IsExpandPath (expandPathKinds path) path := by
  unfold expandPathKinds
  split
  · next hstar =>
    subst hstar
    exact .single Kind.isLone_star .star
  · next hstar => exact (prints_memberPath (h.resolve_left hstar)).map fun w => .path

theorem prints_orderByItem {item : OrderByItem} (h : IsPathName item.path) :
    Prints IsOrderByItem item.kinds item := by
  have hword : isNameText item.direction.word.toList = true := by cases item.direction <;> decide
  have hdir : Prints IsDirection [.word item.direction.word] item.direction :=
    .single (isLone_of_isNameText hword) (.some item.direction)
  refine ((prints_memberPath h).append hdir).map ?_
  rintro _ ⟨u, v, rfl, hu, hv⟩
  exact .mk hu hv

/-! ### Selected items -/

theorem isWord_ne_star {w : String} (h : IsWord w) : w ≠ "*" := by
  rintro rfl
  rcases h with ⟨c, r, hs, hc, -⟩ | ⟨s, hs, -⟩
  · obtain ⟨rfl, -⟩ : '*' = c ∧ [] = r := by simpa using hs
    exact absurd hc (by decide)
  · simp at hs

/-- The words of a part after its first, and the star that may end it. -/
theorem prints_dottedTail {words star : List String} (hw : ∀ n ∈ words, IsWord n)
    (hs : star = [] ∨ star = ["*"]) :
    Prints IsDottedTail
      ((words ++ star).flatMap fun n => .dot :: [if n = "*" then .star else .word n])
      (words ++ star) := by
  induction words with
  | nil =>
    rcases hs with rfl | rfl
    · exact .nil .nil
    · have hstar : Prints (fun w (_ : List String) => ∃ p, w = [⟨.star, p⟩]) [.star] ["*"] :=
        .single Kind.isLone_star fun p => ⟨p, rfl⟩
      refine (hstar.cons Kind.isLone_dot).map ?_
      rintro _ ⟨p, _, rfl, q, rfl⟩
      exact .star p q
  | cons n words ih =>
    obtain ⟨hn, hw⟩ := List.forall_mem_cons.1 hw
    simp only [List.cons_append, List.flatMap_cons, if_neg (isWord_ne_star hn), List.nil_append]
    refine (((ih hw).cons hn.isLone).cons Kind.isLone_dot).map ?_
    rintro _ ⟨p, _, rfl, q, w, rfl, hD⟩
    exact .cons p q n hD

theorem prints_selectPart {part : String} (h : IsPartName part) :
    Prints IsSelectPart (partKinds part) part := by
  obtain ⟨words, star, hw, hs, hne, rfl⟩ := h
  have hdot : ∀ n ∈ words ++ star, '.' ∉ n.toList := by
    intro n hn
    rcases List.mem_append.1 hn with hn | hn
    · exact (hw n hn).notMem (by decide) (by decide)
    · rcases hs with rfl | rfl
      · cases hn
      · rw [List.mem_singleton.1 hn]
        decide
  have hparts : partsOf '.' (".".intercalate (words ++ star)) = words ++ star :=
    partsOf_intercalate hne hdot
  rw [partKinds, hparts]
  cases words with
  | nil =>
    obtain rfl := hs.resolve_left (by rintro rfl; exact hne rfl)
    exact .single Kind.isLone_star .star
  | cons n words =>
    obtain ⟨hn, hw⟩ := List.forall_mem_cons.1 hw
    simp only [List.cons_append, listed, if_neg (isWord_ne_star hn), List.nil_append]
    refine ((prints_dottedTail hw hs).cons hn.isLone).map ?_
    rintro _ ⟨p, v, rfl, hv⟩
    exact .words p n hv

theorem slash_notMem_part {part : String} (h : IsPartName part) : '/' ∉ part.toList := by
  obtain ⟨words, star, hw, hs, -, rfl⟩ := h
  have hnames : ∀ n ∈ words ++ star, '/' ∉ n.toList := by
    intro n hn
    rcases List.mem_append.1 hn with hn | hn
    · exact (hw n hn).notMem (by decide) (by decide)
    · rcases hs with rfl | rfl
      · cases hn
      · rw [List.mem_singleton.1 hn]
        decide
  rw [toList_intercalate rfl]
  exact notMem_joined (by decide) (List.forall_mem_map.2 hnames)

theorem prints_selectItem {item : String} (h : IsSelectName item) :
    Prints IsSelectItem (selectKinds item) item := by
  obtain ⟨parts, hne, hparts, rfl⟩ := h
  have hsplit : partsOf '/' ("/".intercalate parts) = parts :=
    partsOf_intercalate hne fun p hp => slash_notMem_part (hparts p hp)
  rw [selectKinds, hsplit]
  exact (Prints.separated (.inr (.inl rfl)) hne fun p hp => prints_selectPart (hparts p hp)).map
    fun w hw => ⟨parts, hw, rfl⟩

end Names

/-! ## Literals -/

/-- **The kinds of a literal.** -/
def Literal.kinds : Literal → List Kind
  | .null none => [.word "null"]
  | .null (some hint) => [.word "null", .string hint]
  | .nonFinite .nan => [.word "NaN"]
  | .nonFinite .infinity => [.word "INF"]
  | .nonFinite .negativeInfinity => [.negativeInfinity]
  | .parameter name => [.parameter name]
  | .string text | .timeOfDay text | .date text | .dateTimeOffset text => [.string text]
  | .decimal text => [.decimal text]
  | .double text => [.double text]
  | .integer value => [.integer (String.ofList (Numeral.signed value))]
  | .boolean true => [.word "true"]
  | .boolean false => [.word "false"]

/-- The kinds of a unit of time that is asked for. -/
def unitKinds : Option TimeUnit → List Kind
  | none => []
  | some unit => [.dot, .word unit.word, .leftParen, .rightParen]

/-- The kinds of a type. -/
def EdmType.kinds (type : EdmType) : List Kind :=
  listed .dot (fun n => [.word n]) (partsOf '.' type.word)

section Literals
variable {settings : Settings}

theorem prints_word {α : Type} {D : List Token → α → Prop} {word : String} {a : α}
    (h : isNameText word.toList = true) (hD : ∀ p, D [⟨.word word, p⟩] a) :
    Prints D [.word word] a :=
  .single (isLone_of_isNameText h) hD

theorem prints_quoted {text : String} {l : Literal} (h : Literal.ofQuoted text = l) :
    Prints (IsLiteral settings) [.string text] l :=
  .single (Kind.isLone_of_isLiteral rfl trivial) fun p => h ▸ .string text p

/-- A literal is printed. -/
theorem prints_literal {l : Literal} (h : l.WellFormed settings) :
    Prints (IsLiteral settings) l.kinds l := by
  cases l with
  | null hint =>
    cases hint with
    | none => exact prints_word (by decide) .null
    | some hint =>
      -- That the two are adjacent is known of the whole text only.
      have hnull : (Kind.word "null").IsLone := isLone_of_isNameText (by decide)
      have hhint : (Kind.string hint).IsLone := Kind.isLone_of_isLiteral rfl trivial
      have hbalanced : Balanced [.string hint] := .single hhint.ne_left hhint.ne_right
      refine ⟨List.forall_mem_cons.2 ⟨⟨hnull.spelled, hnull.ne_semicolon⟩,
          by simp [Kind.Spelled]⟩,
        hbalanced.cons hnull.ne_left hnull.ne_right, fun w hw ht => ?_⟩
      obtain ⟨p, w, rfl, hw, -⟩ := exists_cons_of_kinds hw ht
      obtain ⟨q, rfl⟩ := exists_singleton_of_kinds hw
      exact .typedNull hint ((List.isChain_cons_cons.1 ht).1 rfl rfl)
  | nonFinite value =>
    cases value with
    | nan => exact prints_word (by decide) .nan
    | infinity => exact prints_word (by decide) .infinity
    | negativeInfinity =>
      exact .single (Kind.isLone_of_isLiteral rfl trivial) .negativeInfinity
  | parameter name =>
    exact .single (Kind.isLone_of_isLiteral rfl h.1) fun p => .parameter p h.2
  | string text | timeOfDay text | date text | dateTimeOffset text => exact prints_quoted h
  | decimal text => exact .single (Kind.isLone_of_isLiteral rfl h) (.decimal text)
  | double text => exact .single (Kind.isLone_of_isLiteral rfl h) (.double text)
  | integer value =>
    refine .single (Kind.isLone_of_isLiteral rfl ?_) fun p => .integer p ?_
    · simpa [Kind.Spelled] using Numeral.isNumber_signed value
    · rw [String.toList_ofList]
      exact Numeral.signed?_signed h.1 h.2
  | boolean value =>
    cases value with
    | true => exact prints_word (by decide) .yes
    | false => exact prints_word (by decide) .no

theorem prints_unit (unit : Option TimeUnit) : Prints IsUnit (unitKinds unit) unit := by
  cases unit with
  | none => exact .nil .none
  | some unit =>
    have hword : isNameText unit.word.toList = true := by cases unit <;> decide
    have hnil : Prints (fun w (_ : Option TimeUnit) => w = []) [] (some unit) := .nil rfl
    refine ((hnil.enclosed.cons (isLone_of_isNameText hword)).cons
      Kind.isLone_dot).map ?_
    rintro _ ⟨p, _, rfl, q, _, rfl, r, _, s, rfl, rfl⟩
    exact .some unit p q r s

theorem prints_type (type : EdmType) : Prints IsType type.kinds type := by
  have hne : partsOf '.' type.word ≠ [] := by cases type <;> decide
  have hwords : (partsOf '.' type.word).all (fun n => isNameText n.toList) = true := by
    cases type <;> decide
  have hname : ".".intercalate (partsOf '.' type.word) = type.word := by cases type <;> decide
  have hnames : ∀ n ∈ partsOf '.' type.word, Prints IsName [.word n] n := fun n hn =>
    prints_word (List.all_eq_true.1 hwords n hn) (.mk n)
  exact (Prints.separated (.inr (.inr rfl)) hne hnames).map fun w hw => .mk hw hname

end Literals

/-! ## Resource paths -/

/-- The kinds of a key predicate. -/
def KeyPredicate.kinds : KeyPredicate → List Kind
  | .positional value => value.kinds
  | .named name value => .word name :: .equals :: value.kinds

/-- **The kinds of a segment** of a resource path. -/
def PathSegment.kinds (segment : PathSegment) : List Kind :=
  .word segment.name ::
    match segment.predicates with
    | none => []
    | some predicates =>
      .leftParen :: (listed .comma KeyPredicate.kinds predicates ++ [.rightParen])

/-- The kinds of a resource path, with a slash in front. -/
def pathKinds (segments : List PathSegment) : List Kind :=
  .slash :: listed .slash PathSegment.kinds segments

section Paths
variable {settings : Settings}

theorem prints_keyPredicate {p : KeyPredicate} (h : p.WellFormed settings) :
    Prints (IsKeyPredicate settings) p.kinds p := by
  cases p with
  | positional value =>
    have hvalue : value.WellFormed settings := h
    exact (prints_literal hvalue).map fun w => .positional
  | named name value =>
    refine (((prints_literal h.2).cons Kind.isLone_equals).cons h.1.isLone).map ?_
    rintro _ ⟨p, _, rfl, q, w, rfl, hw⟩
    exact .named name p q hw

theorem prints_resourceSegment {s : PathSegment} (h : s.WellFormed settings) :
    Prints (IsResourceSegment settings) s.kinds s := by
  obtain ⟨name, predicates⟩ := s
  obtain ⟨hname, hkeys⟩ := h
  cases predicates with
  | none => exact .single hname.isLone (.plain name)
  | some predicates =>
    by_cases hne : predicates = []
    · subst hne
      have hnil : Prints (fun w (_ : List KeyPredicate) => w = []) [] [] := .nil rfl
      refine (hnil.enclosed.cons hname.isLone).map ?_
      rintro _ ⟨p, _, rfl, q, _, r, rfl, rfl⟩
      exact .empty name p q r
    · have hlist := Prints.separated (.inl rfl) hne fun p hp =>
        prints_keyPredicate (hkeys predicates rfl p hp)
      refine (hlist.enclosed.cons hname.isLone).map ?_
      rintro _ ⟨p, _, rfl, q, v, r, rfl, hv⟩
      exact .keyed name p q r hv

/-- A resource path is printed. -/
theorem prints_resourcePath {segments : List PathSegment} (hne : segments ≠ [])
    (h : ∀ s ∈ segments, s.WellFormed settings) :
    Prints (IsResourcePath settings) (pathKinds segments) segments := by
  have hlist := Prints.separated (.inr (.inl rfl)) hne fun s hs => prints_resourceSegment (h s hs)
  refine (hlist.cons Kind.isLone_slash).map ?_
  rintro _ ⟨p, w, rfl, hw⟩
  exact .rooted p hw

end Paths

end OData
