import OData.Grammar.Listing
import OData.Grammar.ResourcePath
import OData.Proofs.Grammar.Completeness
import OData.Proofs.Grammar.Soundness

/-!
# The flat grammars

Selections, orders, paths to expand and resource paths, each said without a parser,
and that just these are read.  Nothing nests here, so no limit matters: every rule
is an instance of the one for lists with a separator.
-/
namespace OData.Grammar

/-! ## Derivations -/

/-- **The words after the first of a selected part**, each after a dot; a star may end them. -/
inductive IsDottedTail : List Token → List String → Prop
  | nil : IsDottedTail [] []
  | star (p q : Span) : IsDottedTail [⟨.dot, p⟩, ⟨.star, q⟩] ["*"]
  | cons {w : List Token} {names : List String} (p q : Span) (name : String) :
      IsDottedTail w names → IsDottedTail (⟨.dot, p⟩ :: ⟨.word name, q⟩ :: w) (name :: names)

/-- **A part of a selected item.** -/
inductive IsSelectPart : List Token → String → Prop
  | star (p : Span) : IsSelectPart [⟨.star, p⟩] "*"
  | words {w : List Token} {names : List String} (p : Span) (name : String) :
      IsDottedTail w names →
      IsSelectPart (⟨.word name, p⟩ :: w) (".".intercalate (name :: names))

/-- A selected item, parts with a slash between each two. -/
def IsSelectItem (w : List Token) (item : String) : Prop :=
  ∃ parts, Separated .slash IsSelectPart w parts ∧ item = "/".intercalate parts

/-- The direction of a sort, ascending if none is written. -/
inductive IsDirection : List Token → SortDirection → Prop
  | none : IsDirection [] .ascending
  | some (direction : SortDirection) (p : Span) :
      IsDirection [⟨.word direction.word, p⟩] direction

/-- A path to sort by, and the direction. -/
inductive IsOrderByItem : List Token → OrderByItem → Prop
  | mk {v w : List Token} {path : String} {direction : SortDirection} :
      DerivesPath v path → IsDirection w direction → IsOrderByItem (v ++ w) ⟨path, direction⟩

/-- **The path of an expand item**: a star or a path. -/
inductive IsExpandPath : List Token → String → Prop
  | star (p : Span) : IsExpandPath [⟨.star, p⟩] "*"
  | path {w : List Token} {path : String} : DerivesPath w path → IsExpandPath w path

/-- A key predicate: a literal, possibly after the name of its key. -/
inductive IsKeyPredicate (settings : Settings) : List Token → KeyPredicate → Prop
  | positional {w : List Token} {l : Literal} :
      IsLiteral settings w l → IsKeyPredicate settings w (.positional l)
  | named {w : List Token} {l : Literal} (name : String) (p q : Span) :
      IsLiteral settings w l →
      IsKeyPredicate settings (⟨.word name, p⟩ :: ⟨.equals, q⟩ :: w) (.named name l)

/-- A segment of a resource path. -/
inductive IsResourceSegment (settings : Settings) : List Token → PathSegment → Prop
  | plain (name : String) (p : Span) :
      IsResourceSegment settings [⟨.word name, p⟩] ⟨name, none⟩
  | empty (name : String) (p q r : Span) :
      IsResourceSegment settings [⟨.word name, p⟩, ⟨.leftParen, q⟩, ⟨.rightParen, r⟩]
        ⟨name, some []⟩
  | keyed {w : List Token} {predicates : List KeyPredicate} (name : String) (p q r : Span) :
      Separated .comma (IsKeyPredicate settings) w predicates →
      IsResourceSegment settings
        (⟨.word name, p⟩ :: ⟨.leftParen, q⟩ :: (w ++ [⟨.rightParen, r⟩]))
        ⟨name, some predicates⟩

/-- A resource path: segments with a slash between each two, and possibly one in front. -/
inductive IsResourcePath (settings : Settings) : List Token → List PathSegment → Prop
  | plain {w : List Token} {segments : List PathSegment} :
      Separated .slash (IsResourceSegment settings) w segments →
      IsResourcePath settings w segments
  | rooted {w : List Token} {segments : List PathSegment} (p : Span) :
      Separated .slash (IsResourceSegment settings) w segments →
      IsResourcePath settings (⟨.slash, p⟩ :: w) segments

/-! ## What is read is derived -/

theorem sound_dottedTail (n : Nat) : Sound (dottedTail n) IsDottedTail := by
  induction n with
  | zero => intro s t names _ h; cases h
  | succ n ih =>
    intro s t names hs h
    rw [dottedTail, bind_eq_ok] at h
    obtain ⟨b, s₁, hb, h⟩ := h
    rcases of_consume hs (by simp) hb with ⟨rfl, p, hp⟩ | ⟨rfl, rfl, -⟩
    · simp only [if_true, bind_eq_ok] at h
      obtain ⟨b', s₂, hb', h⟩ := h
      rcases of_consume hp.ends (by simp) hb' with ⟨rfl, q, hq⟩ | ⟨rfl, rfl, -⟩
      · cases h
        exact ⟨_, hp.cons hq, .star p q⟩
      · simp only [Bool.false_eq_true, if_false, bind_eq_ok] at h
        obtain ⟨name, s₃, hn, names', s₄, ho, h⟩ := h
        cases h
        have hn := of_expectWord hp.ends hn
        obtain ⟨w, hw, hD⟩ := ih hn.ends ho
        exact ⟨_, hp.cons (hn.cons hw), .cons p _ _ hD⟩
    · cases h
      exact ⟨[], .refl hs, .nil⟩

theorem sound_selectPart : Sound selectPart IsSelectPart := by
  intro s t part hs h
  rw [selectPart, bind_eq_ok] at h
  obtain ⟨b, s₁, hb, h⟩ := h
  rcases of_consume hs (by simp) hb with ⟨rfl, p, hp⟩ | ⟨rfl, rfl, -⟩
  · cases h
    exact ⟨_, hp, .star p⟩
  · simp only [Bool.false_eq_true, if_false, bind_eq_ok, rounds_bind] at h
    obtain ⟨name, s₂, hn, names, s₃, ho, h⟩ := h
    cases h
    have hn := of_expectWord hs hn
    obtain ⟨w, hw, hD⟩ := sound_dottedTail _ hn.ends ho
    exact ⟨_, hn.cons hw, .words _ _ hD⟩

theorem sound_selectItem : Sound selectItem IsSelectItem := by
  intro s t item hs h
  rw [selectItem, bind_eq_ok] at h
  obtain ⟨parts, s₁, hp, h⟩ := h
  cases h
  obtain ⟨w, hw, hD⟩ := sound_separated (by simp) sound_selectPart hs hp
  exact ⟨w, hw, parts, hD, rfl⟩

theorem sound_orderByItem : Sound orderByItem IsOrderByItem := by
  intro s t item hs h
  simp only [orderByItem, sortDirection, bind_eq_ok] at h
  obtain ⟨path, s₁, hp, direction, s₂, ⟨b, s₃, hb, hd⟩, h⟩ := h
  cases h
  obtain ⟨v, hv, hP⟩ := sound_memberPath hs hp
  rcases of_consumeWord hv.ends hb with ⟨rfl, p, hp⟩ | ⟨rfl, rfl, -⟩
  · cases hd
    exact ⟨_, hv.trans hp, .mk hP (.some .descending p)⟩
  · simp only [Bool.false_eq_true, if_false, bind_eq_ok] at hd
    obtain ⟨b', s₄, hb', hd⟩ := hd
    cases hd
    rcases of_consumeWord hv.ends hb' with ⟨rfl, p, hp⟩ | ⟨rfl, rfl, -⟩
    · exact ⟨_, hv.trans hp, .mk hP (.some .ascending p)⟩
    · exact ⟨_, hv.trans (.refl hv.ends), .mk hP .none⟩

theorem sound_expandPath :
    Sound (do if ← consume .star then pure "*" else memberPath) IsExpandPath := by
  intro s t path hs h
  rw [bind_eq_ok] at h
  obtain ⟨b, s₁, hb, h⟩ := h
  rcases of_consume hs (by simp) hb with ⟨rfl, p, hp⟩ | ⟨rfl, rfl, -⟩
  · cases h
    exact ⟨_, hp, .star p⟩
  · simp only [Bool.false_eq_true, if_false] at h
    obtain ⟨w, hw, hD⟩ := sound_memberPath hs h
    exact ⟨w, hw, .path hD⟩

section Keys
variable (ctx : Context)

theorem sound_keyPredicate : Sound (keyPredicate ctx) (IsKeyPredicate ctx.settings) := by
  intro s t predicate hs h
  have hpositional : (do let value ← literal ctx; pure (KeyPredicate.positional value)) s =
      .ok predicate t → ∃ w, s.Takes w t ∧ IsKeyPredicate ctx.settings w predicate := by
    intro h
    rw [bind_eq_ok] at h
    obtain ⟨l, s₁, hl, h⟩ := h
    cases h
    obtain ⟨w, hw, hL⟩ := sound_literal ctx hs hl
    exact ⟨w, hw, .positional hL⟩
  rw [keyPredicate, cursor_bind] at h
  cases hk : s.cursor.current.kind with
  | word name =>
    simp only [hk] at h
    by_cases he : (s.cursor.ahead 1).kind = .equals
    · simp only [if_pos he, bind_eq_ok] at h
      obtain ⟨_, s₁, ha, _, s₂, hb, l, s₃, hl, h⟩ := h
      cases h
      obtain rfl := of_advance ha
      obtain rfl := of_advance hb
      have hn := State.Takes.advanced hs hk (by simp)
      have hq := State.Takes.advanced hn.ends (by rw [hn.current_eq, he]) (by simp)
      obtain ⟨w, hw, hL⟩ := sound_literal ctx hq.ends hl
      exact ⟨_, hn.cons (hq.cons hw), .named name _ _ hL⟩
    · rw [if_neg he] at h
      exact hpositional h
  | _ =>
    simp only [hk] at h
    exact hpositional h

theorem sound_resourceSegment :
    Sound (resourceSegment ctx) (IsResourceSegment ctx.settings) := by
  intro s t segment hs h
  simp only [resourceSegment, bind_eq_ok] at h
  obtain ⟨name, s₁, hn, b, s₂, hb, h⟩ := h
  have hn := of_expectWord hs hn
  rcases of_consume hn.ends (by simp) hb with ⟨rfl, q, hq⟩ | ⟨rfl, rfl, -⟩
  · simp only [if_true, keyPredicates, bind_eq_ok] at h
    obtain ⟨predicates, s₃, ⟨b', s₄, hb', hp⟩, h⟩ := h
    cases h
    rcases of_consume hq.ends (by simp) hb' with ⟨rfl, r, hr⟩ | ⟨rfl, rfl, -⟩
    · cases hp
      exact ⟨_, hn.cons (hq.cons hr), .empty name.value _ q r⟩
    · simp only [Bool.false_eq_true, if_false, bind_eq_ok] at hp
      obtain ⟨predicates', s₅, hp, r, s₆, hr, he⟩ := hp
      cases he
      obtain ⟨w, hw, hD⟩ := sound_separated (by simp) (sound_keyPredicate ctx) hq.ends hp
      have hr := of_expect hw.ends (by simp) hr
      exact ⟨_, hn.cons (hq.cons (hw.trans hr)), .keyed name.value _ q r hD⟩
  · cases h
    exact ⟨_, hn, .plain name.value _⟩

theorem sound_resourcePath :
    Sound (do let _ ← consume .slash; separated .slash (resourceSegment ctx))
      (IsResourcePath ctx.settings) := by
  intro s t segments hs h
  rw [bind_eq_ok] at h
  obtain ⟨b, s₁, hb, h⟩ := h
  rcases of_consume hs (by simp) hb with ⟨rfl, p, hp⟩ | ⟨rfl, rfl, -⟩
  · obtain ⟨w, hw, hD⟩ := sound_separated (by simp) (sound_resourceSegment ctx) hp.ends h
    exact ⟨_, hp.cons hw, .rooted p hD⟩
  · obtain ⟨w, hw, hD⟩ := sound_separated (by simp) (sound_resourceSegment ctx) hs h
    exact ⟨w, hw, .plain hD⟩

end Keys

/-! ## What is derived is read -/

section Completeness
variable {limits : Settings}

theorem IsDottedTail.length_le {w : List Token} {names : List String} (h : IsDottedTail w names) :
    names.length ≤ w.length := by
  induction h with
  | nil => exact Nat.le_refl _
  | star => simp
  | cons p q name _ ih =>
    simp only [List.length_cons]
    omega

theorem reads_dottedTail {w r : List Token} {x : Token} {names : List String} {m : Nat}
    (hx : x.kind ≠ .dot) (h : IsDottedTail w names) :
    ∀ {n : Nat}, names.length < n →
      Reads limits m (dottedTail n) (w ++ x :: r) w names := by
  induction h with
  | nil =>
    intro n hn
    obtain ⟨n, rfl⟩ := Nat.exists_eq_succ_of_ne_zero (Nat.ne_of_gt hn)
    exact .consume_ne hx (.pure _)
  | star p q =>
    intro n hn
    obtain ⟨n, rfl⟩ := Nat.exists_eq_succ_of_ne_zero (Nat.ne_of_gt (Nat.zero_lt_of_lt hn))
    exact .consume (by simp) (.consume (by simp) (.pure _))
  | cons p q name _ ih =>
    intro n hn
    obtain ⟨n, rfl⟩ := Nat.exists_eq_succ_of_ne_zero (Nat.ne_of_gt (Nat.zero_lt_of_lt hn))
    refine .consume (by simp) (.consume_ne (by simp) (.expectWord (by simp) ?_))
    exact (ih (Nat.lt_of_succ_lt_succ hn)).map fun _ => rfl

theorem complete_selectPart : Complete limits selectPart (· ≠ .dot) IsSelectPart := by
  intro w r x part hx h
  cases h with
  | star p => exact .consume (by simp) (.pure _)
  | @words w names p name h =>
    have hn : names.length < (w ++ x :: r).length + 1 := by
      have := h.length_le
      rw [List.length_append]
      omega
    refine .consume_ne (by simp) (.expectWord (by simp) (.rounds ?_))
    exact (reads_dottedTail hx h hn).map fun _ => rfl

theorem complete_selectItem :
    Complete limits selectItem (fun k => k = .comma ∨ k = .eof) IsSelectItem := by
  rintro w r x _ hx ⟨parts, h, rfl⟩
  have hlist : Complete limits (separated .slash selectPart) (fun k => k = .comma ∨ k = .eof)
      (Separated .slash IsSelectPart) :=
    complete_separated (by rintro _ (rfl | rfl) <;> simp) fun w r x a hx h =>
      complete_selectPart (by rcases hx with hx | hx | hx <;> simp [hx]) h
  exact (hlist (r := r) hx h).map fun _ => rfl

theorem complete_selection :
    Complete limits (separated .comma selectItem) (· = .eof)
      (Separated .comma IsSelectItem) :=
  complete_separated (by rintro _ rfl; simp) complete_selectItem

theorem complete_orderByItem :
    Complete limits orderByItem (fun k => k = .comma ∨ k = .eof) IsOrderByItem := by
  intro _ r x _ hx h
  obtain @⟨v, u, _, direction, ⟨names, hP, rfl⟩, hd⟩ := h
  have hword : ∀ word, x.kind ≠ .word word := by rcases hx with hx | hx <;> simp [hx]
  cases hd with
  | none =>
    have hpath := complete_memberPath limits (r := r) (x := x)
      (by rcases hx with hx | hx <;> simp [hx]) ⟨names, hP, rfl⟩
    rw [List.append_nil]
    refine hpath.bind_nil (.map (a := .ascending) ?_ fun _ => rfl)
    exact .consumeWord_ne (hword _) (.consumeWord_ne (hword _) (.pure _))
  | some _ p =>
    have hpath := complete_memberPath limits (r := x :: r) (x := ⟨.word direction.word, p⟩)
      (by simp) ⟨names, hP, rfl⟩
    rw [List.append_assoc]
    refine (hpath.mono (by simp)).bind (.map (a := direction) ?_ fun _ => rfl)
    cases direction with
    | descending => exact .consumeWord (by simp) (.pure _)
    | ascending => exact .consumeWord_ne (by simp; decide) (.consumeWord (by simp) (.pure _))

theorem complete_ordering :
    Complete limits (separated .comma orderByItem) (· = .eof)
      (Separated .comma IsOrderByItem) :=
  complete_separated (by rintro _ rfl; simp) complete_orderByItem

theorem complete_expandPath :
    Complete limits (do if ← consume .star then pure "*" else memberPath) (· = .eof)
      IsExpandPath := by
  intro w r x path hx h
  cases h with
  | star p => exact .consume (by simp) (.pure _)
  | path h =>
    obtain ⟨names, hP, rfl⟩ := h
    have hpath := complete_memberPath limits (r := r) (x := x) (by rw [hx]; simp)
      ⟨names, hP, rfl⟩
    obtain @⟨_, _, _, _, hS, -⟩ := hP
    obtain ⟨p, -⟩ := hS
    exact .consume_ne (by simp) hpath

theorem complete_keyPredicate (ctx : Context) :
    Complete limits (keyPredicate ctx) (fun k => k = .comma ∨ k = .rightParen)
      (IsKeyPredicate ctx.settings) := by
  intro w r x predicate hx h
  have hstring : ∀ text, x.kind ≠ .string text := by rcases hx with hx | hx <;> simp [hx]
  cases h with
  | named name p q hL =>
    refine .cursor fun c hc => ?_
    rw [current_of_rest hc]
    simp only [ahead_one hc, if_true]
    refine .advance (by simp) (.advance (by simp) ?_)
    exact ((complete_literal limits ctx hstring hL).mono (by simp; omega)).map fun _ => rfl
  | positional hL =>
    have hread : Reads limits w.length
        (do let value ← literal ctx; pure (KeyPredicate.positional value)) (w ++ x :: r) w _ :=
      (complete_literal limits ctx hstring hL).map fun _ => rfl
    refine .cursor fun c hc => ?_
    obtain ⟨y, u, rfl⟩ : ∃ y u, w = y :: u := by cases hL <;> exact ⟨_, _, rfl⟩
    rw [current_of_rest hc]
    -- After the first token of a literal there is a string or what follows the literal.
    have hahead : (c.ahead 1).kind ≠ .equals := by
      cases hL with
      | typedNull => rw [ahead_one hc]; simp
      | _ => rw [ahead_one hc]; rcases hx with hx | hx <;> rw [hx] <;> simp
    cases y.kind with
    | word w => simp only [if_neg hahead]; exact hread
    | _ => exact hread

theorem complete_resourceSegment (ctx : Context) :
    Complete limits (resourceSegment ctx) (fun k => k = .slash ∨ k = .eof)
      (IsResourceSegment ctx.settings) := by
  intro w r x segment hx h
  cases h with
  | plain name p =>
    exact .expectWord (by simp) (.consume_ne (by rcases hx with hx | hx <;> simp [hx]) (.pure _))
  | empty name p q s =>
    refine .expectWord (by simp) (.consume (by simp) ?_)
    refine Reads.map (a := []) ?_ fun _ => rfl
    exact .consume (by simp) (.pure _)
  | @keyed w predicates name p q s hD =>
    have hkeys : Complete limits (separated .comma (keyPredicate ctx)) (· = .rightParen)
        (Separated .comma (IsKeyPredicate ctx.settings)) :=
      complete_separated (by rintro _ rfl; simp) (complete_keyPredicate ctx)
    have hlist := hkeys (x := ⟨.rightParen, s⟩) (r := x :: r) rfl hD
    obtain ⟨y, u, rfl, hy⟩ : ∃ y u, w = y :: u ∧ y.kind ≠ .rightParen := by
      obtain ⟨hP, -⟩ := hD
      cases hP with
      | named => exact ⟨_, _, rfl, by simp⟩
      | positional hL => cases hL <;> exact ⟨_, _, rfl, by simp⟩
    have hread : Reads limits (u.length + 2) (keyPredicates ctx)
        (y :: u ++ ⟨.rightParen, s⟩ :: x :: r) (y :: u ++ [⟨.rightParen, s⟩]) predicates := by
      refine .consume_ne hy ((hlist.mono (by simp)).bind ?_)
      exact .expect (by simp) (.pure _)
    simp only [List.cons_append, List.append_assoc, List.nil_append] at *
    refine .expectWord (by simp) (.consume (by simp) (.map ?_ fun _ => rfl))
    exact hread.mono (by simp)

theorem complete_resourcePath (ctx : Context) :
    Complete limits (do let _ ← consume .slash; separated .slash (resourceSegment ctx))
      (· = .eof) (IsResourcePath ctx.settings) := by
  have hlist : Complete limits (separated .slash (resourceSegment ctx)) (· = .eof)
      (Separated .slash (IsResourceSegment ctx.settings)) :=
    complete_separated (by rintro _ rfl; simp) (complete_resourceSegment ctx)
  intro w r x segments hx h
  cases h with
  | rooted p hD => exact .consume (by simp) ((hlist hx hD).mono (by simp))
  | plain hD =>
    have hread := hlist hx (r := r) hD
    obtain @⟨v, _, _, _, hS, -⟩ := hD
    obtain ⟨y, u, rfl, hy⟩ : ∃ y u, v = y :: u ∧ y.kind ≠ .slash := by
      cases hS <;> exact ⟨_, _, rfl, by simp⟩
    exact .consume_ne hy hread

end Completeness

end OData.Grammar
