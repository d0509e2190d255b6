import OData.Proofs.Grammar.Listing
import OData.Proofs.Query.Equality
import OData.Proofs.Query.Items
import OData.Proofs.Text.Joined
import OData.Proofs.Token.Lexing

/-!
# Flat lists are read exactly as they are derived

A resource path, a selection and an order nest nothing, so no limit can stand in the way of
reading one: whatever the tokens of a text are a way to write is read off them, in any number of
brackets, and nothing else is (`flatLists_read_iff`).  A selected item keeps no structure; it is
the text of its tokens, put together again (`IsSelectItem.toList_eq`).
-/
namespace OData.Grammar
open Options

/-! ## The text of tokens -/

/-- The text of tokens, one after the other with nothing between them. -/
def writtenOut (w : List Token) : List Char := w.flatMap fun t => t.kind.written

section Written
variable {v w : List Token} {sep : Kind} {c : Char} {D : List Token → String → Prop}

theorem writtenOut_append (v w : List Token) :
    writtenOut (v ++ w) = writtenOut v ++ writtenOut w :=
  List.flatMap_append

theorem writtenOut_cons (t : Token) (w : List Token) :
    writtenOut (t :: w) = t.kind.written ++ writtenOut w :=
  List.flatMap_cons

/-- Items with separators between them are written with the separator's text between theirs. -/
theorem Separated.writtenOut_eq {as : List String} (hsep : sep.written = [c])
    (hD : ∀ v a, D v a → a.toList = writtenOut v) (h : Separated sep D w as) :
    writtenOut w = joined c (as.map String.toList) := by
  obtain @⟨v, w, first, as, hfirst, hF⟩ := h
  rw [writtenOut_append, ← hD v first hfirst]
  clear hfirst
  -- Along the rest of the list, with whatever item stands in front of it.
  induction hF generalizing first with
  | nil => exact List.append_nil _
  | @cons v w a as p hv _ ih =>
    rw [writtenOut_cons, writtenOut_append, ← hD v a hv, hsep, List.map_cons,
      joined_cons (by simp), ← ih]
    rfl

theorem IsDottedTail.writtenOut_eq {names : List String} (h : IsDottedTail w names)
    (first : String) :
    first.toList ++ writtenOut w = joined '.' ((first :: names).map String.toList) := by
  induction h generalizing first with
  | nil => exact List.append_nil _
  | star p q => rfl
  | cons p q name _ ih =>
    rw [writtenOut_cons, writtenOut_cons, List.map_cons, joined_cons (by simp), ← ih name]
    rfl

theorem IsSelectPart.toList_eq {part : String} (h : IsSelectPart w part) :
    part.toList = writtenOut w := by
  cases h with
  | star p => rfl
  | words p name h =>
    have hdot : ".".toList = ['.'] := rfl
    rw [toList_intercalate hdot, ← h.writtenOut_eq name, writtenOut_cons]
    rfl

/-- **A selected item is the text of its tokens.** -/
theorem IsSelectItem.toList_eq {item : String} (h : IsSelectItem w item) :
    item.toList = writtenOut w := by
  obtain ⟨parts, h, rfl⟩ := h
  have hslash : "/".toList = ['/'] := rfl
  rw [toList_intercalate hslash, h.writtenOut_eq rfl fun _ _ => IsSelectPart.toList_eq]

end Written

/-! ## Reading to the end -/

/-- What needs no room is read from a whole slice just if its tokens derive it, in any number
of brackets. -/
theorem run_complete_iff {α : Type} {p : Parse α} {D : List Token → α → Prop}
    (hsound : Sound p D) (hcomplete : ∀ limits, Complete limits p (· = .eof) D) {text : Slice}
    {ts : List Token} (hts : text.tokens = .ok ts) (depth : Nat) (a : α) :
    run (complete p) depth text = .ok a ↔ D ts.dropLast a := by
  have hends := Slice.ends_of_tokens hts
  rw [run_eq_ok]
  constructor
  · rintro ⟨_, t, hts', h⟩
    obtain rfl := Except.ok.inj (hts.symm.trans hts')
    exact sound_complete hsound hends h
  · intro hD
    -- Limits play no part in the reading, so any that leave room for all tokens will do.
    let limits : Settings := ⟨[], depth + ts.length, ts.length⟩
    obtain ⟨t, ht⟩ := (hcomplete limits).complete rfl hends hD
      (s := State.start ts depth) rfl ⟨Nat.le_refl _, by simp [State.start, limits]⟩
    exact ⟨ts, t, hts, ht⟩

theorem run_resourcePath_iff (ctx : Context) {text : Slice} {ts : List Token}
    (hts : text.tokens = .ok ts) (depth : Nat) (segments : List PathSegment) :
    run (resourcePath ctx) depth text = .ok segments ↔
      IsResourcePath ctx.settings ts.dropLast segments :=
  run_complete_iff (sound_resourcePath ctx) (fun _ => complete_resourcePath ctx) hts depth segments

theorem run_selection_iff {text : Slice} {ts : List Token} (hts : text.tokens = .ok ts)
    (depth : Nat) (items : List String) :
    run selection depth text = .ok items ↔
      Separated .comma (fun w item => IsSelectItem w item ∧ item.toList = writtenOut w)
        ts.dropLast items := by
  refine run_complete_iff (sound_separated (by simp) ?_) (fun _ => ?_) hts depth items
  · exact sound_selectItem.mono fun _ _ h => ⟨h, h.toList_eq⟩
  · exact complete_separated (by rintro _ rfl; simp) fun _ _ _ _ hx h =>
      complete_selectItem hx h.1

theorem run_ordering_iff {text : Slice} {ts : List Token} (hts : text.tokens = .ok ts)
    (depth : Nat) (items : List OrderByItem) :
    run ordering depth text = .ok items ↔ Separated .comma IsOrderByItem ts.dropLast items :=
  run_complete_iff (sound_separated (by simp) sound_orderByItem) (fun _ => complete_ordering) hts
    depth items

theorem run_expandPath_iff {text : Slice} {ts : List Token} (hts : text.tokens = .ok ts)
    (depth : Nat) (path : String) :
    run expandPath depth text = .ok path ↔ IsExpandPath ts.dropLast path :=
  run_complete_iff sound_expandPath (fun _ => complete_expandPath) hts depth path

/-- **The flat lists that are read off the tokens of a text are those that the tokens are a way
to write**: resource paths, the values of `$select`, each item of which is the text of its tokens,
and the values of `$orderby`. -/
theorem flatLists_read_iff (settings : Settings) {text : Slice} {ts : List Token}
    (hts : text.tokens = .ok ts) :
    (∀ option depth segments,
      run (resourcePath ⟨settings, option⟩) depth text = .ok segments ↔
        IsResourcePath settings ts.dropLast segments) ∧
    (∀ depth nested name items,
      optionValue settings depth nested ⟨.select, name, text⟩ = .ok (.select items) ↔
        Separated .comma (fun w item => IsSelectItem w item ∧ item.toList = writtenOut w)
          ts.dropLast items) ∧
    ∀ depth nested name items,
      optionValue settings depth nested ⟨.orderBy, name, text⟩ = .ok (.orderBy items) ↔
        Separated .comma IsOrderByItem ts.dropLast items := by
  refine ⟨fun option => run_resourcePath_iff ⟨settings, option⟩ hts, ?_, ?_⟩
  · intro depth nested name items
    rw [← run_selection_iff hts depth, optionValue_eq_ok]
    exact ⟨fun h => h.2, fun h => ⟨rfl, h⟩⟩
  · intro depth nested name items
    rw [← run_ordering_iff hts depth, optionValue_eq_ok]
    exact ⟨fun h => h.2, fun h => ⟨rfl, h⟩⟩

/-- A word that is a direction elsewhere is a name after a slash. -/
theorem derives_namedDesc :
    ∃ ts, (Slice.ofString "A/desc" 9).tokens = .ok ts ∧
      IsResourcePath Settings.standard ts.dropLast [⟨"A", none⟩, ⟨"desc", none⟩] ∧
      Separated .comma (fun w item => IsSelectItem w item ∧ item.toList = writtenOut w)
        ts.dropLast ["A/desc"] ∧
      Separated .comma IsOrderByItem ts.dropLast [⟨"A/desc", .ascending⟩] := by
  have hts : (Slice.ofString "A/desc" 9).tokens =
      .ok [⟨.word "A", ⟨9, 10⟩⟩, ⟨.slash, ⟨10, 11⟩⟩, ⟨.word "desc", ⟨11, 15⟩⟩,
        ⟨.eof, ⟨15, 15⟩⟩] := by decide +kernel
  obtain ⟨hpath, hselect, horder⟩ := flatLists_read_iff Settings.standard hts
  refine ⟨_, hts, (hpath none 0 _).1 (by decide +kernel), ?_, ?_⟩
  · exact (hselect 0 (fun _ => .error .exhausted) ⟨0, 7⟩ _).1 (by decide +kernel)
  · exact (horder 0 (fun _ => .error .exhausted) ⟨0, 8⟩ _).1 (by decide +kernel)

end OData.Grammar
