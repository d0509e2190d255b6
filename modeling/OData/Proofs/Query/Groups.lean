import OData.Proofs.Token.Exposed

/-!
# Groups end where the scan leaves them

The parenthesis that closes a group is searched for from inside the group on, with a count of its
own that starts at one, and goes down with every parenthesis that closes, where the scan of a whole
text stops at zero.  The group's own parenthesis keeps the search above zero until it ends, so the
two counts are the same all the way: one step of the search is one step of the scan
(`Nesting.close_cons`), and by induction the search ends at the first place behind the opening
parenthesis where the scan of the whole text is back at its start, or does not end if there is none
(`Nesting.close_iff_returns`).
-/
namespace OData.Text

/-- **The place of the closing parenthesis**, if the search that began at `pos` found one. -/
def Closing.place (pos : Nat) : Closing → Option Nat
  | closed inner _ => some (pos + byteLength inner)
  | unclosed | overdrawn => none

namespace Nesting
variable {n : Nesting} {pos opening k : Nat} {c : Char} {s before inside : List Char}

/-! ## The states of a scan -/

/-- **The states of a scan**, each with the byte position of the character that led to it. -/
def states (n : Nesting) (pos : Nat) : List Char → List (Nat × Nesting)
  | [] => []
  | c :: r => (pos, n.next c) :: states (n.next c) (pos + c.utf8Size) r

theorem states_append (n : Nesting) (pos : Nat) (s t : List Char) :
    states n pos (s ++ t) = states n pos s ++ states (n.after s) (pos + byteLength s) t := by
  induction s generalizing n pos with
  | nil => rfl
  | cons c s ih =>
    rw [List.cons_append, states, states, ih, byteLength_cons, ← Nat.add_assoc]
    rfl

/-- A state stands where the character stands that led to it. -/
theorem bounds_of_mem_states {x : Nat × Nesting} (h : x ∈ states n pos s) :
    pos ≤ x.1 ∧ x.1 < pos + byteLength s := by
  induction s generalizing n pos with
  | nil => cases h
  | cons c s ih =>
    have hc := c.utf8Size_pos
    rw [byteLength_cons]
    rcases List.mem_cons.1 h with rfl | h
    · exact ⟨Nat.le_refl _, by omega⟩
    · obtain ⟨hle, hlt⟩ := ih h
      exact ⟨by omega, by omega⟩

/-- What is exposed stands behind a text that leaves nothing open. -/
theorem exists_of_mem_exposed (h : (k, c) ∈ exposed n pos s) :
    ∃ before after, s = before ++ c :: after ∧ k = pos + byteLength before ∧
      n.after before = start := by
  induction s generalizing n pos with
  | nil => cases h
  | cons d s ih =>
    have hlater : (k, c) ∈ exposed (n.next d) (pos + d.utf8Size) s →
        ∃ before after, d :: s = before ++ c :: after ∧ k = pos + byteLength before ∧
          n.after before = start := by
      intro h
      obtain ⟨before, after, rfl, rfl, hstart⟩ := ih h
      exact ⟨d :: before, after, rfl, Nat.add_assoc .., hstart⟩
    rw [exposed] at h
    split at h
    · next hd =>
      rcases List.mem_cons.1 h with he | h
      · cases he
        exact ⟨[], s, rfl, rfl, exposes_eq_start hd⟩
      · exact hlater h
    · exact hlater h

/-! ## The search -/

/-- How the search ends that begins in a group: at a parenthesis that brings the scan back to
the start, which it was not before, or with the text, and the scan is in the group all the way. -/
inductive SearchEnds (n : Nesting) (s : List Char) : Closing → Prop
  | closed {inner rest : List Char} : s = inner ++ ')' :: rest →
    n.after (inner ++ [')']) = start → (∀ pos, ∀ x ∈ states n pos inner, 0 < x.2.depth) →
      SearchEnds n s (.closed inner rest)
  | unclosed : (∀ pos, ∀ x ∈ states n pos s, 0 < x.2.depth) → SearchEnds n s .unclosed

/-- The search follows the scan.  The induction is on the text; the invariant is that the count
of the search is the depth of the scan and not zero. -/
theorem searchEnds (hd : 0 < n.depth) (s : List Char) :
    SearchEnds n s (close n.depth n.quote s) := by
  induction s generalizing n with
  | nil => exact .unclosed nofun
  | cons c s ih =>
    rcases close_cons hd c s with ⟨rfl, hstart, hclose⟩ | ⟨hdepth, hcons⟩
    · rw [hclose]
      exact .closed rfl hstart nofun
    · rw [hcons]
      have hrest := ih hdepth
      generalize close (n.next c).depth (n.next c).quote s = e at hrest
      cases hrest with
      | closed hs hafter hinner =>
        rw [hs]
        exact .closed rfl hafter fun pos => List.forall_mem_cons.2 ⟨hdepth, hinner _⟩
      | unclosed hinner =>
        exact .unclosed fun pos => List.forall_mem_cons.2 ⟨hdepth, hinner _⟩

/-! ## The scan of the whole text -/

/-- **The scan of a text returns at `k`**, which is the first place behind the one where a group
opens at which nothing is open any more. -/
structure ReturnsFirst (pos : Nat) (s : List Char) (opening k : Nat) : Prop where
  behind : opening < k
  returns : (k, start) ∈ states start pos s
  first : ∀ x ∈ states start pos s, opening < x.1 → x.1 < k → 0 < x.2.depth

theorem ReturnsFirst.unique {k' : Nat} (h : ReturnsFirst pos s opening k)
    (h' : ReturnsFirst pos s opening k') : k = k' := by
  rcases Nat.lt_trichotomy k k' with hlt | heq | hlt
  · exact absurd (h'.first _ h.returns h.behind hlt) (Nat.lt_irrefl 0)
  · exact heq
  · exact absurd (h.first _ h'.returns h'.behind hlt) (Nat.lt_irrefl 0)

/-- Behind the parenthesis that opens a group, the scan of the whole text is the scan of what
stands there, which begins in the group. -/
theorem mem_states_behind (pos : Nat) (inside : List Char) (hbefore : start.after before = start)
    (x : Nat × Nesting) :
    (x ∈ states start pos (before ++ '(' :: inside) ∧ pos + byteLength before < x.1) ↔
      x ∈ states ⟨1, none⟩ (pos + byteLength before + 1) inside := by
  have hstates : states start pos (before ++ '(' :: inside) =
      states start pos before ++
        (pos + byteLength before, ⟨1, none⟩) ::
          states ⟨1, none⟩ (pos + byteLength before + 1) inside := by
    rw [states_append, hbefore]
    rfl
  rw [hstates, List.mem_append, List.mem_cons]
  constructor
  · rintro ⟨hx | rfl | hx, hlt⟩
    · exact absurd hlt (Nat.not_lt.2 (Nat.le_of_lt (bounds_of_mem_states hx).2))
    · exact absurd hlt (Nat.lt_irrefl _)
    · exact hx
  · exact fun hx => ⟨.inr (.inr hx), (bounds_of_mem_states hx).1⟩

/-- Where the search ends, the scan of the whole text first returns. -/
theorem returnsFirst_of_closed {inner : List Char} (pos : Nat) (rest : List Char)
    (hbefore : start.after before = start) (hafter : after ⟨1, none⟩ (inner ++ [')']) = start)
    (hinner : ∀ pos, ∀ x ∈ states ⟨1, none⟩ pos inner, 0 < x.2.depth) :
    ReturnsFirst pos (before ++ '(' :: (inner ++ ')' :: rest)) (pos + byteLength before)
      (pos + byteLength before + 1 + byteLength inner) := by
  have hbehind := mem_states_behind pos (inner ++ ')' :: rest) hbefore
  have hstates : states ⟨1, none⟩ (pos + byteLength before + 1) (inner ++ ')' :: rest) =
      states ⟨1, none⟩ (pos + byteLength before + 1) inner ++
        (pos + byteLength before + 1 + byteLength inner, start) ::
          states start (pos + byteLength before + 1 + byteLength inner + 1) rest := by
    rw [after_append, after_cons, after_nil] at hafter
    rw [states_append, states, hafter]
    rfl
  rw [hstates] at hbehind
  refine ⟨by omega, ((hbehind _).2 (List.mem_append_right _ List.mem_cons_self)).1,
    fun x hx hlt hk => ?_⟩
  rcases List.mem_append.1 ((hbehind x).1 ⟨hx, hlt⟩) with hx | hx
  · exact hinner _ x hx
  · rcases List.mem_cons.1 hx with rfl | hx
    · exact absurd hk (Nat.lt_irrefl _)
    · have hbounds := (bounds_of_mem_states hx).1
      omega

/-- **A group ends where the scan of the whole text first returns.**  Behind a parenthesis that the
scan finds exposed, the search ends at the first place where nothing is open any more, with the
parenthesis that stands there; it runs out of text just if the scan never gets there; and its count
is never overdrawn. -/
theorem close_iff_returns {s : Slice} (h : (opening, '(') ∈ start.exposed s.start s.text) :
    ∃ before inside, s.text = before ++ '(' :: inside ∧ opening = s.start + byteLength before ∧
      (∀ k, (close 1 none inside).place (opening + 1) = some k ↔
        ReturnsFirst s.start s.text opening k) ∧
      (close 1 none inside = .unclosed ↔
        ∀ x ∈ states start s.start s.text, opening < x.1 → 0 < x.2.depth) ∧
      close 1 none inside ≠ .overdrawn ∧
      ∀ inner rest, close 1 none inside = .closed inner rest → inside = inner ++ ')' :: rest := by
  obtain ⟨before, inside, htext, rfl, hbefore⟩ := exists_of_mem_exposed h
  refine ⟨before, inside, htext, rfl, ?_⟩
  rw [htext]
  have hends : SearchEnds ⟨1, none⟩ inside (close 1 none inside) := searchEnds Nat.one_pos inside
  generalize close 1 none inside = e at hends
  cases hends with
  | @closed inner rest hinside hafter hinner =>
    subst hinside
    have hreturns := returnsFirst_of_closed s.start rest hbefore hafter hinner
    refine ⟨fun k => ⟨fun hk => ?_, fun hk => ?_⟩, ⟨nofun, fun hnever => ?_⟩, nofun, ?_⟩
    · exact Option.some.inj hk ▸ hreturns
    · exact congrArg some (hreturns.unique hk)
    · exact absurd (hnever _ hreturns.returns hreturns.behind) (Nat.lt_irrefl 0)
    · rintro _ _ ⟨⟩
      rfl
  | unclosed hinner =>
    have hnever : ∀ x ∈ states start s.start (before ++ '(' :: inside),
        s.start + byteLength before < x.1 → 0 < x.2.depth :=
      fun x hx hlt => hinner _ x ((mem_states_behind _ _ hbefore x).1 ⟨hx, hlt⟩)
    refine ⟨fun k => ⟨nofun, fun hk => ?_⟩, ⟨fun _ => hnever, fun _ => rfl⟩, nofun, nofun⟩
    exact absurd (hnever _ hk.returns hk.behind) (Nat.lt_irrefl 0)

/-- A group with a quoted parenthesis in it, which neither the scan nor the search counts. -/
theorem close_quoted_parenthesis :
    ∃ before inside, (Slice.ofString "é($filter=Name eq ')')" 3).text = before ++ '(' :: inside ∧
      5 = 3 + byteLength before ∧ (close 1 none inside).place 6 = some 25 := by
  have hopening : (5, '(') ∈ start.exposed 3 (Slice.ofString "é($filter=Name eq ')')" 3).text := by
    decide
  obtain ⟨before, inside, htext, hbefore, hplace, -⟩ :=
    close_iff_returns (s := Slice.ofString "é($filter=Name eq ')')" 3) hopening
  exact ⟨before, inside, htext, hbefore, (hplace 25).2 ⟨by decide, by decide, by decide⟩⟩

end Nesting
end OData.Text
