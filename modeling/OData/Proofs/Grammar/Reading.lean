import OData.Proofs.Grammar.Chain
import OData.Proofs.Grammar.Run

/-!
# Reading given tokens

Where tokens are a way to write something, the part of the grammar that reads such
things reads it, takes exactly those tokens, and leaves the counts as they were.

`Reads limits n p ts w a` is the statement for one reading and one token list, and
has a rule for each thing that grammars are put together from; `Complete limits p
stops D` is the statement for a rule `D`.  Two things have to be asked for it.  What
follows must not go on with what has been derived, since reading takes as much as it
can: `stops` says which kinds of tokens may follow.  And there has to be room under
the limits: one bracket and one operator for every token is enough, as each bracket
and each operator is a token of its own.

Lists, names and literals are complete in this sense.
-/
namespace OData.Grammar
variable {α β : Type}

/-! ## Readings of given tokens -/

/-- There is room for `n` more brackets and `n` more operators under the limits. -/
def State.Room (limits : Settings) (n : Nat) (s : State) : Prop :=
  s.depth + n ≤ limits.maxDepth ∧ s.operators + n ≤ limits.maxOperatorDepth

/-- **Where the tokens ahead are `ts` and there is room for `n`**, a value is read and the
tokens `w` are taken. -/
def Reads (limits : Settings) (n : Nat) (p : Parse α) (ts w : List Token) (a : α) : Prop :=
  ∀ ⦃s : State⦄, s.cursor.rest = ts → s.Room limits n → p s = .ok a (s.past w)

namespace Reads
variable {limits : Settings} {m n : Nat} {p : Parse α} {f : α → Parse β} {r ts v w : List Token}
  {a : α} {b : β} {t : Token} {k : Kind} {at' : Span}

theorem mono (h : Reads limits m p ts w a) (hmn : m ≤ n) : Reads limits n p ts w a := by
  intro s hs hr
  refine h hs ?_
  simp only [State.Room] at *
  omega

theorem pure (a : α) : Reads limits n (Pure.pure a : Parse α) ts [] a := fun _ _ _ => rfl

theorem bind (hp : Reads limits n p (v ++ r) v a) (hf : Reads limits n (f a) r w b) :
    Reads limits n (p >>= f) (v ++ r) (v ++ w) b := by
  intro s hs hr
  rw [bind_of_ok (hp hs hr), hf (State.past_rest hs) hr, State.past_past]

/-- A next step that only looks at what follows. -/
theorem bind_nil (hp : Reads limits n p (v ++ r) v a) (hf : Reads limits n (f a) r [] b) :
    Reads limits n (p >>= f) (v ++ r) v b := by
  have h := hp.bind hf
  rwa [List.append_nil] at h

/-- A last step that takes nothing. -/
theorem map (hp : Reads limits n p ts w a) (hf : ∀ s, f a s = .ok b s) :
    Reads limits n (p >>= f) ts w b := by
  intro s hs hr
  rw [bind_of_ok (hp hs hr), hf]

/-! ### Looking -/

theorem cursor {f : Cursor → Parse β}
    (h : ∀ c : Cursor, c.rest = ts → Reads limits n (f c) ts w b) :
    Reads limits n (cursor >>= f) ts w b := fun _ hs hr => h _ hs hs hr

theorem current {f : Token → Parse β} (h : Reads limits n (f t) (t :: r) w b) :
    Reads limits n (current >>= f) (t :: r) w b := by
  intro s hs hr
  rw [current_bind, current_of_rest hs]
  exact h hs hr

theorem here {f : Span → Parse β} (h : Reads limits n (f t.span) (t :: r) w b) :
    Reads limits n (here >>= f) (t :: r) w b := by
  intro s hs hr
  rw [here_bind, current_of_rest hs]
  exact h hs hr

/-- Looking at the place of the token at the cursor, whatever it is. -/
theorem anywhere {f : Span → Parse β} (h : ∀ p, Reads limits n (f p) ts w b) :
    Reads limits n (Grammar.here >>= f) ts w b := fun _ hs hr => h _ hs hr

theorem previousSpan {f : Span → Parse β} (h : ∀ p, Reads limits n (f p) ts w b) :
    Reads limits n (previousSpan >>= f) ts w b := fun _ hs hr => h _ hs hr

theorem isAt {f : Bool → Parse β} (h : Reads limits n (f (t.kind == k)) (t :: r) w b) :
    Reads limits n (isAt k >>= f) (t :: r) w b := by
  intro s hs hr
  rw [isAt_bind, Cursor.isAt, current_of_rest hs]
  exact h hs hr

theorem isAtWord {f : Bool → Parse β} {word : String}
    (h : Reads limits n (f (t.kind.word? == some word)) (t :: r) w b) :
    Reads limits n (isAtWord word >>= f) (t :: r) w b := by
  intro s hs hr
  rw [isAtWord_bind, Cursor.isAtWord, current_of_rest hs]
  exact h hs hr

theorem rounds {f : Nat → Parse β} (h : Reads limits n (f (ts.length + 1)) ts w b) :
    Reads limits n (rounds >>= f) ts w b := by
  intro s hs hr
  rw [rounds_bind, hs]
  exact h hs hr

/-! ### Taking a token

In each rule the token that is taken is not the last one. -/

theorem cons (hp : Reads limits n p (t :: r) [t] a) (hf : Reads limits n (f a) r w b) :
    Reads limits n (p >>= f) (t :: r) (t :: w) b := hp.bind (v := [t]) hf

theorem advance {f : Unit → Parse β} (hr : r ≠ []) (hf : Reads limits n (f ()) r w b) :
    Reads limits n (advance >>= f) (t :: r) (t :: w) b :=
  cons (fun _ hs _ => advance_of_rest hs hr) hf

theorem consume {f : Bool → Parse β} (hr : r ≠ []) (hf : Reads limits n (f true) r w b) :
    Reads limits n (consume k >>= f) (⟨k, at'⟩ :: r) (⟨k, at'⟩ :: w) b :=
  cons (fun _ hs _ => consume_of_rest hs hr) hf

theorem consume_ne {f : Bool → Parse β} (hk : t.kind ≠ k)
    (hf : Reads limits n (f false) (t :: r) w b) :
    Reads limits n (Grammar.consume k >>= f) (t :: r) w b := by
  intro s hs hr
  rw [bind_of_ok (consume_of_ne (by rwa [current_of_rest hs]))]
  exact hf hs hr

theorem consumeWord {f : Bool → Parse β} {word : String} (hr : r ≠ [])
    (hf : Reads limits n (f true) r w b) :
    Reads limits n (consumeWord word >>= f) (⟨.word word, at'⟩ :: r)
      (⟨.word word, at'⟩ :: w) b :=
  cons (fun _ hs _ => consumeWord_of_rest hs hr) hf

theorem consumeWord_ne {f : Bool → Parse β} {word : String} (hk : t.kind ≠ .word word)
    (hf : Reads limits n (f false) (t :: r) w b) :
    Reads limits n (Grammar.consumeWord word >>= f) (t :: r) w b := by
  intro s hs hr
  rw [bind_of_ok (consumeWord_of_ne (by rwa [current_of_rest hs]))]
  exact hf hs hr

theorem expect {f : Span → Parse β} (hr : r ≠ []) (hf : Reads limits n (f at') r w b) :
    Reads limits n (expect k >>= f) (⟨k, at'⟩ :: r) (⟨k, at'⟩ :: w) b :=
  cons (fun _ hs _ => expect_of_rest hs hr) hf

theorem expectWord {f : Spanned String → Parse β} {word what : String} (hr : r ≠ [])
    (hf : Reads limits n (f ⟨word, at'⟩) r w b) :
    Reads limits n (expectWord what >>= f) (⟨.word word, at'⟩ :: r)
      (⟨.word word, at'⟩ :: w) b :=
  cons (fun _ hs _ => expectWord_of_rest hs hr) hf

/-! ### Brackets -/

theorem nested {ctx : Context} (h : Reads ctx.settings n p ts w a) :
    Reads ctx.settings (n + 1) (nested ctx p) ts w a := by
  intro s hs hr
  simp only [State.Room] at hr
  refine nested_of_ok (by omega) (h hs ?_)
  simp only [State.Room, State.deeper]
  omega

end Reads

/-- **All that is derived is read**, if what follows does not go on with it and there is room
for each token. -/
def Complete (limits : Settings) (p : Parse α) (stops : Kind → Prop)
    (D : List Token → α → Prop) : Prop :=
  ∀ ⦃w r : List Token⦄ ⦃x : Token⦄ ⦃a : α⦄, stops x.kind → D w a →
    Reads limits w.length p (w ++ x :: r) w a

/-! ## Lists -/

/-- What stands behind an item of a list is the next separator or what follows the list. -/
theorem Followed.exists_cons {sep : Kind} {D : List Token → α → Prop} {w : List Token}
    {as : List α} (h : Followed sep D w as) (x : Token) (r : List Token) :
    ∃ y r', w ++ x :: r = y :: r' ∧ (y.kind = sep ∨ y = x) := by
  cases h with
  | nil => exact ⟨x, r, rfl, .inr rfl⟩
  | cons p hD hF => exact ⟨_, _, rfl, .inl rfl⟩

theorem Followed.length_le {sep : Kind} {D : List Token → α → Prop} {w : List Token}
    {as : List α} (h : Followed sep D w as) : as.length ≤ w.length := by
  induction h with
  | nil => exact Nat.le_refl _
  | cons p hD _ ih =>
    simp only [List.length_cons, List.length_append]
    omega

section Lists
variable {limits : Settings} {sep : Kind} {stops : Kind → Prop} {item : Parse α}
  {D : List Token → α → Prop} {w r : List Token} {x : Token} {as : List α}

/-- An item in a list is read like one that stands alone. -/
theorem Complete.inList (hitem : Complete limits item (fun k => k = sep ∨ stops k) D)
    {v : List Token} {a : α} (hD : D v a) (hF : Followed sep D w as) (hx : stops x.kind) :
    Reads limits v.length item (v ++ (w ++ x :: r)) v a := by
  obtain ⟨y, r', hy, hk⟩ := hF.exists_cons x r
  rw [hy]
  exact hitem (hk.imp id fun h => by rw [h]; exact hx) hD

theorem reads_following (hstop : ∀ k, stops k → k ≠ sep)
    (hitem : Complete limits item (fun k => k = sep ∨ stops k) D) (h : Followed sep D w as)
    (hx : stops x.kind) :
    ∀ {n : Nat}, as.length < n →
      Reads limits w.length (following sep item n) (w ++ x :: r) w as := by
  induction h with
  | nil =>
    intro n hn
    obtain ⟨n, rfl⟩ := Nat.exists_eq_succ_of_ne_zero (Nat.ne_of_gt hn)
    exact .consume_ne (hstop _ hx) (.pure [])
  | @cons v w a as p hD hF ih =>
    intro n hn
    obtain ⟨n, rfl⟩ := Nat.exists_eq_succ_of_ne_zero (Nat.ne_of_gt (Nat.zero_lt_of_lt hn))
    have hread := (hitem.inList (r := r) hD hF hx).mono (n := (⟨sep, p⟩ :: (v ++ w)).length)
      (by simp only [List.length_cons, List.length_append]; omega)
    have hrest := (ih (Nat.lt_of_succ_lt_succ hn)).mono (n := (⟨sep, p⟩ :: (v ++ w)).length)
      (by simp only [List.length_cons, List.length_append]; omega)
    rw [List.cons_append, List.append_assoc]
    exact .consume (by simp) (hread.bind (hrest.map fun _ => rfl))

theorem complete_separated (hstop : ∀ k, stops k → k ≠ sep)
    (hitem : Complete limits item (fun k => k = sep ∨ stops k) D) :
    Complete limits (separated sep item) stops (Separated sep D) := by
  intro w r x as hx h
  cases h with
  | @mk v w a as hD hF =>
    have hread := (hitem.inList (r := r) hD hF hx).mono (n := (v ++ w).length) (by simp)
    have hn : as.length < (w ++ x :: r).length + 1 := by
      have := hF.length_le
      rw [List.length_append]
      omega
    have hrest := (reads_following (r := r) hstop hitem hF hx hn).mono (n := (v ++ w).length)
      (by simp)
    rw [List.append_assoc]
    exact hread.bind (.rounds (hrest.map fun _ => rfl))

end Lists

/-! ## Names and literals -/

section Words
variable (limits : Settings)

theorem complete_pathSegment : Complete limits pathSegment (fun _ => True) IsSegment := by
  intro w r x name _ h
  cases h with
  | mk p hop =>
    refine .current ?_
    simp only [hop, Bool.false_eq_true, if_false]
    exact .advance (by simp) (.pure _)

theorem complete_path :
    Complete limits (separated .slash pathSegment) (· ≠ .slash) IsPath :=
  complete_separated (fun _ => id) fun _ _ _ _ _ hD => complete_pathSegment limits trivial hD

theorem complete_memberPath :
    Complete limits memberPath (· ≠ .slash) fun w name =>
      ∃ names, IsPath w names ∧ name = "/".intercalate names := by
  rintro w r x _ hx ⟨names, h, rfl⟩
  exact (complete_path limits hx h).map fun _ => rfl

theorem complete_unitAccessor : Complete limits unitAccessor (· ≠ .dot) IsUnit := by
  intro w r x unit hx h
  cases h with
  | none => exact .consume_ne hx (.pure _)
  | some unit p q a b =>
    have hu : (Keyword.find? unit.word : Option TimeUnit) = some unit := Keyword.find?_word unit
    refine .consume (by simp) (.expectWord (by simp) ?_)
    simp only [hu]
    exact .expect (by simp) (.expect (by simp) (.pure _))

theorem complete_expectWord (what : String) :
    Complete limits (expectWord what) (fun _ => True) fun w a =>
      w = [⟨.word a.value, a.span⟩] := by
  rintro _ r x a _ rfl
  exact fun _ hs _ => expectWord_of_rest hs (by simp)

theorem complete_typeName : Complete limits typeName (· ≠ .dot) IsType := by
  rintro w r x type hx ⟨hS, hname⟩
  obtain @⟨v, u, first, names, hD, hnames⟩ := hS
  obtain ⟨_, p⟩ := hD
  obtain ⟨others, rfl, hF⟩ := hnames.exists_map (f := Spanned.value)
    (E := fun w a => w = [⟨.word a.value, a.span⟩]) fun _ _ h => by
      cases h
      exact ⟨⟨_, _⟩, rfl, rfl⟩
  have hsegment : Complete limits (expectWord "type name segment") (fun k => k = .dot ∨ k ≠ .dot)
      fun w a => w = [⟨.word a.value, a.span⟩] :=
    fun _ _ _ _ _ h => complete_expectWord limits _ trivial h
  have hn : others.length < (u ++ x :: r).length + 1 := by
    have := hF.length_le
    rw [List.length_append]
    omega
  have hrest := (reads_following (r := r) (fun _ => id) hsegment hF hx hn).mono
    (Nat.le_succ u.length)
  have hfind : (Keyword.find? (".".intercalate (first :: others.map Spanned.value)) :
      Option EdmType) = some type := Keyword.find?_eq_some_iff.2 hname
  refine .expectWord (by simp) (.rounds (hrest.map fun s => ?_))
  simp only [hfind]
  rfl

/-! ### Literals -/

theorem tokenLiteral_of_isLiteral {ctx : Context} {k : Kind} {p : Span} {l : Literal}
    (h : IsLiteral ctx.settings [⟨k, p⟩] l) (hk : k ≠ .word "null") :
    tokenLiteral ctx k = .ok l := by
  cases h with
  | null => exact absurd rfl hk
  | integer _ hv => simp only [tokenLiteral, hv]
  | parameter _ hn => simp only [tokenLiteral, hn, if_true]
  | _ => rfl

/-- A literal that is a token by itself is read by it. -/
theorem reads_literal {limits : Settings} {ctx : Context} {n : Nat} {k : Kind} {p : Span}
    {l : Literal} {r : List Token} (h : IsLiteral ctx.settings [⟨k, p⟩] l)
    (hk : k ≠ .word "null") (hr : r ≠ []) :
    Reads limits n (literal ctx) (⟨k, p⟩ :: r) [⟨k, p⟩] l := by
  refine .current ?_
  simp only [if_neg hk, tokenLiteral_of_isLiteral h hk]
  exact .advance hr (.pure _)

theorem complete_literal (ctx : Context) :
    Complete limits (literal ctx) (fun k => ∀ h, k ≠ .string h) (IsLiteral ctx.settings) := by
  intro w r x l hx h
  cases h with
  | null p =>
    refine .current (.here (.advance (by simp) (.current ?_)))
    cases hk : x.kind with
    | string hint => exact absurd hk (hx hint)
    | _ => exact .pure _
  | @typedNull p q hint hpq =>
    refine .current (.here (.advance (by simp) (.current ?_)))
    simp only [hpq, if_true]
    exact .advance (by simp) (.pure _)
  | yes p => exact reads_literal (.yes p) (by simp) (by simp)
  | no p => exact reads_literal (.no p) (by simp) (by simp)
  | nan p => exact reads_literal (.nan p) (by simp) (by simp)
  | infinity p => exact reads_literal (.infinity p) (by simp) (by simp)
  | negativeInfinity p => exact reads_literal (.negativeInfinity p) (by simp) (by simp)
  | string text p => exact reads_literal (.string text p) (by simp) (by simp)
  | integer p hv => exact reads_literal (.integer p hv) (by simp) (by simp)
  | decimal text p => exact reads_literal (.decimal text p) (by simp) (by simp)
  | double text p => exact reads_literal (.double text p) (by simp) (by simp)
  | parameter p hn => exact reads_literal (.parameter p hn) (by simp) (by simp)

end Words

end OData.Grammar
