import OData.Text.Blank
import OData.Text.Nesting
import OData.Text.Quoted

/-!
# Cutting nested text

What the scans of raw text do with texts that are put together from parts.  A scan
goes through a part from the state it comes in with (`after`), and as long as the part
has no exposed separator it is not cut there (`cut_append`, `pieces_append`).  So a
list of parts that leave nothing open and expose no separator is what the text joined
from them is split into (`split_append`), and all parts of a text that is split are
such (`unexposed_of_mem_split`).

A text is **closed** when its quotes and parentheses all close and no parenthesis
closes that it has not opened.  In a group, a closed text exposes nothing and ends
where the group ends.
-/
namespace OData.Text
namespace Nesting
variable {c sep : Char} {n m : Nesting} {s t : List Char}

/-! ## Scanning parts -/

@[simp] theorem after_nil (n : Nesting) : n.after [] = n := rfl

@[simp] theorem after_cons (n : Nesting) (c : Char) (s : List Char) :
    n.after (c :: s) = (n.next c).after s := rfl

@[simp] theorem after_append (n : Nesting) (s t : List Char) :
    n.after (s ++ t) = (n.after s).after t := List.foldl_append ..

theorem cut_append (h : cut c n s = none) :
    cut c n (s ++ t) = (cut c (n.after s) t).map fun p => (s ++ p.1, p.2) := by
  induction s generalizing n with
  | nil => simp
  | cons d s ih =>
    rw [cut] at h
    split at h
    · cases h
    · next hd =>
      rw [Option.map_eq_none_iff] at h
      rw [List.cons_append, cut, if_neg hd, ih h, after_cons, Option.map_map]
      rfl

theorem cut_append_eq_none :
    cut c n (s ++ t) = none ↔ cut c n s = none ∧ cut c (n.after s) t = none := by
  constructor
  · intro h
    induction s generalizing n with
    | nil => exact ⟨rfl, h⟩
    | cons d s ih =>
      rw [List.cons_append, cut] at h
      split at h
      · cases h
      · next hd =>
        obtain ⟨hs, ht⟩ := ih (Option.map_eq_none_iff.1 h)
        exact ⟨by rw [cut, if_neg hd, hs]; rfl, ht⟩
  · rintro ⟨hs, ht⟩
    rw [cut_append hs, ht]
    rfl

theorem pieces_append (h : cut c n s = none) :
    pieces c n (s ++ t) =
      (s ++ (pieces c (n.after s) t).1, (pieces c (n.after s) t).2) := by
  induction s generalizing n with
  | nil => rfl
  | cons d s ih =>
    rw [cut] at h
    split at h
    · cases h
    · next hd =>
      rw [Option.map_eq_none_iff] at h
      rw [List.cons_append, pieces, ih h]
      simp only [if_neg hd]
      rfl

/-! ## Separators -/

/-- **A character that separates**: exposed wherever nothing is open, and it opens nothing. -/
structure IsSeparator (sep : Char) : Prop where
  exposes : start.exposes sep = true
  next : start.next sep = start

theorem isSeparator_ampersand : IsSeparator '&' := ⟨by decide, by decide⟩

theorem isSeparator_semicolon : IsSeparator ';' := ⟨by decide, by decide⟩

theorem isSeparator_comma : IsSeparator ',' := ⟨by decide, by decide⟩

theorem isSeparator_question : IsSeparator '?' := ⟨by decide, by decide⟩

theorem exposes_eq_start (h : n.exposes c = true) : n = start := by
  simp only [exposes, Bool.and_eq_true, beq_iff_eq] at h
  exact h.1.1

theorem cut_cons (hsep : IsSeparator sep) : cut sep start (sep :: t) = some ([], t) := by
  rw [cut, hsep.exposes]
  simp

theorem pieces_cons (hsep : IsSeparator sep) :
    pieces sep start (sep :: t) = ([], split sep t) := by
  rw [pieces, hsep.exposes, hsep.next]
  simp [split]

/-- **A part that leaves nothing open is cut off** at the separator after it. -/
theorem split_append (hsep : IsSeparator sep) (hs : cut sep start s = none)
    (hn : start.after s = start) : split sep (s ++ sep :: t) = s :: split sep t := by
  rw [split, pieces_append hs, hn, pieces_cons hsep, List.append_nil]

theorem split_of_cut_eq_none (h : cut sep start s = none) : split sep s = [s] := by
  have := pieces_append (t := []) h
  rw [List.append_nil] at this
  rw [split, this]
  simp [pieces]

theorem cut_append_cons (hsep : IsSeparator sep) (hs : cut sep start s = none)
    (hn : start.after s = start) : cut sep start (s ++ sep :: t) = some (s, t) := by
  rw [cut_append hs, hn, cut_cons hsep]
  simp

/-- No part of a text has an exposed separator. -/
theorem unexposed_of_mem_split (hsep : IsSeparator sep) {p : List Char}
    (hp : p ∈ split sep s) : cut sep start p = none := by
  -- Behind an exposed separator nothing is open, so each further piece starts from the start.
  have key : ∀ (s : List Char) (n : Nesting), cut sep n (pieces sep n s).1 = none ∧
      ∀ p ∈ (pieces sep n s).2, cut sep start p = none := by
    intro s
    induction s with
    | nil => exact fun n => ⟨rfl, by simp [pieces]⟩
    | cons c s ih =>
      intro n
      obtain ⟨hf, ho⟩ := ih (n.next c)
      rw [pieces]
      by_cases hc : (n.exposes c && c == sep) = true
      · simp only [if_pos hc]
        refine ⟨rfl, List.forall_mem_cons.2 ⟨?_, ho⟩⟩
        simp only [Bool.and_eq_true, beq_iff_eq] at hc
        obtain ⟨he, rfl⟩ := hc
        have hn : n.next c = start := by rw [exposes_eq_start he, hsep.next]
        rw [hn] at hf ⊢
        exact hf
      · simp only [if_neg hc]
        exact ⟨by rw [cut, if_neg hc, hf]; rfl, ho⟩
  obtain ⟨hf, ho⟩ := key s start
  rcases List.mem_cons.1 hp with rfl | hp
  · exact hf
  · exact ho p hp

/-! ## Plain text -/

/-- A character that neither quotes nor opens nor closes. -/
def IsPlain (c : Char) : Prop := isQuote c = false ∧ c ≠ '(' ∧ c ≠ ')'

theorem next_of_isPlain (hc : IsPlain c) (hn : n.quote = none) : n.next c = n := by
  obtain ⟨hq, ho, hcl⟩ := hc
  unfold next
  simp [hn, hq, ho, hcl]

theorem after_of_isPlain (hs : ∀ c ∈ s, IsPlain c) (hn : n.quote = none) : n.after s = n := by
  induction s with
  | nil => rfl
  | cons c s ih =>
    rw [after_cons, next_of_isPlain (hs c (by simp)) hn]
    exact ih fun d hd => hs d (by simp [hd])

theorem cut_of_notMem (hs : sep ∉ s) : cut sep n s = none := by
  induction s generalizing n with
  | nil => rfl
  | cons c s ih =>
    simp only [List.mem_cons, not_or] at hs
    rw [cut, if_neg (by simp [Ne.symm hs.1]), ih hs.2]
    rfl

theorem isPlain_of_isBlank (h : isBlank c = true) : IsPlain c := by
  refine ⟨?_, ?_, ?_⟩
  · rw [isQuote, Bool.or_eq_false_iff, beq_eq_false_iff_ne, beq_eq_false_iff_ne]
    constructor <;> (rintro rfl; exact absurd h (by decide))
  all_goals
    rintro rfl
    exact absurd h (by decide)

/-! ## Closed text -/

/-- The state after a text, unless a parenthesis closes that was not open. -/
def scan? (n : Nesting) : List Char → Option Nesting
  | [] => some n
  | c :: r => if n.quote = none ∧ n.depth = 0 ∧ c = ')' then none else scan? (n.next c) r

theorem scan?_append (n : Nesting) (s t : List Char) :
    n.scan? (s ++ t) = (n.scan? s).bind fun m => m.scan? t := by
  induction s generalizing n with
  | nil => rfl
  | cons c s ih =>
    rw [List.cons_append, scan?, scan?]
    split
    · rfl
    · exact ih _

theorem after_of_scan? (h : n.scan? s = some m) : n.after s = m := by
  induction s generalizing n with
  | nil => exact Option.some.inj h
  | cons c s ih =>
    rw [scan?] at h
    split at h
    · cases h
    · exact ih h

/-- The state of the same place in a group. -/
def deeper (n : Nesting) : Nesting := ⟨n.depth + 1, n.quote⟩

theorem next_deeper (h : ¬ (n.quote = none ∧ n.depth = 0 ∧ c = ')')) :
    n.deeper.next c = (n.next c).deeper := by
  obtain ⟨depth, quote⟩ := n
  cases quote with
  | some q =>
    by_cases hc : c = q <;> simp [next, deeper, hc]
  | none =>
    by_cases hquote : isQuote c = true
    · simp [next, deeper, hquote]
    · by_cases hcl : c = ')'
      · subst hcl
        obtain ⟨depth, rfl⟩ := Nat.exists_eq_succ_of_ne_zero fun hd : depth = 0 => h ⟨rfl, hd, rfl⟩
        rfl
      · by_cases ho : c = '('
        · subst ho
          rfl
        · simp [next, deeper, hquote, ho, hcl]

theorem scan?_deeper (h : n.scan? s = some m) : n.deeper.scan? s = some m.deeper := by
  induction s generalizing n with
  | nil =>
    cases h
    rfl
  | cons c s ih =>
    rw [scan?] at h
    split at h
    · cases h
    · next hc =>
      rw [scan?, if_neg (by simp [deeper]), next_deeper hc]
      exact ih h

/-- In a group nothing is exposed. -/
theorem cut_deeper (h : n.scan? s = some m) : cut sep n.deeper s = none := by
  induction s generalizing n with
  | nil => rfl
  | cons c s ih =>
    rw [scan?] at h
    split at h
    · cases h
    · next hc =>
      have hne : n.deeper.exposes c = false := by
        have : n.deeper ≠ start := by simp [deeper, start]
        simp [exposes, this]
      rw [cut, hne, next_deeper hc, ih h]
      rfl

end Nesting

/-- **A text without exposed separators**, which is nowhere taken apart. -/
def Unexposed (sep : Char) (s : List Char) : Prop := Nesting.cut sep Nesting.start s = none

/-- **A closed text.** -/
def IsClosed (s : List Char) : Prop := Nesting.start.scan? s = some Nesting.start

namespace IsClosed
open Nesting
variable {s t : List Char}

theorem after (h : IsClosed s) : start.after s = start := after_of_scan? h

theorem append (hs : IsClosed s) (ht : IsClosed t) : IsClosed (s ++ t) := by
  unfold IsClosed at *
  rw [scan?_append, hs]
  exact ht

theorem nil : IsClosed [] := rfl

theorem of_isPlain (hs : ∀ c ∈ s, IsPlain c) : IsClosed s := by
  induction s with
  | nil => rfl
  | cons c s ih =>
    have hc := hs c (by simp)
    rw [IsClosed, scan?, if_neg (by simp [hc.2.2]), next_of_isPlain hc rfl]
    exact ih fun d hd => hs d (by simp [hd])

/-- A closed text in parentheses is closed. -/
theorem group (h : IsClosed s) : IsClosed ('(' :: (s ++ [')'])) := by
  have hopen : start.next '(' = start.deeper := rfl
  rw [IsClosed, scan?, if_neg (by decide), hopen, scan?_append, scan?_deeper h]
  rfl

/-- A group with closed text in it exposes nothing but its parenthesis. -/
theorem cut_group {sep : Char} (h : IsClosed s) (hsep : sep ≠ '(') :
    cut sep start ('(' :: (s ++ [')'])) = none := by
  have hopen : start.next '(' = start.deeper := rfl
  have hclose : cut sep start.deeper [')'] = none := rfl
  rw [cut, if_neg (by simp [Ne.symm hsep]), hopen,
    cut_append_eq_none.2 ⟨cut_deeper h, by rwa [after_of_scan? (scan?_deeper h)]⟩]
  rfl

end IsClosed

/-! ## The end of a group -/

namespace Nesting
variable {n : Nesting} {c : Char}

/-- The search for the end of a group goes as the scan does.  It ends with the parenthesis that
brings the scan back to the start; after any other character the scan is in the group still, and the
search goes on with its state. -/
theorem close_cons (hd : 0 < n.depth) (c : Char) (r : List Char) :
    (c = ')' ∧ n.next c = start ∧ close n.depth n.quote (c :: r) = .closed [] r) ∨
      0 < (n.next c).depth ∧
        close n.depth n.quote (c :: r) = (close (n.next c).depth (n.next c).quote r).cons c := by
  obtain ⟨depth, quote⟩ := n
  cases quote with
  | some q => by_cases hc : c = q <;> exact .inr (by simpa [close, next, hc] using hd)
  | none =>
    by_cases hquote : c = '\'' ∨ c = '"'
    · have hq : isQuote c = true := by simpa [isQuote] using hquote
      exact .inr (by simpa [close, next, hquote, hq] using hd)
    · have hq : isQuote c = false := by simpa [isQuote] using hquote
      by_cases ho : c = '('
      · exact .inr (by simp [close, next, ho, isQuote])
      · by_cases hcl : c = ')'
        · subst hcl
          -- The last parenthesis open is the group's own.
          obtain _ | _ | depth := depth
          · exact absurd hd (Nat.lt_irrefl 0)
          · exact .inl ⟨rfl, rfl, rfl⟩
          · exact .inr ⟨Nat.succ_pos depth, rfl⟩
        · exact .inr (by simpa [close, next, hquote, hq, ho, hcl] using hd)

end Nesting

/-- The end of a group is found behind the closed text in it. -/
theorem close_append {s r : List Char} (h : IsClosed s) :
    close 1 none (s ++ ')' :: r) = .closed s r := by
  -- The search counts the group's own parenthesis, which the scan of the inside does not.
  have key : ∀ (s : List Char) (n : Nesting), n.scan? s = some Nesting.start →
      close n.deeper.depth n.deeper.quote (s ++ ')' :: r) = .closed s r := by
    intro s
    induction s with
    | nil =>
      intro n hn
      cases hn
      rfl
    | cons c s ih =>
      intro n hn
      rw [Nesting.scan?] at hn
      split at hn
      · cases hn
      · next hc =>
        have hne : (n.next c).deeper ≠ Nesting.start := by simp [Nesting.deeper, Nesting.start]
        have hstep := Nesting.close_cons (n := n.deeper) (Nat.succ_pos _) c (s ++ ')' :: r)
        rw [Nesting.next_deeper hc] at hstep
        rcases hstep with ⟨-, hstart, -⟩ | ⟨-, hcons⟩
        · exact absurd hstart hne
        · rw [List.cons_append, hcons, ih _ hn]
          rfl
  exact key s Nesting.start h

/-! ## Text between separators -/

/-- **A text that can stand between separators**: it is closed and exposes none. -/
def Fits (sep : Char) (s : List Char) : Prop := IsClosed s ∧ Unexposed sep s

namespace Fits
open Nesting
variable {sep : Char} {s t : List Char}

theorem nil : Fits sep [] := ⟨.nil, rfl⟩

theorem append (hs : Fits sep s) (ht : Fits sep t) : Fits sep (s ++ t) :=
  ⟨hs.1.append ht.1, cut_append_eq_none.2 ⟨hs.2, by rw [hs.1.after]; exact ht.2⟩⟩

theorem of_isPlain (hs : ∀ c ∈ s, IsPlain c ∧ c ≠ sep) : Fits sep s :=
  ⟨.of_isPlain fun c hc => (hs c hc).1, cut_of_notMem fun h => (hs sep h).2 rfl⟩

theorem group (hs : IsClosed s) (hsep : sep ≠ '(') : Fits sep ('(' :: (s ++ [')'])) :=
  ⟨hs.group, hs.cut_group hsep⟩

/-- A written string exposes nothing: a pair of quotes in it closes and opens again. -/
theorem written (s : List Char) : Fits sep (Quoted.written s) := by
  have hopen : start.next Quoted.mark = ⟨0, some Quoted.mark⟩ := by decide
  have hclose : (⟨0, some Quoted.mark⟩ : Nesting).next Quoted.mark = start := by decide
  have hmark : start.exposes Quoted.mark = false := by decide
  have hin : ∀ c, (⟨0, some Quoted.mark⟩ : Nesting).exposes c = false := by
    intro c
    simp [exposes, start]
  have key : ∀ s : List Char,
      (⟨0, some Quoted.mark⟩ : Nesting).scan? (Quoted.encode s ++ [Quoted.mark]) = some start ∧
        cut sep ⟨0, some Quoted.mark⟩ (Quoted.encode s ++ [Quoted.mark]) = none := by
    intro s
    induction s with
    | nil => exact ⟨rfl, by simp [Quoted.encode, cut, hin]⟩
    | cons c s ih =>
      by_cases hc : c = Quoted.mark
      · have henc : Quoted.encode (c :: s) = Quoted.mark :: Quoted.mark :: Quoted.encode s := by
          rw [Quoted.encode, if_pos hc]
        have hne : ¬ Quoted.mark = ')' := by decide
        simp [henc, scan?, cut, hin, hmark, hclose, hopen, ih, hne]
      · have henc : Quoted.encode (c :: s) = c :: Quoted.encode s := by
          rw [Quoted.encode, if_neg hc]
        have hnext : (⟨0, some Quoted.mark⟩ : Nesting).next c = ⟨0, some Quoted.mark⟩ := by
          simp [next, hc]
        simp [henc, scan?, cut, hin, hnext, ih]
  have hne : ¬ Quoted.mark = ')' := by decide
  obtain ⟨hscan, hcut⟩ := key s
  refine ⟨?_, ?_⟩
  · rw [IsClosed, Quoted.written, scan?, if_neg (by simp [hne]), hopen, hscan]
  · rw [Unexposed, Quoted.written, cut, hmark, hopen, hcut]
    rfl

end Fits

end OData.Text
