/-!
# Keywords

A closed vocabulary is a type whose values are written as words: operators,
functions, options and so on.  `Keyword` says which values there are and what word
each is; that no two values share a word belongs to the instance, so a word stands
for at most one value and `Keyword.find?` undoes `Keyword.word`.

Words are compared exactly.  Case matters: `IsOf` is a function, `isof` is not.
-/

namespace OData

/-- **A closed vocabulary**: its values and their words. -/
class Keyword (α : Type) where
  /-- All the values. -/
  all : List α
  /-- The word that stands for a value. -/
  word : α → String
  /-- No value is missing from the list. -/
  mem_all : ∀ a : α, a ∈ all
  /-- Different values have different words. -/
  nodup_words : (all.map word).Nodup

namespace Keyword
variable {α : Type} [Keyword α]

/-- **The value that a word stands for**, if there is one. -/
def find? (w : String) : Option α := (all : List α).find? fun a => word a == w

/-- A value is found by its word only. -/
theorem word_of_find? {w : String} {a : α} (h : find? w = some a) : word a = w := by
  simpa using List.find?_some h

/-- Values with the same word are the same. -/
theorem eq_of_word_eq {a b : α} (h : word a = word b) : a = b := by
  have key : ∀ l : List α, (l.map word).Nodup → a ∈ l → b ∈ l → a = b := by
    intro l
    induction l with
    | nil => intro _ ha; cases ha
    | cons c r ih =>
      intro hn ha hb
      simp only [List.map_cons, List.nodup_cons, List.mem_map, not_exists, not_and] at hn
      rcases List.mem_cons.1 ha with rfl | ha' <;> rcases List.mem_cons.1 hb with rfl | hb'
      · rfl
      · exact absurd h.symm (hn.1 b hb')
      · exact absurd h (hn.1 a ha')
      · exact ih hn.2 ha' hb'
  exact key all nodup_words (mem_all a) (mem_all b)

/-- Every value is found by its word. -/
@[simp] theorem find?_word (a : α) : find? (word a) = some a := by
  cases h : (find? (word a) : Option α) with
  | none =>
    have := List.find?_eq_none.1 h a (mem_all a)
    simp at this
  | some b => rw [eq_of_word_eq (word_of_find? h)]

/-- A word stands for a value exactly if it is the value's word. -/
theorem find?_eq_some_iff {w : String} {a : α} : find? w = some a ↔ w = word a :=
  ⟨fun h => (word_of_find? h).symm, fun h => h ▸ find?_word a⟩

end Keyword

end OData
