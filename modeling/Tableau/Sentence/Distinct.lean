/-
Sentences without repetition.  Those seen are kept in a table, so that long lists
of sentences pose no problem.
-/
import Tableau.Order
import Tableau.Table

namespace Tableau.Sentence

/-- The sentences of a list that are not in the table `seen`, without repetition
and in the order of their first occurrences. -/
def notIn (seen : Table Unit) : List Sentence → List Sentence
  | [] => []
  | x :: xs =>
      let k := x.key
      if (seen.find? k).isSome then
        notIn seen xs
      else
        x :: notIn (seen.alter k () fun _ => ((), true)).1 xs

/-- The sentences of a list without repetition, in the order of their first
occurrences. -/
def distinct (xs : List Sentence) : List Sentence := notIn {} xs

/-- It does not matter whether those seen are kept in a table or in a list. -/
theorem notIn_eq {seen : Table Unit} {list : List Sentence}
    (h : ∀ k, (seen.find? k).isSome = true ↔ k.sentence ∈ list) (xs : List Sentence) :
    notIn seen xs = unseen list xs := by
  induction xs generalizing seen list with
  | nil => rfl
  | cons x xs ih =>
      have hx : (seen.find? x.key).isSome = list.any (· = x) := by
        rw [Bool.eq_iff_iff, h]
        simp
      simp only [notIn, unseen, hx]
      split
      · exact ih h
      · rw [ih]
        intro k
        rw [Table.find?_alter]
        split
        · next hk => simp [hk]
        · next hk =>
            have hne : k.sentence ≠ x := fun hkx => hk (Key.eq_iff.mpr hkx)
            simp [h, hne]

theorem distinct_eq (xs : List Sentence) : distinct xs = Tableau.distinct xs :=
  notIn_eq (by simp) xs

@[simp]
theorem mem_distinct {x : Sentence} {xs : List Sentence} : x ∈ distinct xs ↔ x ∈ xs := by
  simp [distinct_eq, Tableau.mem_distinct]

end Tableau.Sentence
