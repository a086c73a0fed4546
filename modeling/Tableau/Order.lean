/-
Lists without repetition and lists in the order of a relation.
-/
namespace Tableau

variable {α : Type}

/-- The elements of a list that are not in `seen`, without repetition and in the
order of their first occurrences. -/
@[specialize]
def unseen [DecidableEq α] (seen : List α) : List α → List α
  | [] => []
  | x :: xs => if seen.any (· = x) then unseen seen xs else x :: unseen (x :: seen) xs

/-- The elements of a list without repetition, in the order of their first
occurrences. -/
@[inline]
def distinct [DecidableEq α] (xs : List α) : List α := unseen [] xs

/-- Joins two ordered lists.  Of two elements that may both precede each other,
the one of the first list comes first. -/
def joinBy (before : α → α → Bool) : List α → List α → List α
  | [], ys => ys
  | xs, [] => xs
  | x :: xs, y :: ys =>
      if before x y then x :: joinBy before xs (y :: ys) else y :: joinBy before (x :: xs) ys
termination_by xs ys => xs.length + ys.length

/-- Orders both halves of a list and joins them.  A list is halved no more often
than it has elements. -/
def sortWithin (before : α → α → Bool) : (fuel : Nat) → List α → List α
  | 0, xs => xs
  | _ + 1, [] => []
  | _ + 1, [x] => [x]
  | fuel + 1, x :: y :: rest =>
      let xs := x :: y :: rest
      let half := (xs.length + 1) / 2
      joinBy before (sortWithin before fuel (xs.take half)) (sortWithin before fuel (xs.drop half))

/-- The elements of a list in the order of a relation; elements that the
relation ties keep their order. -/
def sortBy (before : α → α → Bool) (xs : List α) : List α := sortWithin before xs.length xs

theorem mem_unseen [DecidableEq α] {a : α} {seen xs : List α} :
    a ∈ unseen seen xs ↔ a ∈ xs ∧ a ∉ seen := by
  induction xs generalizing seen with
  | nil => simp [unseen]
  | cons x xs ih => grind [unseen]

theorem nodup_unseen [DecidableEq α] (seen xs : List α) : (unseen seen xs).Nodup := by
  induction xs generalizing seen with
  | nil => simp [unseen]
  | cons x xs ih =>
      unfold unseen
      split
      · exact ih seen
      · exact List.nodup_cons.mpr ⟨by simp [mem_unseen], ih _⟩

@[simp]
theorem mem_distinct [DecidableEq α] {a : α} {xs : List α} :
    a ∈ distinct xs ↔ a ∈ xs := by
  simp [distinct, mem_unseen]

theorem nodup_distinct [DecidableEq α] (xs : List α) : (distinct xs).Nodup := nodup_unseen ..

theorem joinBy_eq (before : α → α → Bool) (xs ys : List α) :
    joinBy before xs ys = xs.merge ys before := by
  fun_induction joinBy before xs ys with
  | case1 ys => simp
  | case2 xs => simp
  | case3 x xs y ys h ih => simp [h, ih]
  | case4 x xs y ys h ih => simp [h, ih]

theorem sortWithin_eq (before : α → α → Bool) {fuel : Nat} {xs : List α} (h : xs.length ≤ fuel) :
    sortWithin before fuel xs = xs.mergeSort before := by
  induction fuel generalizing xs with
  | zero => simp [List.length_eq_zero_iff.mp (Nat.le_zero.mp h), sortWithin]
  | succ fuel ih =>
      match xs, h with
      | [], _ => simp [sortWithin]
      | [x], _ => simp [sortWithin]
      | x :: y :: rest, h =>
          simp only [List.length_cons] at h
          rw [sortWithin, List.mergeSort, joinBy_eq,
            ih (by simp only [List.length_take, List.length_cons]; omega),
            ih (by simp only [List.length_drop, List.length_cons]; omega)]
          simp only [List.MergeSort.Internal.splitInTwo_fst,
            List.MergeSort.Internal.splitInTwo_snd]

/-- `sortBy` is the stable merge sort. -/
theorem sortBy_eq (before : α → α → Bool) (xs : List α) :
    sortBy before xs = xs.mergeSort before :=
  sortWithin_eq before (Nat.le_refl _)

theorem perm_sortBy (before : α → α → Bool) (xs : List α) : (sortBy before xs).Perm xs := by
  rw [sortBy_eq]
  exact List.mergeSort_perm xs before

@[simp]
theorem mem_sortBy {before : α → α → Bool} {a : α} {xs : List α} :
    a ∈ sortBy before xs ↔ a ∈ xs := by
  simp [sortBy_eq]

end Tableau
