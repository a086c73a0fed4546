/-
Sorting by numbers.  Elements with the same number keep their order, so a list that is sorted by
numbers is determined by its elements of each number.  It makes no difference whether elements are
selected before or after sorting.
-/
import Mathlib.Data.List.Basic
import Tableau.Lexicon.Basic

namespace Tableau

section

variable {α : Type} {f : α → Nat} {xs ys : List α}

theorem byNumber_trans (f : α → Nat) (a b c : α) (h : decide (f a ≤ f b) = true)
    (h' : decide (f b ≤ f c) = true) : decide (f a ≤ f c) = true :=
  decide_eq_true (Nat.le_trans (of_decide_eq_true h) (of_decide_eq_true h'))

theorem byNumber_total (f : α → Nat) (a b : α) :
    (decide (f a ≤ f b) || decide (f b ≤ f a)) = true := by
  rcases Nat.le_total (f a) (f b) with h | h <;> simp [h]

theorem pairwise_sortBy (f : α → Nat) (xs : List α) :
    (sortBy (fun a b => f a ≤ f b) xs).Pairwise fun a b => f a ≤ f b := by
  rw [sortBy_eq]
  exact (List.pairwise_mergeSort (byNumber_trans f) (byNumber_total f) xs).imp of_decide_eq_true

/-- The elements with one number keep their order. -/
theorem filter_number_sortBy (f : α → Nat) (xs : List α) (n : Nat) :
    (sortBy (fun a b => f a ≤ f b) xs).filter (f · = n) = xs.filter (f · = n) := by
  have hequal : (xs.filter (f · = n)).Pairwise fun a b => decide (f a ≤ f b) = true := by
    refine List.pairwise_of_forall_mem_list fun a ha b hb => ?_
    rw [List.mem_filter, decide_eq_true_eq] at ha hb
    exact decide_eq_true (Nat.le_of_eq (ha.2.trans hb.2.symm))
  have hsublist : (xs.filter (f · = n)).Sublist (sortBy (fun a b => f a ≤ f b) xs) := by
    rw [sortBy_eq]
    exact List.sublist_mergeSort (byNumber_trans f) (byNumber_total f) hequal List.filter_sublist
  have hlength := ((perm_sortBy (fun a b => f a ≤ f b) xs).filter (f · = n)).length_eq
  have hkept := hsublist.filter (f · = n)
  rw [List.filter_filter] at hkept
  simp only [Bool.and_self] at hkept
  exact (hkept.eq_of_length hlength.symm).symm

/-- Lists that are sorted by numbers are equal if they have the same elements of each number, in the
same order. -/
theorem eq_of_filter_number (hxs : xs.Pairwise fun a b => f a ≤ f b)
    (hys : ys.Pairwise fun a b => f a ≤ f b)
    (h : ∀ n, xs.filter (f · = n) = ys.filter (f · = n)) : xs = ys := by
  induction xs generalizing ys with
  | nil =>
      cases ys with
      | nil => rfl
      | cons y ys => simpa using h (f y)
  | cons x xs ih =>
      cases ys with
      | nil => simpa using h (f x)
      | cons y ys =>
          obtain ⟨hx, hxs'⟩ := List.pairwise_cons.mp hxs
          obtain ⟨hy, hys'⟩ := List.pairwise_cons.mp hys
          have hmem : ∀ z, z ∈ x :: xs ↔ z ∈ y :: ys := by
            intro z
            have hz := congrArg (z ∈ ·) (h (f z))
            simpa using hz
          have hnumber : f x = f y := by
            have hle : f y ≤ f x := by
              rcases List.mem_cons.mp ((hmem x).mp List.mem_cons_self) with rfl | hmem
              · exact Nat.le_refl _
              · exact hy x hmem
            have hge : f x ≤ f y := by
              rcases List.mem_cons.mp ((hmem y).mpr List.mem_cons_self) with rfl | hmem
              · exact Nat.le_refl _
              · exact hx y hmem
            exact Nat.le_antisymm hge hle
          obtain ⟨rfl, -⟩ : x = y ∧ _ := by simpa [hnumber] using h (f x)
          refine congrArg (x :: ·) (ih hxs' hys' fun n => ?_)
          have hn := h n
          by_cases heq : f x = n
          · simpa [heq] using hn
          · simpa [heq] using hn

/-- Elements may be selected before or after sorting. -/
theorem filter_sortBy (f : α → Nat) (p : α → Bool) (xs : List α) :
    (sortBy (fun a b => f a ≤ f b) xs).filter p = sortBy (fun a b => f a ≤ f b) (xs.filter p) := by
  refine eq_of_filter_number ((pairwise_sortBy f xs).filter p) (pairwise_sortBy f _) fun n => ?_
  rw [List.filter_comm, filter_number_sortBy, filter_number_sortBy, List.filter_comm]

end

theorem Lexicon.filter_arrangeKeys (lex : Lexicon) (p : Key → Bool) (keys : List Key) :
    (lex.arrangeKeys keys).filter p = lex.arrangeKeys (keys.filter p) := by
  unfold arrangeKeys
  simp only
  rw [List.filter_map, filter_sortBy, List.filter_map]
  rfl

end Tableau
