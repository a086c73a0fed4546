/-
Lineages: lists of proper ancestors, the parent first.  Sorts and nodes are
numbered in the order of creation, and both carry their lineages along.  What is
proved here of lineages in general holds of both.
-/
namespace Tableau

/-- A lineage is empty, or it is an earlier parent with the parent's own
lineage. -/
def Ancestral (lineage : Nat → List Nat) : Prop :=
  ∀ i, lineage i = [] ∨ ∃ parent < i, lineage i = parent :: lineage parent

namespace Ancestral

variable {lineage : Nat → List Nat}

theorem lt_of_mem (h : Ancestral lineage) {i a : Nat} (ha : a ∈ lineage i) : a < i := by
  induction i using Nat.strongRecOn with
  | ind i ih =>
      rcases h i with hnil | ⟨parent, hlt, hcons⟩
      · simp [hnil] at ha
      · rw [hcons, List.mem_cons] at ha
        rcases ha with rfl | ha
        · exact hlt
        · exact Nat.lt_trans (ih parent hlt ha) hlt

/-- Every lineage goes back to earlier and earlier positions. -/
theorem pairwise (h : Ancestral lineage) (i : Nat) :
    (i :: lineage i).Pairwise fun later earlier => earlier < later := by
  induction i using Nat.strongRecOn with
  | ind i ih =>
      rw [List.pairwise_cons]
      refine ⟨fun a ha => h.lt_of_mem ha, ?_⟩
      rcases h i with hnil | ⟨parent, hlt, hcons⟩
      · rw [hnil]
        exact List.Pairwise.nil
      · rw [hcons]
        exact ih parent hlt

/-- Behind every ancestor come its own ancestors. -/
theorem suffix_of_mem (h : Ancestral lineage) {i a : Nat} (ha : a ∈ i :: lineage i) :
    (a :: lineage a) <:+ (i :: lineage i) := by
  induction i using Nat.strongRecOn with
  | ind i ih =>
      rcases List.mem_cons.mp ha with rfl | ha
      · exact List.suffix_rfl
      · rcases h i with hnil | ⟨parent, hlt, hcons⟩
        · simp [hnil] at ha
        · rw [hcons] at ha ⊢
          exact (ih parent hlt ha).trans (List.suffix_cons i _)

/-- Ancestors of ancestors are ancestors. -/
theorem mem_trans (h : Ancestral lineage) {i a b : Nat} (ha : a ∈ i :: lineage i)
    (hb : b ∈ a :: lineage a) : b ∈ i :: lineage i :=
  (h.suffix_of_mem ha).subset hb

/-- Of two ancestors of one position, one is an ancestor of the other. -/
theorem mem_or_mem (h : Ancestral lineage) {i a b : Nat} (ha : a ∈ i :: lineage i)
    (hb : b ∈ i :: lineage i) : b ∈ a :: lineage a ∨ a ∈ b :: lineage b := by
  induction i using Nat.strongRecOn with
  | ind i ih =>
      rcases List.mem_cons.mp ha with rfl | ha
      · exact Or.inl hb
      · rcases List.mem_cons.mp hb with rfl | hb
        · exact Or.inr (List.mem_cons_of_mem b ha)
        · rcases h i with hnil | ⟨parent, hlt, hcons⟩
          · simp [hnil] at ha
          · rw [hcons] at ha hb
            exact ih parent hlt ha hb

/-- An ancestor is the parent of somebody on the way up to it. -/
theorem exists_child (h : Ancestral lineage) {i a : Nat} (ha : a ∈ lineage i) :
    ∃ child ∈ i :: lineage i, lineage child = a :: lineage a := by
  induction i using Nat.strongRecOn with
  | ind i ih =>
      rcases h i with hnil | ⟨parent, hlt, hcons⟩
      · simp [hnil] at ha
      · rw [hcons] at ha
        rcases List.mem_cons.mp ha with rfl | ha
        · exact ⟨i, List.mem_cons_self, hcons⟩
        · obtain ⟨child, hchild, heq⟩ := ih parent hlt ha
          refine ⟨child, ?_, heq⟩
          rw [hcons]
          exact List.mem_cons_of_mem i hchild

end Ancestral

end Tableau
