/-
Leaves in depth-first order.  Every node but the root is listed by its parent and by nobody else.
The leaves below a node are found one after the other as their ways from the root are ordered,
each of them once, and a node is consistent if and only if there are any.
-/
import Tableau.Proofs.Construction

namespace Tableau.Tree

variable {tree : Tree} {fuel : Nat} {id m parent child : NodeId}

/-! Parents and children. -/

namespace IsWellGrown

theorem mem_children_iff (h : tree.IsWellGrown) :
    child ∈ tree.children parent ↔ (tree.node child).parent? = some parent := by
  constructor
  · intro hchild
    have hlineage : (tree.node child).lineage = tree.ancestry parent :=
      (h.owns parent child hchild).2
    rw [Node.parent?, hlineage]
    rfl
  · intro hparent
    exact h.coherent.lists_child child parent hparent

/-- Every node but the root has a parent. -/
theorem exists_parent (h : tree.IsWellGrown) (hid : id < tree.size) (hroot : id ≠ NodeId.root) :
    ∃ parent < id, (tree.node id).parent? = some parent := by
  rcases h.coherent.ancestral id with hnil | ⟨parent, hlt, hcons⟩
  · exact absurd (h.coherent.rooted id hid hnil) hroot
  · refine ⟨parent, hlt, ?_⟩
    rw [Node.parent?, show (tree.node id).lineage = _ from hcons]
    rfl

/-- A node is listed once by its parent, and not at all by others. -/
theorem count_children (h : tree.IsWellGrown) (hparent : (tree.node id).parent? = some parent)
    (n : NodeId) : (tree.children n).count id = if n = parent then 1 else 0 := by
  have hnodup : (tree.children n).Nodup := (h.ascending n).imp Nat.ne_of_lt
  rw [hnodup.count]
  refine if_congr ?_ rfl rfl
  rw [h.mem_children_iff, hparent, Option.some_inj]
  exact eq_comm

end IsWellGrown

/-! The order of nodes. -/

/-- In depth-first order one node comes before another: where their ways from the root part, it is
below the earlier child. -/
def Precedes (tree : Tree) (id other : NodeId) : Prop := tree.path id < tree.path other

namespace IsWellGrown

/-- The way to a node starts with the ways to all nodes above it. -/
theorem path_extends (h : tree.IsWellGrown) (hm : m ∈ tree.ancestry id) :
    tree.path m <+: tree.path id :=
  List.reverse_prefix.mpr (h.coherent.ancestral.suffix_of_mem hm)

theorem path_of_mem_children (h : tree.IsWellGrown) (hchild : child ∈ tree.children parent) :
    tree.path child = tree.path parent ++ [child] := by
  rw [path, h.owns.ancestry_eq hchild, List.reverse_cons]
  rfl

/-- What is below an earlier child comes before what is below a later one. -/
theorem precedes_of_siblings (h : tree.IsWellGrown) {earlier later other : NodeId}
    (hearlier : earlier ∈ tree.children parent) (hlater : later ∈ tree.children parent)
    (hlt : earlier < later) (hid : earlier ∈ tree.ancestry id)
    (hother : later ∈ tree.ancestry other) : tree.Precedes id other := by
  obtain ⟨rest, hrest⟩ := h.path_extends hid
  obtain ⟨rest', hrest'⟩ := h.path_extends hother
  rw [Precedes, ← hrest, ← hrest', h.path_of_mem_children hearlier, h.path_of_mem_children hlater,
    List.append_assoc, List.append_assoc]
  apply List.append_left_lt
  exact List.cons_lt_cons_iff.mpr (Or.inl hlt)

/-! Leaves in order. -/

theorem mem_ancestry_of_mem_leavesBelow (h : tree.IsWellGrown) (hm : m ∈ tree.leavesBelow fuel id) :
    id ∈ tree.ancestry m := by
  induction fuel generalizing id with
  | zero => exact absurd hm List.not_mem_nil
  | succ fuel ih =>
      rw [leavesBelow] at hm
      split at hm
      · rw [List.mem_singleton.mp hm]
        exact mem_ancestry_self ..
      · obtain ⟨child, hchild, hmem⟩ := List.mem_flatMap.mp hm
        apply h.coherent.mem_ancestry_trans (ih hmem)
        rw [h.owns.ancestry_eq (List.mem_filter.mp hchild).1]
        exact List.mem_cons_of_mem child (mem_ancestry_self ..)

/-- The leaves below a node are found in depth-first order. -/
theorem pairwise_leavesBelow (h : tree.IsWellGrown) (fuel : Nat) (id : NodeId) :
    (tree.leavesBelow fuel id).Pairwise tree.Precedes := by
  induction fuel generalizing id with
  | zero => exact List.Pairwise.nil
  | succ fuel ih =>
      rw [leavesBelow]
      split
      · exact List.pairwise_singleton ..
      · rw [List.pairwise_flatMap]
        refine ⟨fun child _ => ih child, ?_⟩
        apply List.Pairwise.imp_of_mem _ ((h.ascending id).filter _)
        intro earlier later hearlier hlater hlt d hd e he
        exact h.precedes_of_siblings (List.mem_filter.mp hearlier).1 (List.mem_filter.mp hlater).1
          hlt (h.mem_ancestry_of_mem_leavesBelow hd) (h.mem_ancestry_of_mem_leavesBelow he)

end IsWellGrown

/-- The leaves of every child found on their own are those found in one go. -/
theorem leavesByChild_eq (tree : Tree) (id : NodeId) : tree.leavesByChild id = tree.leaves id := by
  rw [leavesByChild, leaves, collectLeaves_eq, List.nil_append]

theorem IsWellGrown.pairwise_leaves (h : tree.IsWellGrown) (id : NodeId) :
    (tree.leaves id).Pairwise tree.Precedes := by
  rw [← leavesByChild_eq, leavesByChild]
  split
  · exact h.pairwise_leavesBelow tree.size id
  · exact List.Pairwise.nil

/-- A way down without a conflict ends at a leaf. -/
theorem isOpenBelow_iff : tree.isOpenBelow fuel id = true ↔ tree.leavesBelow fuel id ≠ [] := by
  induction fuel generalizing id with
  | zero => simp [isOpenBelow, leavesBelow]
  | succ fuel ih =>
      rw [isOpenBelow, leavesBelow]
      split
      · next hnone => simp [hnone]
      · next hsome => simp [hsome, ih, List.flatMap_eq_nil_iff]

theorem isConsistent_iff_leaves_ne_nil : tree.isConsistent id = true ↔ tree.leaves id ≠ [] := by
  rw [isConsistent, ← leavesByChild_eq, leavesByChild, Bool.and_eq_true, isOpenBelow_iff]
  split
  · next hcons => simp [hcons]
  · next hcons => simp [hcons]

/-- However a tree is built, parents come before their children, and every node but the root is
listed once, by its parent.  The leaves below a node, whether found in one go or child by child,
are the nodes without children at or below it whose branches are consistent, each of them once
and in depth-first order.  There are some if and only if the node is consistent. -/
theorem IsBuilt.leaves_exact (h : tree.IsBuilt) :
    (∀ parent, ∀ child ∈ tree.children parent, parent < child ∧ child < tree.size) ∧
    (∀ parent, (tree.children parent).Pairwise (· < ·)) ∧
    (∀ id < tree.size, id ≠ NodeId.root → ∃ parent < id, (tree.node id).parent? = some parent ∧
      ∀ n, (tree.children n).count id = if n = parent then 1 else 0) ∧
    ∀ id < tree.size,
      tree.leavesByChild id = tree.leaves id ∧ (tree.leaves id).Nodup ∧
      (tree.leaves id).Pairwise tree.Precedes ∧
      (∀ d, d ∈ tree.leaves id ↔ d < tree.size ∧ tree.children d = [] ∧
        tree.isDescendant d id = true ∧ tree.isPathConsistent d = true) ∧
      (tree.isConsistent id = true ↔ tree.leaves id ≠ []) := by
  have hgrown := h.isWellGrown
  refine ⟨fun parent child hchild => ?_, hgrown.ascending, fun id hid hroot => ?_, fun id hid => ?_⟩
  · have hlt := hgrown.coherent.lt_of_mem_children hgrown.owns hchild
    exact ⟨hlt, (hgrown.owns parent child hchild).1⟩
  · obtain ⟨parent, hlt, hparent⟩ := hgrown.exists_parent hid hroot
    exact ⟨parent, hlt, hparent, hgrown.count_children hparent⟩
  · have hordered := hgrown.pairwise_leaves id
    have hnodup : (tree.leaves id).Nodup := hordered.imp fun hlt heq => by
      rw [Precedes, heq] at hlt
      exact List.lt_irrefl _ hlt
    refine ⟨leavesByChild_eq tree id, hnodup, hordered, fun d => ?_, isConsistent_iff_leaves_ne_nil⟩
    rw [hgrown.coherent.mem_leaves hgrown.owns hid, isDescendant_iff]
    constructor
    · rintro ⟨hup, hleaf, hcons⟩
      exact ⟨lt_size_of_mem_ancestry hid hup, hleaf, hup, hcons⟩
    · rintro ⟨-, hleaf, hup, hcons⟩
      exact ⟨hup, hleaf, hcons⟩

/-- Below the first of three children a value is written on an inner node when it has a child
already, which closes that child.  Of the leaves below the root those of the other children are
left, in their order. -/
theorem leaves_exact_after_late_write :
    let A : Sentence := .atom "A"
    let B : Sentence := .atom "B"
    let fork := ((ofRoot {}).addChildren 0
      [Assignment.ofFacts [⟨A, true⟩] 1, Assignment.ofFacts [⟨A, false⟩] 1, {}]).1
    let deeper := ((fork.addChildren 1 [Assignment.ofFacts [⟨B, true⟩] 2]).1.addChildren 2 [{}]).1
    let tree := (set 1 B false 3 deeper).1
    tree.IsBuilt ∧ deeper.leaves 0 = [4, 5, 3] ∧ tree.leaves 0 = [5, 3] ∧ (tree.leaves 0).Nodup ∧
      tree.Precedes 5 3 ∧ tree.isConsistent 0 = true ∧ tree.isConsistent 1 = false := by
  intro A B fork deeper tree
  have hfork : fork.IsBuilt := (IsBuilt.ofRoot {}).addChildren (by decide) _
  have hdeeper : deeper.IsBuilt := (hfork.addChildren (by decide) _).addChildren (by decide) _
  have hbuilt : tree.IsBuilt := hdeeper.set (by decide) B false 3
  have hleaves : tree.leaves 0 = [5, 3] := by decide +kernel
  have hnone : tree.leaves 1 = [] := by decide +kernel
  obtain ⟨-, -, -, hexact⟩ := hbuilt.leaves_exact
  obtain ⟨-, hnodup, hordered, -, hopen⟩ := hexact 0 (by decide)
  obtain ⟨-, -, -, -, hclosed⟩ := hexact 1 (by decide)
  refine ⟨hbuilt, by decide +kernel, hleaves, hnodup, ?_, hopen.mpr (by simp [hleaves]), ?_⟩
  · rw [hleaves] at hordered
    exact (List.pairwise_cons.mp hordered).1 3 (by simp)
  · rw [← Bool.not_eq_true, hclosed]
    simp [hnone]

end Tableau.Tree
