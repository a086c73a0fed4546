/-
Trees as they are built.  A tree starts with its root, gets children below any of its nodes, and
facts, marks and terms at any of them, in any order.  However it is built, its nodes hang
together, and a branch either is consistent, and then says of every sentence what its nearest
node says, or it has a first conflict.
-/
import Tableau.Proofs.Leaves

namespace Tableau.Tree

variable {tree tree' : Tree} {id : NodeId}

/-- The trees that can be built from a root, by changes at nodes that are there. -/
inductive IsBuilt : Tree → Prop where
  | ofRoot (content : Assignment) : IsBuilt (ofRoot content)
  | addChildren {tree : Tree} {id : NodeId} (h : IsBuilt tree) (hid : id < tree.size)
      (contents : List Assignment) : IsBuilt (tree.addChildren id contents).1
  | set {tree : Tree} {id : NodeId} (h : IsBuilt tree) (hid : id < tree.size) (k : Key)
      (value : Bool) (number : Nat) : IsBuilt (set id k value number tree).1
  | decompose {tree : Tree} {id : NodeId} (h : IsBuilt tree) (hid : id < tree.size) (k : Key) :
      IsBuilt (decompose id k tree).1
  | instantiate {tree : Tree} {id : NodeId} (h : IsBuilt tree) (hid : id < tree.size) (k : Key)
      (term : Sentence) : IsBuilt (instantiate id k term tree).1
  | merge {tree : Tree} {id : NodeId} (h : IsBuilt tree) (hid : id < tree.size)
      (other : Assignment) : IsBuilt (merge id other tree).1

/-- The nodes hang together, and children are listed in the order of their creation. -/
structure IsWellGrown (tree : Tree) : Prop where
  coherent : tree.Coherent
  owns : tree.OwnsChildren
  ascending : ∀ parent, (tree.children parent).Pairwise (· < ·)

theorem isWellGrown_ofRoot (content : Assignment) : (ofRoot content).IsWellGrown where
  coherent := coherent_ofRoot content
  owns := ownsChildren_ofRoot content
  ascending parent := by
    rw [children, node_ofRoot]
    split <;> exact List.Pairwise.nil

/-- Changes at a node leave all nodes in their places. -/
theorem Adds.isWellGrown {added : Addition} (h : Adds tree id added tree')
    (hgrown : tree.IsWellGrown) : tree'.IsWellGrown where
  coherent := h.coherent hgrown.coherent
  owns := h.ownsChildren hgrown.owns
  ascending parent := by
    rw [h.children]
    exact hgrown.ascending parent

/-- New children come after all nodes that are there. -/
theorem IsWellGrown.addChildren (h : tree.IsWellGrown) (hid : id < tree.size)
    (contents : List Assignment) : (tree.addChildren id contents).1.IsWellGrown where
  coherent := h.coherent.addChildren hid contents
  owns := h.owns.addChildren hid contents
  ascending parent := by
    rcases Nat.lt_or_ge parent tree.size with hold | hnew
    · rw [children_addChildren_of_lt hold, List.pairwise_append]
      refine ⟨h.ascending parent, ?_, fun child hchild later hlater => ?_⟩
      · split
        · exact List.pairwise_lt_range'
        · exact List.Pairwise.nil
      · split at hlater
        · exact Nat.lt_of_lt_of_le (h.owns parent child hchild).1 (List.mem_range'_1.mp hlater).1
        · exact absurd hlater List.not_mem_nil
    · rw [children_addChildren_of_le hnew]
      exact List.Pairwise.nil

/-- However a tree is built, its nodes hang together. -/
theorem IsBuilt.isWellGrown (h : tree.IsBuilt) : tree.IsWellGrown := by
  induction h with
  | ofRoot content => exact isWellGrown_ofRoot content
  | addChildren _ hid contents ih => exact ih.addChildren hid contents
  | set _ hid k value number ih => exact (adds_set ih.coherent hid k value number).isWellGrown ih
  | decompose _ hid k ih => exact (adds_decompose ih.coherent hid k).isWellGrown ih
  | instantiate _ hid k term ih => exact (adds_instantiate ih.coherent hid k term).isWellGrown ih
  | merge _ hid other ih => exact (adds_merge ih.coherent hid other).isWellGrown ih

/-- A branch is consistent if and only if no sentence has both values on it.  Then every sentence
has the value of its nearest node and no other.  Otherwise there is a conflict on the way to the
node, between a node of the way and one above it or the node itself, and it is the first one. -/
theorem IsBuilt.consistent_or_first_conflict (h : tree.IsBuilt) (lex : Lexicon) (id : NodeId) :
    (tree.isPathConsistent id = true ↔ ¬∃ k, (tree.branch id).has k true = true ∧
      (tree.branch id).has k false = true) ∧
    (pathConflict lex tree id = none ↔ tree.isPathConsistent id = true) ∧
    (tree.isPathConsistent id = true → ∀ k value,
      (tree.branch id).models k = some value ↔ (tree.branch id).has k value = true) ∧
    (tree.isPathConsistent id = false → ∃ conflict, pathConflict lex tree id = some conflict ∧
      conflict.node ∈ tree.path id ∧ conflict.against ∈ tree.path conflict.node ∧
      (∃ value, (tree.content conflict.node).has conflict.sentence value = true ∧
        (tree.content conflict.against).has conflict.sentence (!value) = true) ∧
      ∀ ancestor ∈ tree.path conflict.node, ancestor ≠ conflict.node →
        tree.isPathConsistent ancestor = true) := by
  have hcoh := h.isWellGrown.coherent
  refine ⟨Branch.isConsistent_iff_not_both, hcoh.pathConflict_eq_none lex id,
    fun hcons k value => Branch.models_eq_some hcons, fun hincons => ?_⟩
  have hsome : pathConflict lex tree id ≠ none := fun hnone => by
    rw [(hcoh.pathConflict_eq_none lex id).mp hnone] at hincons
    contradiction
  obtain ⟨conflict, hconflict⟩ := Option.ne_none_iff_exists'.mp hsome
  obtain ⟨hnode, -, hof⟩ := of_pathConflict_eq_some hconflict
  obtain ⟨-, hagainst, hopposite⟩ := of_conflict_eq_some hof
  refine ⟨conflict, hconflict, List.mem_reverse.mpr hnode, List.mem_reverse.mpr hagainst,
    hopposite, fun ancestor hancestor hne => ?_⟩
  rcases List.mem_cons.mp (List.mem_reverse.mp hancestor) with heq | hproper
  · exact absurd heq hne
  · exact hcoh.isPathConsistent_of_pathConflict hconflict hproper

/-- A value that is written above a node when it is there already.  The branch of that node has a
conflict now, and the other branch of the tree has none. -/
theorem first_conflict_below_late_write :
    let A : Sentence := .atom "A"
    let B : Sentence := .atom "B"
    let lex := Lexicon.internAll {} [A, B]
    let split := ((ofRoot {}).addChildren 0
      [Assignment.ofFacts [⟨A, true⟩] 1, Assignment.ofFacts [⟨A, false⟩] 1]).1
    let tree := (set 1 B false 3 (split.addChildren 1 [Assignment.ofFacts [⟨B, true⟩] 2]).1).1
    tree.IsBuilt ∧ tree.isPathConsistent 2 = true ∧ (tree.branch 2).models A = some false ∧
      tree.isPathConsistent 3 = false ∧ ∃ conflict, pathConflict lex tree 3 = some conflict ∧
        conflict.node = 3 ∧ conflict.against = 1 ∧ tree.isPathConsistent 1 = true := by
  intro A B lex split tree
  have hsplit : split.IsBuilt := (IsBuilt.ofRoot {}).addChildren (by decide) _
  have hbuilt : tree.IsBuilt := (hsplit.addChildren (by decide) _).set (by decide) B false 3
  have hcons : tree.isPathConsistent 2 = true := by decide +kernel
  have hincons : tree.isPathConsistent 3 = false := by decide +kernel
  have hplace : (pathConflict lex tree 3).map (fun c => (c.node, c.against)) = some (3, 1) := by
    decide +kernel
  obtain ⟨-, -, hmodels, -⟩ := hbuilt.consistent_or_first_conflict lex 2
  obtain ⟨-, -, -, hconflict⟩ := hbuilt.consistent_or_first_conflict lex 3
  obtain ⟨conflict, hsome, -, hagainst, -, habove⟩ := hconflict hincons
  rw [hsome, Option.map_some, Option.some_inj, Prod.mk.injEq] at hplace
  refine ⟨hbuilt, hcons, (hmodels hcons A false).mpr (by decide +kernel), hincons, conflict, hsome,
    hplace.1, hplace.2, ?_⟩
  rw [hplace.2] at hagainst
  exact habove 1 hagainst (by rw [hplace.1]; decide)

end Tableau.Tree
