/-
The inferences that are pending at a leaf, which are those of all nodes on its branch.  What
is put off joins the queue of one leaf, and an inference that is carried out leaves the queues
of the leaves below its node, which the leaves that take their place inherit.
-/
import Tableau.Proofs.Search.Transition

namespace Tableau

namespace Prover

variable {p q : Prover} {leaf : NodeId}

def pendingAt (p : Prover) (leaf : NodeId) : List Inference :=
  p.pending.filter fun inf => p.tree.isDescendant leaf inf.node

/-! Firing a rule. -/

/-- Firing a rule adds something at its leaf, and may put an inference off there. -/
theorem exists_adds_pending_commit (hp : p.Coherent) (hleaf : leaf ∈ p.openLeaves) {k : Key}
    {value : Bool} {inf : Inference} {lex : Lexicon}
    (hfires : Rule.Fires p.lexicon p.tree leaf k value inf lex) :
    ∃ added more, p.tree.Adds leaf added ({ p with lexicon := lex }.commit inf).tree ∧
      ({ p with lexicon := lex }.commit inf).pending = p.pending ++ more ∧
      (∀ new ∈ more, new.node = leaf) ∧
      (inf.isBranching = true ∧ added = { marks := [k] } ∧ more = [inf] ∨
        inf.isBranching = false ∧ added = inf.addition ∧ more = []) := by
  cases hsplit : inf.isBranching with
  | true =>
      obtain ⟨htree, hpending⟩ := commit_of_isBranching hp hleaf hfires hsplit
      refine ⟨_, _, htree, hpending, fun new hnew => ?_, Or.inl ⟨rfl, rfl, rfl⟩⟩
      rw [List.mem_singleton.mp hnew]
      exact hfires.node_eq
  | false =>
      obtain ⟨htree, hpending⟩ := commit_of_not_isBranching hp hleaf hfires hsplit
      exact ⟨_, [], htree, by rw [hpending, List.append_nil], by simp, Or.inr ⟨rfl, rfl, rfl⟩⟩

section Adds

variable {added : Addition} {more : List Inference} (htree : p.tree.Adds leaf added q.tree)
  (hpending : q.pending = p.pending ++ more) (hnodes : ∀ inf ∈ more, inf.node = leaf)
include htree hpending hnodes

/-- What is put off at a leaf is put off there only. -/
theorem pendingAt_of_adds (other : NodeId) :
    q.pendingAt other = p.pendingAt other ++ if leaf ∈ p.tree.ancestry other then more else [] := by
  have hdescendant : ∀ node, q.tree.isDescendant other node = p.tree.isDescendant other node := by
    intro node
    rw [Bool.eq_iff_iff, Tree.isDescendant_iff, Tree.isDescendant_iff, htree.ancestry]
  unfold pendingAt
  simp only [hpending, hdescendant, List.filter_append, List.append_cancel_left_eq]
  split
  · next hmem =>
      rw [List.filter_eq_self]
      intro inf hinf
      rwa [hnodes inf hinf, Tree.isDescendant_iff]
  · next hmem =>
      rw [List.filter_eq_nil_iff]
      intro inf hinf
      rwa [hnodes inf hinf, Tree.isDescendant_iff]

theorem pendingAt_leaf_of_adds : q.pendingAt leaf = p.pendingAt leaf ++ more := by
  rw [pendingAt_of_adds htree hpending hnodes, if_pos (Tree.mem_ancestry_self ..)]

/-- Other leaves keep their branch and their queue. -/
theorem branch_pendingAt_of_adds (hp : p.Coherent) (hleaf : leaf ∈ p.openLeaves) {other : NodeId}
    (hne : other ≠ leaf) :
    q.tree.branch other = p.tree.branch other ∧ q.pendingAt other = p.pendingAt other := by
  have hnot : leaf ∉ p.tree.ancestry other := fun hmem =>
    hne (hp.tree.eq_of_childless (hp.childless leaf hleaf) hmem).symm
  refine ⟨htree.branch_of_not_mem hnot, ?_⟩
  rw [pendingAt_of_adds htree hpending hnodes, if_neg hnot, List.append_nil]

end Adds

/-! Closing leaves. -/

/-- Only inferences that no open leaf is left for are forgotten. -/
theorem pendingAt_close (hleaf : leaf ∈ p.close.openLeaves) :
    p.close.pendingAt leaf = p.pendingAt leaf := by
  obtain ⟨-, htree, hpending⟩ := foldl_recordClosure (p.conflicts.filterMap (·.2)) p
  have htree' : p.close.tree = p.tree := htree
  have hneeded : p.close.pending = p.pending.filter fun inf =>
      p.close.openLeaves.any (p.tree.isDescendant · inf.node) := by
    unfold close
    simp only [htree, hpending]
  unfold pendingAt
  rw [htree', hneeded, List.filter_filter]
  refine List.filter_congr fun inf _ => ?_
  cases hdescendant : p.tree.isDescendant leaf inf.node with
  | false => rfl
  | true => simpa using ⟨leaf, hleaf, Tree.isDescendant_iff.mp hdescendant⟩

/-! Carrying out a pending inference. -/

section Expand

variable {inf : Inference} {created : List NodeId} (hp : p.Coherent)
  (hperm : p.pending.Perm (inf :: q.pending))
  (htree : p.tree.Grafts (p.openBelow inf.node)
    (inf.outcomes.map fun facts => Assignment.ofFacts facts inf.number) q.tree created)
include hp hperm htree

/-- Leaves elsewhere keep their branch and their queue. -/
theorem branch_pendingAt_elsewhere (hleaf : leaf ∈ p.openElsewhere inf.node) :
    q.tree.branch leaf = p.tree.branch leaf ∧ (p.pendingAt leaf).Perm (q.pendingAt leaf) := by
  obtain ⟨hmem, hnot⟩ := List.mem_filter.mp hleaf
  have hlt := hp.open_lt leaf hmem
  have hdescendant : ∀ node, q.tree.isDescendant leaf node = p.tree.isDescendant leaf node := by
    intro node
    rw [Bool.eq_iff_iff, Tree.isDescendant_iff, Tree.isDescendant_iff, htree.ancestry hlt]
  refine ⟨htree.branch_of_lt hp.tree hlt, ?_⟩
  unfold pendingAt
  simp only [hdescendant]
  apply (hperm.filter _).trans
  rw [List.filter_cons_of_neg (by exact Bool.eq_false_iff.mp ((Bool.not_eq_true' _).mp hnot))]

/-- A new leaf has an outcome on top of the branch of the leaf whose place it takes, and what
was pending there but the inference. -/
theorem exists_above_of_mem_created (hleaf : leaf ∈ created) :
    ∃ above ∈ p.openBelow inf.node, ∃ outcome ∈ inf.outcomes,
      q.tree.node leaf = p.tree.newNode above (Assignment.ofFacts outcome inf.number) ∧
      q.tree.branch leaf = Assignment.ofFacts outcome inf.number :: p.tree.branch above ∧
      (p.pendingAt above).Perm (inf :: q.pendingAt leaf) := by
  obtain ⟨above, habove, content, hcontent, hnode⟩ := htree.exists_of_mem_created hleaf
  obtain ⟨outcome, houtcome, rfl⟩ := List.mem_map.mp hcontent
  obtain ⟨hmem, hbelow⟩ := List.mem_filter.mp habove
  obtain ⟨hancestry, hbranch⟩ := htree.branch_of_node_eq hp.tree (hp.open_lt above hmem) hnode
  refine ⟨above, habove, outcome, houtcome, hnode, hbranch, ?_⟩
  have hsame : q.pending.filter (fun other => q.tree.isDescendant leaf other.node) =
      q.pending.filter fun other => p.tree.isDescendant above other.node := by
    refine List.filter_congr fun other hother => ?_
    have hlt := (hp.queued other (hperm.mem_iff.mpr (List.mem_cons_of_mem inf hother))).node_lt
    have hne : other.node ≠ leaf :=
      Nat.ne_of_lt (Nat.lt_of_lt_of_le hlt (htree.size_le_of_mem_created hleaf).1)
    rw [Bool.eq_iff_iff, Tree.isDescendant_iff, Tree.isDescendant_iff, hancestry, List.mem_cons]
    simp [hne]
  unfold pendingAt
  rw [hsame]
  apply (hperm.filter _).trans
  rw [List.filter_cons_of_pos (by exact hbelow)]

end Expand

/-! Every pending inference is needed. -/

/-- Every pending inference concerns some open leaf. -/
def AllNeeded (p : Prover) : Prop :=
  ∀ inf ∈ p.pending, ∃ leaf ∈ p.openLeaves, inf.node ∈ p.tree.ancestry leaf

/-- What is put off concerns its leaf, what no leaf is left for is forgotten when leaves are
closed, and a leaf that is split leaves its place to others below it. -/
theorem Transition.allNeeded (h : Transition p q) (hp : p.Coherent) (hneeded : p.AllNeeded) :
    q.AllNeeded := by
  intro inf hinf
  cases h with
  | noted _ htree hopen hpending =>
      rw [hpending] at hinf
      rw [htree, hopen]
      exact hneeded inf hinf
  | added leaf _ _ _ _ _ _ htree hopen hpending =>
      rw [hpending] at hinf
      simp only [hopen, htree.ancestry]
      exact hneeded inf hinf
  | queued leaf _ _ new hleaf hfires _ htree hopen hpending =>
      simp only [hopen, htree.ancestry]
      rw [hpending, List.mem_append, List.mem_singleton] at hinf
      rcases hinf with hold | rfl
      · exact hneeded inf hold
      · rw [hfires.node_eq]
        exact ⟨leaf, hleaf, Tree.mem_ancestry_self ..⟩
  | closed _ htree _ hpending =>
      rw [hpending, List.mem_filter, List.any_eq_true] at hinf
      obtain ⟨-, leaf, hleaf, hbelow⟩ := hinf
      rw [htree]
      exact ⟨leaf, hleaf, Tree.isDescendant_iff.mp hbelow⟩
  | expanded done created hperm hsub _ htree hopen =>
      obtain ⟨leaf, hleaf, hnode⟩ := hneeded inf (hsub.subset hinf)
      by_cases hbelow : p.tree.isDescendant leaf done.node = true
      · obtain ⟨value, -, hyields⟩ :=
          (hp.queued done (hperm.mem_iff.mpr List.mem_cons_self)).exists_value
        obtain ⟨outcome, houtcome⟩ := List.exists_mem_of_ne_nil _ hyields.outcomes_ne_nil
        obtain ⟨new, hnew, hplace⟩ := htree.exists_created
          (List.mem_filter.mpr ⟨hleaf, hbelow⟩) (List.mem_map_of_mem houtcome)
        have hancestry := (htree.branch_of_node_eq hp.tree (hp.open_lt leaf hleaf) hplace).1
        refine ⟨new, ?_, ?_⟩
        · rw [hopen]
          exact List.mem_append_right _ hnew
        · rw [hancestry]
          exact List.mem_cons_of_mem new hnode
      · refine ⟨leaf, ?_, ?_⟩
        · rw [hopen]
          exact List.mem_append_left _ (List.mem_filter.mpr ⟨hleaf, by simp [hbelow]⟩)
        · rw [htree.ancestry (hp.open_lt leaf hleaf)]
          exact hnode

end Prover

end Tableau
