/-
Why a search ends if only finitely many sentences can be decomposed.  Every leaf has a
load: the sentences that may still be marked there, and the inferences that are pending
there.  Firing a rule lowers the load of one leaf, and carrying out a pending inference
replaces a leaf by few leaves of smaller load.
-/
import Mathlib.Algebra.GroupWithZero.Nat
import Mathlib.Algebra.Order.BigOperators.Group.List
import Mathlib.Algebra.Order.Group.Nat
import Tableau.Proofs.Search.Queue
import Tableau.Proofs.Search.Termination

namespace Tableau

theorem countP_lt_countP {α : Type} {test test' : α → Bool} {xs : List α}
    (himp : ∀ x, test x = true → test' x = true) {a : α} (ha : a ∈ xs) (htest : test a = false)
    (htest' : test' a = true) : xs.countP test < xs.countP test' := by
  induction xs with
  | nil => simp at ha
  | cons x xs ih =>
      have hrest : xs.countP test ≤ xs.countP test' := List.countP_mono_left fun y _ => himp y
      rw [List.countP_cons, List.countP_cons]
      rcases List.mem_cons.mp ha with rfl | ha
      · simp only [htest, htest', Bool.false_eq_true, if_false, if_true]
        omega
      · have hstep : (if test x = true then 1 else 0) ≤ if test' x = true then 1 else 0 := by
          split
          · next hx => simp [himp x hx]
          · exact Nat.zero_le _
        exact Nat.add_lt_add_of_lt_of_le (ih ha) hstep

namespace Prover

variable {p q : Prover} {stock : List Sentence} {base : Nat} {leaf : NodeId}

/-- What may still happen at a leaf: sentences of the stock that are not marked yet count
twice, because each may first be put off, and pending inferences count once. -/
def load (p : Prover) (stock : List Sentence) (leaf : NodeId) : Nat :=
  2 * stock.countP (fun s : Sentence => !(p.tree.branch leaf).isDecomposed s) +
    p.pending.countP (fun inf => p.tree.isDescendant leaf inf.node)

/-- The potential of a state.  A leaf of some load may grow into `base` leaves of a
smaller load. -/
def potential (p : Prover) (stock : List Sentence) (base : Nat) : Nat :=
  (p.openLeaves.map fun leaf => base ^ p.load stock leaf).sum

theorem load_eq (p : Prover) (stock : List Sentence) (leaf : NodeId) :
    p.load stock leaf =
      2 * stock.countP (fun s : Sentence => !(p.tree.branch leaf).isDecomposed s) +
      (p.pendingAt leaf).length := by
  rw [load, pendingAt, List.countP_eq_length_filter (l := p.pending)]

/-! Marking a sentence of the stock at a leaf, which may put an inference off there. -/

section Mark

variable {k : Key} {added : Addition} {more : List Inference}
  (htree : p.tree.Adds leaf added q.tree) (hpending : q.pending = p.pending ++ more)
  (hnodes : ∀ inf ∈ more, inf.node = leaf)
include htree hpending hnodes

/-- The load of the leaf gets smaller. -/
theorem load_lt_of_mark (hstock : k.sentence ∈ stock)
    (hnew : (p.tree.branch leaf).isDecomposed k = false) (hmark : k ∈ added.marks)
    (hmore : more.length ≤ 1) : q.load stock leaf < p.load stock leaf := by
  have hmarked : (q.tree.branch leaf).isDecomposed k = true :=
    (htree.isDecomposed ..).mpr (Or.inr ⟨Tree.mem_ancestry_self .., hmark⟩)
  have hfewer : stock.countP (fun s : Sentence => !(q.tree.branch leaf).isDecomposed s) <
      stock.countP (fun s : Sentence => !(p.tree.branch leaf).isDecomposed s) := by
    refine countP_lt_countP (a := k.sentence) ?_ hstock (by simp [hmarked]) (by simp [hnew])
    intro s hs
    simp only [Bool.not_eq_true', ← Bool.not_eq_true] at hs ⊢
    exact fun hold => hs ((htree.isDecomposed ..).mpr (Or.inl hold))
  rw [load_eq, load_eq, pendingAt_leaf_of_adds htree hpending hnodes, List.length_append]
  omega

/-- The loads of all other leaves stay the same. -/
theorem load_eq_of_ne (hp : p.Coherent) (hleaf : leaf ∈ p.openLeaves) {other : NodeId}
    (hne : other ≠ leaf) : q.load stock other = p.load stock other := by
  obtain ⟨hbranch, hqueue⟩ := branch_pendingAt_of_adds htree hpending hnodes hp hleaf hne
  rw [load_eq, load_eq, hbranch, hqueue]

theorem potential_lt_of_mark (hp : p.Coherent) (hbase : 1 < base) (hleaf : leaf ∈ p.openLeaves)
    (hstock : k.sentence ∈ stock) (hnew : (p.tree.branch leaf).isDecomposed k = false)
    (hmark : k ∈ added.marks) (hopen : q.openLeaves = p.openLeaves) (hmore : more.length ≤ 1) :
    q.potential stock base < p.potential stock base := by
  have hat : q.load stock leaf < p.load stock leaf :=
    load_lt_of_mark htree hpending hnodes hstock hnew hmark hmore
  unfold potential
  rw [hopen]
  refine List.sum_lt_sum _ _ ?_ ⟨leaf, hleaf, Nat.pow_lt_pow_right hbase hat⟩
  intro other hother
  by_cases hsame : other = leaf
  · subst hsame
    exact Nat.pow_le_pow_right (Nat.zero_lt_of_lt hbase) (Nat.le_of_lt hat)
  · rw [load_eq_of_ne htree hpending hnodes hp hleaf hsame]

end Mark

/-- Closing leaves and forgetting inferences does not raise the potential. -/
theorem potential_close_le (hp : p.Coherent) :
    p.close.potential stock base ≤ p.potential stock base := by
  have htree : p.close.tree = p.tree := (foldl_recordClosure _ p).2.1
  have hload : ∀ leaf ∈ p.close.openLeaves, p.close.load stock leaf = p.load stock leaf := by
    intro leaf hleaf
    rw [load_eq, load_eq, htree, pendingAt_close hleaf]
  unfold potential
  rw [List.map_congr_left fun leaf hleaf => congrArg (base ^ ·) (hload leaf hleaf),
    openLeaves_close hp]
  exact (List.filter_sublist.map _).sum_le_sum fun _ _ => Nat.zero_le _

/-- The potential comes from the leaves below a node and from those elsewhere. -/
theorem potential_eq_add (p : Prover) (stock : List Sentence) (base : Nat) (node : NodeId) :
    p.potential stock base =
      ((p.openElsewhere node).map fun leaf => base ^ p.load stock leaf).sum +
        ((p.openBelow node).map fun leaf => base ^ p.load stock leaf).sum := by
  rw [Nat.add_comm, ← List.sum_append, ← List.map_append]
  exact ((List.filter_append_perm _ p.openLeaves).map _).sum_eq.symm

/-! Carrying out a pending inference. -/

section Expand

variable {inf : Inference} {created : List NodeId} (hp : p.Coherent)
  (hperm : p.pending.Perm (inf :: q.pending))
  (htree : p.tree.Grafts (p.openBelow inf.node)
    (inf.outcomes.map fun facts => Assignment.ofFacts facts inf.number) q.tree created)
include hp hperm htree

/-- The leaves elsewhere have as much to do as before. -/
theorem load_elsewhere (hleaf : leaf ∈ p.openElsewhere inf.node) :
    q.load stock leaf = p.load stock leaf := by
  obtain ⟨hbranch, hqueue⟩ := branch_pendingAt_elsewhere hp hperm htree hleaf
  rw [load_eq, load_eq, hbranch, hqueue.length_eq]

/-- A leaf that takes the place of another one has a smaller load. -/
theorem load_created (hleaf : leaf ∈ created) : ∃ above ∈ p.openBelow inf.node,
    ∃ content, q.tree.node leaf = p.tree.newNode above content ∧
      q.load stock leaf + 1 = p.load stock above := by
  obtain ⟨above, habove, outcome, -, hnode, hbranch, hqueue⟩ :=
    exists_above_of_mem_created hp hperm htree hleaf
  have hmarks : ∀ s : Sentence, (q.tree.branch leaf).isDecomposed s =
      (p.tree.branch above).isDecomposed s := by
    intro s
    rw [Bool.eq_iff_iff, hbranch]
    simp [Branch.isDecomposed_iff]
  refine ⟨above, habove, _, hnode, ?_⟩
  rw [load_eq, load_eq, hqueue.length_eq, List.length_cons]
  simp only [hmarks]
  omega

omit hp htree in
/-- A leaf below the inference has something to do. -/
theorem load_pos_of_mem_openBelow (hleaf : leaf ∈ p.openBelow inf.node) :
    0 < p.load stock leaf := by
  have hcount : 0 < p.pending.countP (fun inf => p.tree.isDescendant leaf inf.node) :=
    List.countP_pos_iff.mpr
      ⟨inf, hperm.mem_iff.mpr List.mem_cons_self, (List.mem_filter.mp hleaf).2⟩
  exact Nat.lt_of_lt_of_le hcount (Nat.le_add_left ..)

/-- The leaves that take the place of others weigh no more than those, if they are few. -/
theorem sum_created_le (hfew : inf.outcomes.length ≤ base) :
    (created.map fun leaf => base ^ q.load stock leaf).sum ≤
      ((p.openBelow inf.node).map fun leaf => base ^ p.load stock leaf).sum := by
  -- the load of a new leaf can be read off its lineage
  let share (node : Node) : Nat := base ^ (p.load stock (node.lineage.headD NodeId.root) - 1)
  have hshare : ∀ leaf ∈ created, base ^ q.load stock leaf = share (q.tree.node leaf) := by
    intro leaf hleaf
    obtain ⟨above, -, content, hnode, hload⟩ := load_created hp hperm htree hleaf
    have hhead : share (q.tree.node leaf) = base ^ (p.load stock above - 1) := by
      rw [hnode]
      rfl
    rw [hhead, ← hload, Nat.add_sub_cancel]
  have hnodes : (created.map fun leaf => base ^ q.load stock leaf) =
      (created.map q.tree.node).map share := by
    rw [List.map_map]
    exact List.map_congr_left hshare
  rw [hnodes, htree.nodes, List.map_flatMap, List.flatMap_def, List.sum_flatten, List.map_map]
  apply List.sum_le_sum
  intro leaf hleaf
  calc _ ≤ inf.outcomes.length • base ^ (p.load stock leaf - 1) := by
        refine (List.sum_le_card_nsmul _ (base ^ (p.load stock leaf - 1)) ?_).trans_eq (by simp)
        simp only [List.mem_map]
        rintro _ ⟨_, ⟨content, -, rfl⟩, rfl⟩
        exact Nat.le_refl _
    _ ≤ base * base ^ (p.load stock leaf - 1) := Nat.mul_le_mul_right _ hfew
    _ = base ^ p.load stock leaf := by
        rw [← Nat.pow_succ', Nat.succ_eq_add_one,
          Nat.sub_add_cancel (load_pos_of_mem_openBelow hperm hleaf)]

/-- Carrying out a pending inference with few outcomes does not raise the potential. -/
theorem potential_expanded_le (hopen : q.openLeaves = p.openElsewhere inf.node ++ created)
    (hfew : inf.outcomes.length ≤ base) : q.potential stock base ≤ p.potential stock base := by
  have helse : ((p.openElsewhere inf.node).map fun leaf => base ^ q.load stock leaf) =
      (p.openElsewhere inf.node).map fun leaf => base ^ p.load stock leaf :=
    List.map_congr_left fun leaf hleaf =>
      congrArg (base ^ ·) (load_elsewhere hp hperm htree hleaf)
  calc q.potential stock base
      = ((p.openElsewhere inf.node).map fun leaf => base ^ q.load stock leaf).sum +
          (created.map fun leaf => base ^ q.load stock leaf).sum := by
        unfold potential
        rw [hopen, List.map_append, List.sum_append]
    _ ≤ p.potential stock base := by
        rw [potential_eq_add p stock base inf.node, helse]
        exact Nat.add_le_add_left (sum_created_le hp hperm htree hfew) _

end Expand

/-! Searches without quantifiers. -/

/-- Only sentences of a finite stock are ever decomposed, they split into few branches, and
there is nothing to instantiate. -/
structure IsTame (p : Prover) (stock : List Sentence) (base : Nat) : Prop where
  decomposes : ∀ leaf k value inf lex, Rule.Fires p.lexicon p.tree leaf k value inf lex →
    k.sentence ∈ stock ∧ ∀ binder terms facts, inf.effect ≠ .universal binder terms facts
  few : ∀ inf ∈ p.pending, inf.outcomes.length ≤ base
  quantifierFree : p.obligations = []

/-- Committing an inference lowers the potential. -/
theorem potential_commit_lt (hp : p.Coherent) (htame : p.IsTame stock base) (hbase : 1 < base)
    (h : p.CommitsAt leaf q) : q.potential stock base < p.potential stock base := by
  obtain ⟨hleaf, k, value, inf, lex, hfires, -, rfl⟩ := h
  obtain ⟨hstock, huniversal⟩ := htame.decomposes _ _ _ _ _ hfires
  obtain ⟨added, more, htree, hpending, hnodes, hcases⟩ :=
    exists_adds_pending_commit hp hleaf hfires
  refine potential_lt_of_mark htree hpending hnodes hp hbase hleaf hstock hfires.not_decomposed ?_
    (openLeaves_commit ..) ?_
  · rcases hcases with ⟨-, rfl, -⟩ | ⟨-, rfl, -⟩
    · exact List.mem_cons_self
    · have horigin : inf.origin.key = k := by rw [hfires.origin_eq, Key.key_sentence]
      exact horigin ▸ Inference.origin_mem_marks_addition huniversal
  · rcases hcases with ⟨-, -, rfl⟩ | ⟨-, -, rfl⟩ <;> simp

theorem potential_commitBranch?_le (hp : p.Coherent) (htame : p.IsTame stock base)
    (h : p.commitBranch? = some q) : q.potential stock base ≤ p.potential stock base := by
  obtain ⟨inf, created, hperm, -, -, htree, hopen⟩ := commitBranch?_eq_some hp h
  have hfew := htame.few inf (hperm.mem_iff.mpr List.mem_cons_self)
  exact potential_expanded_le hp hperm htree hopen hfew

theorem IsTame.declines (hp : p.Coherent) (htame : p.IsTame stock base) (hbase : 1 < base) :
    p.Declines (· < ·) (·.potential stock base) where
  noted q _ htree hopen hpending := by simp only [potential, load, htree, hopen, hpending]
  commit leaf q h := Or.inl (potential_commit_lt hp htame hbase h)
  close := Nat.lt_or_eq_of_le (potential_close_le hp)
  expand q h := Nat.lt_or_eq_of_le (potential_commitBranch?_le hp htame h)

/-- A search that is tame in all its states ends. -/
theorem exists_prove?_of_isTame {lexicon : Lexicon} {premises goals : List Sentence}
    {options : Options} (hbase : 1 < base)
    (htame : ∀ p, Leads (start lexicon premises goals options) p → p.IsTame stock base) :
    ∃ result enough, ∀ fuel ≥ enough,
      (start lexicon premises goals options).prove? fuel = some result :=
  exists_prove?_of_declines Nat.lt_wfRel.wf (fun _ _ _ => Nat.lt_trans) fun p hp =>
    (htame p hp).declines (hp.coherent coherent_start) hbase

end Prover

end Tableau
