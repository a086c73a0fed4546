/-
The frontier of a search.  Every node without children is open or has been closed, and it has
been closed just once, because of two opposite values on its branch.  Nodes with children have
consistent branches, since a leaf is only split when no open branch holds a conflict.  So the
open leaves are the leaves of the tree whenever closing is done, nothing but quantifiers and
splits is left to be done for them then, and the verdict agrees with the state that a search
ends in.
-/
import Tableau.Proofs.Leaves
import Tableau.Proofs.Search.Advance

namespace Tableau

namespace Inference

/-- Whether the inference closes a branch. -/
def isClosure (inf : Inference) : Bool :=
  match inf.effect with
  | .closure _ => true
  | .decomposition _ | .branch _ | .universal .. | .existential .. => false

theorem isClosure_iff {inf : Inference} :
    inf.isClosure = true ↔ ∃ against, inf.effect = .closure against := by
  simp only [isClosure]
  split <;> simp_all

/-- A closure is due to opposite values of its origin, at its own node and at one on the
branch of that node. -/
def IsDueToConflict (inf : Inference) (tree : Tree) : Prop :=
  ∃ against, inf.effect = .closure against ∧ against ∈ tree.ancestry inf.node ∧
    ∃ value, (tree.content inf.node).has inf.origin value = true ∧
      (tree.content against).has inf.origin (!value) = true

/-- It stays so as long as nothing changes at the nodes on the branch. -/
theorem IsDueToConflict.of_content_eq {inf : Inference} {tree tree' : Tree}
    (h : inf.IsDueToConflict tree) (hancestry : tree'.ancestry inf.node = tree.ancestry inf.node)
    (hcontent : ∀ n ∈ tree.ancestry inf.node, tree'.content n = tree.content n) :
    inf.IsDueToConflict tree' := by
  obtain ⟨against, heffect, hmem, hvalues⟩ := h
  simp only [IsDueToConflict, hancestry, hcontent _ (Tree.mem_ancestry_self ..)]
  exact ⟨against, heffect, hmem, by rwa [hcontent against hmem]⟩

end Inference

/-- No rule closes a branch. -/
theorem Rule.Yields.isClosure_eq_false {sorts : Sorts} {s : Sentence} {value : Bool}
    {inf : Inference} (h : Rule.Yields sorts s value inf.effect) : inf.isClosure = false := by
  rw [← Bool.not_eq_true]
  intro hclosure
  obtain ⟨against, heffect⟩ := Inference.isClosure_iff.mp hclosure
  apply h.outcomes_ne_nil
  simp [Inference.outcomes, heffect]

namespace Prover

variable {p q : Prover}

/-- The closures in the log. -/
def closures (p : Prover) : List Inference := p.log.toList.filter (·.isClosure)

/-- The nodes that have been closed. -/
def closedNodes (p : Prover) : List NodeId := p.closures.map (·.node)

theorem closures_of_push {inf : Inference} (hlog : q.log = p.log.push inf)
    (hinf : inf.isClosure = false) : q.closures = p.closures := by
  simp [closures, hlog, hinf]

theorem closures_of_log_eq (hlog : q.log = p.log) : q.closures = p.closures := by
  simp [closures, hlog]

/-- The nodes without children are divided between the open leaves, in the order of their
creation, and the nodes that have been closed, each once and because of a conflict.  All other
nodes have consistent branches. -/
structure HasFrontier (p : Prover) : Prop where
  root_lt : NodeId.root < p.tree.size
  owns : p.tree.OwnsChildren
  sorted : p.openLeaves.Pairwise (· < ·)
  inner : ∀ id, p.tree.children id ≠ [] → p.tree.isPathConsistent id = true
  nodup : p.closedNodes.Nodup
  mem_closedNodes : ∀ id, id ∈ p.closedNodes ↔
    id < p.tree.size ∧ p.tree.children id = [] ∧ id ∉ p.openLeaves
  due : ∀ inf ∈ p.closures, inf.IsDueToConflict p.tree

theorem hasFrontier_start {lexicon : Lexicon} {premises goals : List Sentence}
    {options : Options} : (start lexicon premises goals options).HasFrontier := by
  have hclosures : (start lexicon premises goals options).closures = [] := by simp [closures]
  have hsize : (start lexicon premises goals options).tree.size = 1 := by
    rw [tree_start]
    rfl
  have hchildren : ∀ id, (start lexicon premises goals options).tree.children id = [] := by
    intro id
    rw [tree_start, Tree.children, Tree.node_ofRoot]
    split <;> rfl
  constructor
  case root_lt => rw [hsize]; exact Nat.zero_lt_one
  case owns => rw [tree_start]; exact Tree.ownsChildren_ofRoot _
  case sorted => simp
  case inner => exact fun id hne => absurd (hchildren id) hne
  case nodup => simp [closedNodes, hclosures]
  case mem_closedNodes =>
    intro id
    simp only [closedNodes, hclosures, hsize, hchildren, openLeaves_start, List.map_nil,
      List.not_mem_nil, List.mem_singleton, true_and, false_iff, not_and, not_not]
    exact Nat.lt_one_iff.mp
  case due => simp [hclosures]

/-! One advance. -/

namespace HasFrontier

variable (h : p.HasFrontier) (hp : p.Coherent)
include h

theorem not_mem_openLeaves {inf : Inference} (hinf : inf ∈ p.closures) :
    inf.node ∉ p.openLeaves :=
  ((h.mem_closedNodes inf.node).mp (List.mem_map_of_mem hinf)).2.2

/-- Where the tree, the open leaves and the closures stay, the frontier does. -/
theorem of_eq (htree : q.tree = p.tree) (hopen : q.openLeaves = p.openLeaves)
    (hclosures : q.closures = p.closures) : q.HasFrontier := by
  obtain ⟨root_lt, owns, sorted, inner, nodup, mem_closedNodes, due⟩ := h
  constructor <;> simp only [closedNodes, htree, hopen, hclosures] <;> assumption

include hp

/-- What is added at an open leaf does not concern the nodes with children or the nodes that
have been closed, whose branches do not pass the leaf. -/
theorem of_adds {leaf : NodeId} {added : Addition} (hleaf : leaf ∈ p.openLeaves)
    (htree : p.tree.Adds leaf added q.tree) (hopen : q.openLeaves = p.openLeaves)
    (hclosures : q.closures = p.closures) : q.HasFrontier := by
  have hchildless := hp.childless leaf hleaf
  constructor
  case root_lt => exact htree.size ▸ h.root_lt
  case owns => exact htree.ownsChildren h.owns
  case sorted => exact hopen ▸ h.sorted
  case inner =>
    intro id hchildren
    rw [htree.children] at hchildren
    have hnot : leaf ∉ p.tree.ancestry id := by
      intro hmem
      rw [← hp.tree.eq_of_childless hchildless hmem] at hchildren
      exact hchildren hchildless
    rw [Tree.isPathConsistent, htree.branch_of_not_mem hnot]
    exact h.inner id hchildren
  case nodup =>
    rw [closedNodes, hclosures]
    exact h.nodup
  case mem_closedNodes =>
    intro id
    rw [closedNodes, hclosures, htree.size, htree.children, hopen]
    exact h.mem_closedNodes id
  case due =>
    intro inf hinf
    rw [hclosures] at hinf
    apply (h.due inf hinf).of_content_eq (htree.ancestry inf.node)
    intro n hn
    have hne : n ≠ leaf := by
      rintro rfl
      have hself := hp.tree.eq_of_childless hchildless hn
      exact h.not_mem_openLeaves hinf (hself ▸ hleaf)
    simp only [Tree.content, htree.node_of_ne n hne]

/-- Since the nodes above have consistent branches, the conflict on the branch of a node is one
of its own facts. -/
theorem node_of_pathConflict {id : NodeId} {lex : Lexicon} {conflict : Conflict}
    (hconflict : Tree.pathConflict lex p.tree id = some conflict) : conflict.node = id := by
  apply hp.tree.node_of_pathConflict _ hconflict
  intro n hn
  exact h.inner n (hp.tree.children_ne_nil hn)

/-- A leaf that is closed is no longer open. -/
theorem of_closed {leaf : NodeId} {conflict : Conflict} (hleaf : leaf ∈ p.openLeaves)
    (hconflict : Tree.pathConflict p.lexicon p.tree leaf = some conflict)
    (htree : q.tree = p.tree)
    (hopen : q.openLeaves = p.openLeaves.filter fun other => other ≠ leaf)
    (hlog : q.log = p.log.push (p.closure conflict)) : q.HasFrontier := by
  have hnode := h.node_of_pathConflict hp hconflict
  have hclosures : q.closures = p.closures ++ [p.closure conflict] := by
    simp [closures, hlog, closure, Inference.isClosure]
  have hnodes : q.closedNodes = p.closedNodes ++ [leaf] := by
    simp [closedNodes, hclosures, closure, hnode]
  have hnew : leaf ∉ p.closedNodes := fun hmem => ((h.mem_closedNodes leaf).mp hmem).2.2 hleaf
  constructor
  case root_lt => exact htree ▸ h.root_lt
  case owns => exact htree ▸ h.owns
  case sorted =>
    rw [hopen]
    exact h.sorted.filter _
  case inner => exact htree ▸ h.inner
  case nodup =>
    rw [hnodes, List.nodup_append]
    refine ⟨h.nodup, by simp, ?_⟩
    intro id hid other hother heq
    rw [heq, List.mem_singleton.mp hother] at hid
    exact hnew hid
  case mem_closedNodes =>
    intro id
    rw [hnodes, htree, hopen]
    by_cases hself : id = leaf
    · simp [hself, hp.open_lt leaf hleaf, hp.childless leaf hleaf]
    · simp [hself, h.mem_closedNodes]
  case due =>
    intro inf hinf
    rw [htree]
    rw [hclosures, List.mem_append, List.mem_singleton] at hinf
    rcases hinf with hinf | rfl
    · exact h.due inf hinf
    · obtain ⟨-, -, hfound⟩ := Tree.of_pathConflict_eq_some hconflict
      obtain ⟨-, hagainst, hvalues⟩ := Tree.of_conflict_eq_some hfound
      exact ⟨conflict.against, rfl, hagainst, hvalues⟩

/-- An open leaf that is split has a consistent branch and gets children; the new nodes are
open and come after all others. -/
theorem of_expanded {inf : Inference}
    (hconsistent : ∀ leaf ∈ p.openLeaves, p.tree.isPathConsistent leaf = true)
    (hpending : inf ∈ p.pending) (htree : q.tree = (inf.apply p.tree (p.openBelow inf.node)).1)
    (hopen : q.openLeaves =
      p.openElsewhere inf.node ++ (inf.apply p.tree (p.openBelow inf.node)).2)
    (hlog : q.log = p.log.push inf) : q.HasFrontier := by
  have hinf := hp.queued inf hpending
  obtain ⟨value, -, hyields⟩ := hinf.exists_value
  have hclosures := closures_of_push hlog hyields.isClosure_eq_false
  have hgrafts := hp.grafts_of_expanded hpending htree
  have hcontents : (inf.outcomes.map fun facts => Assignment.ofFacts facts inf.number) ≠ [] := by
    simpa using hyields.outcomes_ne_nil
  have howns : q.tree.OwnsChildren := by
    rw [htree, Inference.apply_eq_split hinf.splits, hinf.decomposeOrigin_eq]
    exact h.owns.split (hp.openBelow_lt inf.node)
  generalize (inf.apply p.tree (p.openBelow inf.node)).2 = created at hgrafts hopen
  have hlater : ∀ id ∈ created, p.tree.size ≤ id :=
    fun id hid => (hgrafts.size_le_of_mem_created hid).1
  have hnew : ∀ id, p.tree.size ≤ id → id < q.tree.size → id ∈ created :=
    fun id hge hlt => hgrafts.mem_created_iff.mpr ⟨hge, hlt⟩
  have hsplit : ∀ leaf ∈ p.openBelow inf.node, q.tree.children leaf ≠ [] :=
    fun leaf hleaf => hgrafts.children_ne_nil hp.tree hleaf hcontents
  constructor
  case root_lt => exact Nat.lt_of_lt_of_le h.root_lt (hgrafts.growsTo hp.tree).size_le
  case owns => exact howns
  case sorted =>
    rw [hopen, List.pairwise_append]
    refine ⟨h.sorted.filter _, ?_, ?_⟩
    · rw [hgrafts.created_eq]
      exact List.pairwise_lt_range'
    · intro leaf hleaf id hid
      exact Nat.lt_of_lt_of_le (hp.open_lt leaf (List.mem_filter.mp hleaf).1) (hlater id hid)
  case inner =>
    intro id hchildren
    rcases Nat.lt_or_ge id p.tree.size with hold | hge
    · rw [Tree.isPathConsistent, hgrafts.branch_of_lt hp.tree hold]
      by_cases hbelow : id ∈ p.openBelow inf.node
      · exact hconsistent id (List.mem_filter.mp hbelow).1
      · rw [hgrafts.children id hold hbelow] at hchildren
        exact h.inner id hchildren
    · rcases Nat.lt_or_ge id q.tree.size with hlt | hnone
      · exact absurd (hgrafts.children_of_mem_created (hnew id hge hlt)) hchildren
      · exact absurd (congrArg Node.children (Tree.node_eq_of_size_le hnone)) hchildren
  case nodup =>
    rw [closedNodes, hclosures]
    exact h.nodup
  case mem_closedNodes =>
    intro id
    rw [closedNodes, hclosures]
    change id ∈ p.closedNodes ↔ _
    rw [h.mem_closedNodes, hopen, List.mem_append, not_or]
    constructor
    · rintro ⟨hlt, hchildren, hclosed⟩
      have hnot : id ∉ p.openBelow inf.node := fun hmem => hclosed (List.mem_filter.mp hmem).1
      refine ⟨Nat.lt_of_lt_of_le hlt (hgrafts.growsTo hp.tree).size_le, ?_, ?_, ?_⟩
      · rw [hgrafts.children id hlt hnot]
        exact hchildren
      · exact fun hmem => hclosed (List.mem_filter.mp hmem).1
      · exact fun hmem => absurd hlt (Nat.not_lt.mpr (hlater id hmem))
    · rintro ⟨hlt, hchildren, helsewhere, hcreated⟩
      have hold : id < p.tree.size := by
        rcases Nat.lt_or_ge id p.tree.size with hold | hge
        · exact hold
        · exact absurd (hnew id hge hlt) hcreated
      have hnot : id ∉ p.openBelow inf.node := fun hmem => hsplit id hmem hchildren
      rw [hgrafts.children id hold hnot] at hchildren
      refine ⟨hold, hchildren, fun hmem => ?_⟩
      by_cases hbelow : p.tree.isDescendant id inf.node = true
      · exact hnot (List.mem_filter.mpr ⟨hmem, hbelow⟩)
      · exact helsewhere (List.mem_filter.mpr ⟨hmem, by simp [hbelow]⟩)
  case due =>
    intro other hother
    rw [hclosures] at hother
    have hlt := ((h.mem_closedNodes other.node).mp (List.mem_map_of_mem hother)).1
    apply (h.due other hother).of_content_eq (hgrafts.ancestry hlt)
    intro n hn
    exact hgrafts.content n (Nat.lt_of_le_of_lt (hp.tree.le_of_mem_ancestry hn) hlt)

end HasFrontier

/-- Every advance keeps the frontier. -/
theorem Advance.hasFrontier (hadvance : Advance p q) (hp : p.Coherent) (h : p.HasFrontier) :
    q.HasFrontier := by
  cases hadvance with
  | noted _ htree hopen _ hlog | pruned _ htree hopen _ hlog =>
      exact h.of_eq htree hopen (closures_of_log_eq hlog)
  | performed leaf k value inf hleaf hfires _ hsplit htree hopen _ hlog =>
      have hadds := hp.adds_of_performed hleaf hfires hsplit htree
      exact h.of_adds hp hleaf hadds hopen (closures_of_push hlog hfires.yields.isClosure_eq_false)
  | deferred leaf k value inf hleaf hfires _ _ htree hopen _ hlog =>
      have hadds := hp.adds_of_deferred hleaf hfires htree
      exact h.of_adds hp hleaf hadds hopen (closures_of_log_eq hlog)
  | closed leaf conflict hleaf hconflict _ htree hopen _ hlog =>
      exact h.of_closed hp hleaf hconflict htree hopen hlog
  | expanded inf _ hconsistent hperm _ _ htree hopen hlog =>
      exact h.of_expanded hp hconsistent (hperm.mem_iff.mpr List.mem_cons_self) htree hopen hlog

/-! What the frontier says. -/

namespace HasFrontier

/-- A node that has been closed has an inconsistent branch. -/
theorem isPathConsistent_of_mem_closedNodes (h : p.HasFrontier) {id : NodeId}
    (hid : id ∈ p.closedNodes) : p.tree.isPathConsistent id = false := by
  obtain ⟨inf, hinf, rfl⟩ := List.mem_map.mp hid
  obtain ⟨against, -, hagainst, value, hvalue, hopposite⟩ := h.due inf hinf
  exact Tree.isPathConsistent_eq_false hagainst hvalue hopposite

/-- A node without children and without a conflict on its branch is open. -/
theorem mem_openLeaves_of_isPathConsistent (h : p.HasFrontier) {id : NodeId}
    (hlt : id < p.tree.size) (hchildren : p.tree.children id = [])
    (hcons : p.tree.isPathConsistent id = true) : id ∈ p.openLeaves := by
  by_cases hid : id ∈ p.openLeaves
  · exact hid
  · have hclosed := (h.mem_closedNodes id).mpr ⟨hlt, hchildren, hid⟩
    rw [h.isPathConsistent_of_mem_closedNodes hclosed] at hcons
    contradiction

/-- While all open branches are consistent, the open leaves are the leaves of the tree. -/
theorem mem_openLeaves_iff (h : p.HasFrontier) (hp : p.Coherent)
    (hconsistent : ∀ leaf ∈ p.openLeaves, p.tree.isPathConsistent leaf = true) (id : NodeId) :
    id ∈ p.openLeaves ↔ id ∈ p.tree.leaves NodeId.root := by
  rw [hp.tree.mem_leaves_root h.owns h.root_lt]
  constructor
  · intro hid
    exact ⟨hp.open_lt id hid, hp.childless id hid, hconsistent id hid⟩
  · rintro ⟨hlt, hchildren, hcons⟩
    exact h.mem_openLeaves_of_isPathConsistent hlt hchildren hcons

end HasFrontier

section Run

variable {lexicon : Lexicon} {premises goals : List Sentence} {options : Options} {s : Search}

/-- All states that a search comes to have a frontier. -/
theorem Advances.hasFrontier {q : Prover}
    (h : Advances (start lexicon premises goals options) q) : q.Coherent ∧ q.HasFrontier :=
  h.preserves (fun _ _ hp hfrontier hadvance => hadvance.hasFrontier hp hfrontier) coherent_start
    hasFrontier_start

/-- Right after closing, the open leaves are the leaves of the tree, in the order of their
creation, and all nodes with children have consistent branches.  The closures in the log are
in one-to-one correspondence with the nodes without children that are not open, and each is
due to opposite values on the branch of its node. -/
theorem Reaches.frontier_after_close (h : (start lexicon premises goals options).Reaches s)
    (hstage : s.stage = .entering .close) (elapsed : Nat) :
    let p := (Search.step elapsed s).1.prover
    p.openLeaves.Pairwise (· < ·) ∧
      (∀ id, id ∈ p.openLeaves ↔ id ∈ p.tree.leaves NodeId.root) ∧
      (∀ id, p.tree.children id ≠ [] → p.tree.isPathConsistent id = true) ∧
      (p.closures.map (·.node)).Nodup ∧
      (∀ id, id ∈ p.closures.map (·.node) ↔
        id < p.tree.size ∧ p.tree.children id = [] ∧ id ∉ p.openLeaves) ∧
      ∀ inf ∈ p.closures, inf.IsDueToConflict p.tree := by
  intro p
  obtain ⟨hp, hfrontier⟩ : p.Coherent ∧ p.HasFrontier := (h.step elapsed).advances.hasFrontier
  have hclose : p = (s.entered .close).prover.close := by
    simp only [p, Search.step_entering hstage, Search.perform]
  have hconsistent : ∀ leaf ∈ p.openLeaves, p.tree.isPathConsistent leaf = true := by
    have hcoherent : (s.entered .close).prover.Coherent :=
      (leads_report s.prover _).coherent h.coherent
    have htree : p.tree = (s.entered .close).prover.tree := by
      rw [hclose]
      exact (foldl_recordClosure _ _).2.1
    intro leaf hleaf
    rw [hclose, openLeaves_close hcoherent] at hleaf
    rw [htree]
    exact (List.mem_filter.mp hleaf).2
  exact ⟨hfrontier.sorted, hfrontier.mem_openLeaves_iff hp hconsistent,
    hfrontier.inner, hfrontier.nodup, hfrontier.mem_closedNodes, hfrontier.due⟩

/-- Two splits one after the other.  Of their four nodes two are closed, one has children and
one is the only leaf that is open. -/
theorem frontier_after_close_of_two_splits :
    let text := "(premises (or A B) (not A)) (goals (and A B))"
    ∃ problem lexicon', Problem.read {} text = (.ok problem, lexicon') ∧
      let s := (start lexicon' problem.premises problem.goals {}).after 13
      let p := (Search.step instant s).1.prover
      s.stage = .entering .close ∧ s.prover.openLeaves = [3, 4] ∧ p.openLeaves = [3] ∧
        p.closures.map (·.node) = [1, 4] ∧ 3 ∈ p.tree.leaves NodeId.root ∧
        p.tree.isPathConsistent 2 = true ∧ ∀ inf ∈ p.closures, inf.IsDueToConflict p.tree := by
  intro text
  obtain ⟨problem, lexicon', hread, htest⟩ := Problem.exists_read_of_any {} text
    (fun problem lexicon' =>
      let s := (start lexicon' problem.premises problem.goals {}).after 13
      let p := (Search.step instant s).1.prover
      decide (s.stage = .entering .close ∧ s.prover.openLeaves = [3, 4] ∧ p.openLeaves = [3] ∧
        p.closures.map (·.node) = [1, 4] ∧ p.tree.children 2 ≠ []))
    (by decide +kernel)
  refine ⟨problem, lexicon', hread, ?_⟩
  intro s p
  obtain ⟨hstage, hbefore, hopen, hclosed, hsplit⟩ := of_decide_eq_true htest
  obtain ⟨-, hleaves, hinner, -, -, hdue⟩ :=
    (reaches_after _ 13).frontier_after_close hstage instant
  exact ⟨hstage, hbefore, hopen, hclosed, (hleaves 3).mp (hopen ▸ List.mem_singleton_self 3),
    hinner 2 hsplit, hdue⟩

/-- Before quantifiers are instantiated and before a branch is split, all else is done.  Some
leaf is open, and all open leaves have no children, no conflict and no rule waiting on their
branches.  All that is pending concerns an open leaf at or below its node. -/
theorem Reaches.saturated_on_entering (h : (start lexicon premises goals options).Reaches s)
    (hstage : s.stage = .entering .instantiate ∨ s.stage = .entering .branch) :
    s.prover.openLeaves ≠ [] ∧
      (∀ leaf ∈ s.prover.openLeaves, s.prover.tree.children leaf = [] ∧
        s.prover.tree.isPathConsistent leaf = true ∧
        Rule.undecomposed s.prover.lexicon (s.prover.tree.branch leaf) = []) ∧
      ∀ inf ∈ s.prover.pending, ∃ leaf ∈ s.prover.openLeaves,
        s.prover.tree.isDescendant leaf inf.node = true := by
  have hsettled := h.isSettled hstage
  refine ⟨hsettled.nonempty, ?_, ?_⟩
  · intro leaf hleaf
    exact ⟨h.coherent.childless leaf hleaf, hsettled.consistent leaf hleaf,
      Rule.undecomposed_eq_nil.mpr (hsettled.saturated leaf hleaf)⟩
  · intro inf hinf
    obtain ⟨leaf, hleaf, habove⟩ := h.allNeeded inf hinf
    exact ⟨leaf, hleaf, Tree.isDescendant_iff.mpr habove⟩

/-- Something is the case, but not of the only individual that has a name.  This is split first,
and the disjunction still waits when the one leaf that has been left open is instantiated and
then split in turn. -/
theorem saturated_on_entering_after_existential :
    let text := "(premises (exists x (P x)) (or (Q a) A) (not A)) (goals (P a))"
    ∃ problem lexicon', Problem.read {} text = (.ok problem, lexicon') ∧
      let p := start lexicon' problem.premises problem.goals {}
      let s := p.after 9
      let t := p.after 10
      s.stage = .entering .instantiate ∧ t.stage = .entering .branch ∧
        s.prover.openLeaves = [2] ∧ t.prover.openLeaves = [2] ∧
        s.prover.pending.map (·.node) = [0] ∧ t.prover.pending.map (·.node) = [0] ∧
        (∀ leaf ∈ s.prover.openLeaves,
          Rule.undecomposed s.prover.lexicon (s.prover.tree.branch leaf) = []) ∧
        ∀ inf ∈ t.prover.pending, ∃ leaf ∈ t.prover.openLeaves,
          t.prover.tree.isDescendant leaf inf.node = true := by
  intro text
  obtain ⟨problem, lexicon', hread, htest⟩ := Problem.exists_read_of_any {} text
    (fun problem lexicon' =>
      let p := start lexicon' problem.premises problem.goals {}
      let s := p.after 9
      let t := p.after 10
      decide (s.stage = .entering .instantiate ∧ t.stage = .entering .branch ∧
        s.prover.openLeaves = [2] ∧ t.prover.openLeaves = [2] ∧
        s.prover.pending.map (·.node) = [0] ∧ t.prover.pending.map (·.node) = [0]))
    (by decide +kernel)
  refine ⟨problem, lexicon', hread, ?_⟩
  intro p s t
  obtain ⟨hinstantiate, hbranch, hopen, hopen', hpending, hpending'⟩ := of_decide_eq_true htest
  obtain ⟨-, hleaves, -⟩ := (reaches_after p 9).saturated_on_entering (Or.inl hinstantiate)
  obtain ⟨-, -, hneeded⟩ := (reaches_after p 10).saturated_on_entering (Or.inr hbranch)
  exact ⟨hinstantiate, hbranch, hopen, hopen', hpending, hpending',
    fun leaf hleaf => (hleaves leaf hleaf).2.2, hneeded⟩

/-- A search that returns a verdict ends in a state that agrees with it.  If it is valid, no
leaf is open, there is no countermodel, and every node without children has a conflict on its
branch.  If it is invalid, there is a countermodel, and all countermodels are those of open
leaves.  It never happens that some leaf is open, none is complete, and nothing is pending. -/
theorem MayReturn.agrees_with_state {q : Prover} {verdict : Verdict}
    (h : (start lexicon premises goals options).MayReturn (q, .ok verdict)) :
    (verdict = .valid → q.openLeaves = [] ∧ q.countermodels = [] ∧
      ∀ id < q.tree.size, q.tree.children id = [] →
        ∃ conflict, Tree.pathConflict q.lexicon q.tree id = some conflict) ∧
    (verdict = .invalid → q.countermodels ≠ [] ∧ ∀ cm ∈ q.countermodels, cm.leaf ∈ q.openLeaves) ∧
    ∀ s, (start lexicon premises goals options).Reaches s → s.stage = .entering .branch →
      s.prover.hasCountermodel = false → ∃ p, s.prover.commitBranch? = some p := by
  obtain ⟨hq, hfrontier⟩ := h.advances.hasFrontier
  have hdeserves := h.deserves_verdict
  refine ⟨?valid, ?invalid, fun s hs hstage hnone => hs.exists_commitBranch? hstage hnone⟩
  case valid =>
    rintro rfl
    have hopen : q.openLeaves = [] := hdeserves
    refine ⟨hopen, by simp [countermodels, hopen], ?_⟩
    intro id hlt hchildren
    have hclosed : id ∈ q.closedNodes :=
      (hfrontier.mem_closedNodes id).mpr ⟨hlt, hchildren, by simp [hopen]⟩
    have hinconsistent := hfrontier.isPathConsistent_of_mem_closedNodes hclosed
    apply Option.ne_none_iff_exists'.mp
    rw [ne_eq, hq.tree.pathConflict_eq_none, hinconsistent]
    exact Bool.false_ne_true
  case invalid =>
    rintro rfl
    obtain ⟨cm, hcm⟩ := exists_countermodel hdeserves
    refine ⟨List.ne_nil_of_mem hcm, ?_⟩
    intro cm hcm
    obtain ⟨leaf, hleaf, -, rfl⟩ := mem_countermodels.mp hcm
    exact hleaf

/-- A disjunction without its first part proves its second part, but not both of them. -/
theorem agrees_with_state_of_disjunction :
    (∃ problem lexicon',
      Problem.read {} "(premises (or A B) (not A)) (goals B)" = (.ok problem, lexicon') ∧
        ∃ q, (start lexicon' problem.premises problem.goals {}).MayReturn (q, .ok .valid) ∧
          q.openLeaves = [] ∧ q.countermodels = []) ∧
    ∃ problem lexicon',
      Problem.read {} "(premises (or A B) (not A)) (goals (and A B))" = (.ok problem, lexicon') ∧
        ∃ q, (start lexicon' problem.premises problem.goals {}).MayReturn (q, .ok .invalid) ∧
          q.countermodels ≠ [] ∧ ∀ cm ∈ q.countermodels, cm.leaf ∈ q.openLeaves := by
  constructor
  · obtain ⟨problem, lexicon', hread, q, hvalid⟩ := Problem.exists_mayReturn_of_toOption {}
      "(premises (or A B) (not A)) (goals B)" {} 20 .valid (by decide +kernel)
    obtain ⟨hstate, -, -⟩ := hvalid.agrees_with_state
    exact ⟨problem, lexicon', hread, q, hvalid, (hstate rfl).1, (hstate rfl).2.1⟩
  · obtain ⟨problem, lexicon', hread, q, hinvalid⟩ := Problem.exists_mayReturn_of_toOption {}
      "(premises (or A B) (not A)) (goals (and A B))" {} 20 .invalid (by decide +kernel)
    obtain ⟨-, hstate, -⟩ := hinvalid.agrees_with_state
    exact ⟨problem, lexicon', hread, q, hinvalid, hstate rfl⟩

end Run

end Prover

end Tableau
