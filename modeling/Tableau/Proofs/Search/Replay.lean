/-
Replaying the log.  The log holds all that is needed to build the tree and the open leaves
again: a closure names the leaf it closes, an inference that splits is carried out at whatever
leaves are open below its node, and any other changes its own node.  Only marks can be missing,
those of inferences that have been put off and never carried out.
-/
import Tableau.Proofs.Resemblance
import Tableau.Proofs.Search.Frontier

namespace Tableau

/-- What a replay of the log has come to. -/
structure Replay where
  tree : Tree
  openLeaves : List NodeId

namespace Replay

/-- The root alone, with the facts that a search begins with. -/
def start (premises goals : List Sentence) : Replay where
  tree := Tree.ofRoot (Assignment.ofFacts (Prover.rootFacts premises goals) 0)
  openLeaves := [NodeId.root]

/-- Repeats an inference.  A closure takes its node off the open leaves.  An inference that
splits is carried out at the open leaves below its node, and the new nodes replace them.  Any
other changes its own node. -/
def step (r : Replay) (inf : Inference) : Replay :=
  if inf.isClosure then
    { r with openLeaves := r.openLeaves.filter fun leaf => leaf ≠ inf.node }
  else if inf.isBranching then
    let applied := inf.apply r.tree (r.openLeaves.filter (r.tree.isDescendant · inf.node))
    { tree := applied.1
      openLeaves := (r.openLeaves.filter fun leaf => !r.tree.isDescendant leaf inf.node) ++
        applied.2 }
  else
    { r with tree := (inf.apply r.tree []).1 }

/-- Repeats the inferences of a log in order. -/
def ofLog (premises goals : List Sentence) (log : List Inference) : Replay :=
  log.foldl step (start premises goals)

theorem ofLog_push (premises goals : List Sentence) (log : Array Inference) (inf : Inference) :
    ofLog premises goals (log.push inf).toList = (ofLog premises goals log.toList).step inf := by
  simp [ofLog]

variable {r : Replay} {inf : Inference}

theorem step_of_isClosure (h : inf.isClosure = true) :
    r.step inf = { r with openLeaves := r.openLeaves.filter fun leaf => leaf ≠ inf.node } :=
  if_pos h

theorem step_of_isBranching (hclosure : inf.isClosure = false) (h : inf.isBranching = true) :
    r.step inf =
      { tree := (inf.apply r.tree (r.openLeaves.filter (r.tree.isDescendant · inf.node))).1
        openLeaves := (r.openLeaves.filter fun leaf => !r.tree.isDescendant leaf inf.node) ++
          (inf.apply r.tree (r.openLeaves.filter (r.tree.isDescendant · inf.node))).2 } := by
  simp only [step, hclosure, h, Bool.false_eq_true, if_false, if_true]

theorem step_of_plain (hclosure : inf.isClosure = false) (h : inf.isBranching = false) :
    r.step inf = { r with tree := (inf.apply r.tree []).1 } := by
  simp only [step, hclosure, h, Bool.false_eq_true, if_false]

/-- The replay has come to the same leaves and to the same tree, perhaps with fewer marks. -/
structure Reproduces (r : Replay) (p : Prover) : Prop where
  openLeaves : r.openLeaves = p.openLeaves
  tree : r.tree.Resembles p.tree
  isMarked : ∀ id k, r.tree.isMarked id k = true → p.tree.isMarked id k = true

/-- Where the state has no mark above a node, the replay has none. -/
theorem Reproduces.unmarked {p : Prover} (h : r.Reproduces p) {id : NodeId} {k : Key}
    (habove : ∀ n ∈ p.tree.lineage id, p.tree.isMarked n k = false) :
    ∀ n ∈ r.tree.lineage id, r.tree.isMarked n k = false := by
  intro n hn
  rw [← Bool.not_eq_true]
  intro hmark
  have hnone := habove n (h.tree.lineage id ▸ hn)
  rw [h.isMarked n k hmark] at hnone
  contradiction

end Replay

/-- Where a rule is fired, its sentence has no mark on the branch. -/
theorem Rule.Fires.unmarked {lex lex' : Lexicon} {tree : Tree} {node : NodeId} {k : Key}
    {value : Bool} {inf : Inference} (h : Rule.Fires lex tree node k value inf lex') {n : NodeId}
    (hn : n ∈ tree.ancestry inf.node) : tree.isMarked n inf.origin = false := by
  rw [h.node_eq] at hn
  rw [h.origin_eq, Key.key_sentence]
  exact Tree.isMarked_eq_false h.not_decomposed hn

namespace Prover

variable {p q : Prover}

/-- The origin of a pending inference is marked at its node, and not above it. -/
def MarksPending (p : Prover) : Prop :=
  ∀ inf ∈ p.pending, p.tree.isMarked inf.node inf.origin = true ∧
    ∀ n ∈ p.tree.lineage inf.node, p.tree.isMarked n inf.origin = false

/-- Marks that are set at an open leaf are not above any node. -/
theorem Coherent.unmarked_of_leaf (hp : p.Coherent) {leaf : NodeId} (hleaf : leaf ∈ p.openLeaves)
    (hlineage : ∀ id, q.tree.lineage id = p.tree.lineage id) {marks : List Key}
    (hmarks : ∀ id k, q.tree.isMarked id k = true ↔
      p.tree.isMarked id k = true ∨ id = leaf ∧ k ∈ marks) {id : NodeId} {k : Key}
    (habove : ∀ n ∈ p.tree.lineage id, p.tree.isMarked n k = false) :
    ∀ n ∈ q.tree.lineage id, q.tree.isMarked n k = false := by
  intro n hn
  rw [hlineage] at hn
  rw [← Bool.not_eq_true, hmarks]
  rintro (hold | ⟨rfl, -⟩)
  · rw [habove n hn] at hold
    contradiction
  · exact hp.tree.children_ne_nil hn (hp.childless n hleaf)

section Fired

variable {leaf : NodeId} {k : Key} {value : Bool} {inf : Inference} (hp : p.Coherent)
  (hleaf : leaf ∈ p.openLeaves) (hfires : Rule.Fires p.lexicon p.tree leaf k value inf q.lexicon)
include hp hleaf hfires

theorem isMarked_of_performed (hsplit : inf.isBranching = false)
    (htree : q.tree = (inf.apply p.tree []).1) (id : NodeId) (k : Key) :
    q.tree.isMarked id k = true ↔
      p.tree.isMarked id k = true ∨ id = leaf ∧ k ∈ inf.addition.marks := by
  have hnode : inf.node < p.tree.size := by
    rw [hfires.node_eq]
    exact hp.open_lt leaf hleaf
  rw [htree,
    Inference.isMarked_apply hnode (fun n hn => hfires.unmarked (List.mem_cons_of_mem _ hn))
    hp.tree hfires.yields hsplit, hfires.node_eq]

theorem isMarked_of_deferred (htree : q.tree = (inf.decomposeOrigin p.tree).1) (id : NodeId)
    (k : Key) :
    q.tree.isMarked id k = true ↔
      p.tree.isMarked id k = true ∨ id = leaf ∧ k ∈ [inf.origin.key] := by
  have hnode : inf.node < p.tree.size := by
    rw [hfires.node_eq]
    exact hp.open_lt leaf hleaf
  rw [htree, Inference.decomposeOrigin, Tree.isMarked_decompose hnode
    (fun n hn => hfires.unmarked (List.mem_cons_of_mem _ hn)), hfires.node_eq, List.mem_singleton]

end Fired

/-- Carrying out a pending inference sets no mark that is not there. -/
theorem isMarked_of_expanded (hp : p.Coherent) (h : p.MarksPending) {inf : Inference}
    (hinf : inf ∈ p.pending) (htree : q.tree = (inf.apply p.tree (p.openBelow inf.node)).1)
    (id : NodeId) (k : Key) : q.tree.isMarked id k = p.tree.isMarked id k := by
  obtain ⟨hmark, habove⟩ := h inf hinf
  have hqueued := hp.queued inf hinf
  rw [Bool.eq_iff_iff, htree, Inference.isMarked_apply_of_isBranching hqueued.node_lt habove
    hqueued.splits (hp.openBelow_lt inf.node)]
  constructor
  · rintro (hold | ⟨rfl, rfl⟩)
    · exact hold
    · exact hmark
  · exact Or.inl

theorem Advance.marksPending (hadvance : Advance p q) (hp : p.Coherent) (h : p.MarksPending) :
    q.MarksPending := by
  intro inf hinf
  cases hadvance with
  | noted _ htree _ hpending =>
      rw [htree]
      exact h inf (hpending ▸ hinf)
  | performed leaf k value done hleaf hfires _ hsplit htree _ hpending =>
      have hadds := hp.adds_of_performed hleaf hfires hsplit htree
      have hmarks := isMarked_of_performed hp hleaf hfires hsplit htree
      obtain ⟨hmark, habove⟩ := h inf (hpending ▸ hinf)
      exact ⟨(hmarks ..).mpr (Or.inl hmark), hp.unmarked_of_leaf hleaf hadds.lineage hmarks habove⟩
  | deferred leaf k value new hleaf hfires _ _ htree _ hpending =>
      have hadds := hp.adds_of_deferred hleaf hfires htree
      have hmarks := isMarked_of_deferred hp hleaf hfires htree
      rw [hpending, List.mem_append, List.mem_singleton] at hinf
      rcases hinf with hold | rfl
      · obtain ⟨hmark, habove⟩ := h inf hold
        exact ⟨(hmarks ..).mpr (Or.inl hmark),
          hp.unmarked_of_leaf hleaf hadds.lineage hmarks habove⟩
      · have habove : ∀ n ∈ p.tree.lineage inf.node, p.tree.isMarked n inf.origin = false :=
          fun n hn => hfires.unmarked (List.mem_cons_of_mem _ hn)
        exact ⟨(hmarks ..).mpr (Or.inr ⟨hfires.node_eq, List.mem_singleton_self _⟩),
          hp.unmarked_of_leaf hleaf hadds.lineage hmarks habove⟩
  | closed _ _ _ _ _ htree _ hpending =>
      rw [htree]
      exact h inf (hpending ▸ hinf)
  | pruned _ htree _ hpending =>
      rw [hpending] at hinf
      rw [htree]
      exact h inf (List.mem_filter.mp hinf).1
  | expanded done _ _ hperm hsub _ htree =>
      have hdone : done ∈ p.pending := hperm.mem_iff.mpr List.mem_cons_self
      have hgrafts := hp.grafts_of_expanded hdone htree
      have hold := hsub.subset hinf
      simp only [isMarked_of_expanded hp h hdone htree,
        hgrafts.lineage inf.node (hp.queued inf hold).node_lt]
      exact h inf hold

end Prover

/-! Every advance is repeated. -/

namespace Replay.Reproduces

open Prover

variable {r : Replay} {p q : Prover} {inf : Inference} (h : r.Reproduces p) (hp : p.Coherent)
include h

theorem openBelow (node : NodeId) :
    r.openLeaves.filter (r.tree.isDescendant · node) = p.openBelow node := by
  simp only [Prover.openBelow, h.openLeaves, h.tree.isDescendant]

theorem openElsewhere (node : NodeId) :
    (r.openLeaves.filter fun leaf => !r.tree.isDescendant leaf node) = p.openElsewhere node := by
  simp only [Prover.openElsewhere, h.openLeaves, h.tree.isDescendant]

include hp

/-- The replay of a rule that does not split sets the mark that the rule sets. -/
theorem isMarked_step_of_fires {leaf : NodeId} {k : Key} {value : Bool} {lex : Lexicon}
    (hleaf : leaf ∈ p.openLeaves) (hfires : Rule.Fires p.lexicon p.tree leaf k value inf lex)
    (hsplit : inf.isBranching = false) (id : NodeId) (k : Key) :
    (r.step inf).tree.isMarked id k = true ↔
      r.tree.isMarked id k = true ∨ id = leaf ∧ k ∈ inf.addition.marks := by
  have hnode : inf.node < r.tree.size := by
    rw [hfires.node_eq, h.tree.size]
    exact hp.open_lt leaf hleaf
  have habove := h.unmarked fun n hn => hfires.unmarked (List.mem_cons_of_mem _ hn)
  rw [step_of_plain hfires.yields.isClosure_eq_false hsplit]
  simp only
  rw [Inference.isMarked_apply hnode habove (h.tree.coherent hp.tree) hfires.yields hsplit,
    hfires.node_eq]

/-- The replay of a pending inference sets the mark that was set when it was put off. -/
theorem isMarked_step_of_pending (hmarks : p.MarksPending) (hinf : inf ∈ p.pending)
    (id : NodeId) (k : Key) :
    (r.step inf).tree.isMarked id k = true ↔
      r.tree.isMarked id k = true ∨ id = inf.node ∧ k = inf.origin.key := by
  have hqueued := hp.queued inf hinf
  obtain ⟨value, -, hyields⟩ := hqueued.exists_value
  have hleaves : ∀ leaf ∈ p.openBelow inf.node, leaf < r.tree.size :=
    fun leaf hleaf => h.tree.size ▸ hp.openBelow_lt inf.node leaf hleaf
  rw [step_of_isBranching hyields.isClosure_eq_false hqueued.splits]
  simp only [h.openBelow]
  exact Inference.isMarked_apply_of_isBranching (h.tree.size ▸ hqueued.node_lt)
    (h.unmarked (hmarks inf hinf).2) hqueued.splits hleaves

theorem performed {leaf : NodeId} {k : Key} {value : Bool} (hleaf : leaf ∈ p.openLeaves)
    (hfires : Rule.Fires p.lexicon p.tree leaf k value inf q.lexicon)
    (hsplit : inf.isBranching = false) (htree : q.tree = (inf.apply p.tree []).1)
    (hopen : q.openLeaves = p.openLeaves) : (r.step inf).Reproduces q := by
  have hstep : r.step inf = { r with tree := (inf.apply r.tree []).1 } :=
    step_of_plain hfires.yields.isClosure_eq_false hsplit
  constructor
  · rw [hstep, hopen]
    exact h.openLeaves
  · rw [hstep, htree]
    exact Inference.apply_of_resembles h.tree inf []
  · intro id k
    rw [h.isMarked_step_of_fires hp hleaf hfires hsplit,
      isMarked_of_performed hp hleaf hfires hsplit htree]
    exact Or.imp_left (h.isMarked id k)

theorem deferred {leaf : NodeId} {k : Key} {value : Bool} (hleaf : leaf ∈ p.openLeaves)
    (hfires : Rule.Fires p.lexicon p.tree leaf k value inf q.lexicon)
    (htree : q.tree = (inf.decomposeOrigin p.tree).1) (hopen : q.openLeaves = p.openLeaves) :
    r.Reproduces q := by
  constructor
  · exact h.openLeaves.trans hopen.symm
  · rw [htree]
    exact h.tree.trans (Tree.Resembles.of_decompose inf.node inf.origin p.tree).symm
  · intro id k hmark
    exact (isMarked_of_deferred hp hleaf hfires htree id k).mpr (Or.inl (h.isMarked id k hmark))

theorem closed (hfrontier : p.HasFrontier) {leaf : NodeId} {conflict : Conflict}
    (hconflict : Tree.pathConflict p.lexicon p.tree leaf = some conflict)
    (htree : q.tree = p.tree)
    (hopen : q.openLeaves = p.openLeaves.filter fun other => other ≠ leaf) :
    (r.step (p.closure conflict)).Reproduces q := by
  have hnode : (p.closure conflict).node = leaf := hfrontier.node_of_pathConflict hp hconflict
  rw [step_of_isClosure rfl, hnode]
  constructor
  · rw [hopen, h.openLeaves]
  · exact htree ▸ h.tree
  · exact htree ▸ h.isMarked

theorem expanded (hmarks : p.MarksPending) (hinf : inf ∈ p.pending)
    (htree : q.tree = (inf.apply p.tree (p.openBelow inf.node)).1)
    (hopen : q.openLeaves =
      p.openElsewhere inf.node ++ (inf.apply p.tree (p.openBelow inf.node)).2) :
    (r.step inf).Reproduces q := by
  have hqueued := hp.queued inf hinf
  obtain ⟨value, -, hyields⟩ := hqueued.exists_value
  have hstep : r.step inf =
      { tree := (inf.apply r.tree (p.openBelow inf.node)).1
        openLeaves := p.openElsewhere inf.node ++
          (inf.apply r.tree (p.openBelow inf.node)).2 } := by
    rw [step_of_isBranching hyields.isClosure_eq_false hqueued.splits, h.openBelow, h.openElsewhere]
  constructor
  · rw [hstep, hopen, Inference.created_of_resembles h.tree hqueued.splits]
  · rw [hstep, htree]
    exact Inference.apply_of_resembles h.tree inf _
  · intro id k
    rw [h.isMarked_step_of_pending hp hmarks hinf, isMarked_of_expanded hp hmarks hinf htree]
    rintro (hold | ⟨rfl, rfl⟩)
    · exact h.isMarked id k hold
    · exact (hmarks inf hinf).1

end Replay.Reproduces

namespace Prover

variable {p q : Prover} {premises goals : List Sentence}

/-- The replay of the log comes to the state, which has what the replay relies on. -/
structure IsReplayable (premises goals : List Sentence) (p : Prover) : Prop where
  frontier : p.HasFrontier
  numbered : p.IsNumbered
  marks : p.MarksPending
  reproduces : (Replay.ofLog premises goals p.log.toList).Reproduces p

theorem Advance.isReplayable (hadvance : Advance p q) (hp : p.Coherent)
    (h : p.IsReplayable premises goals) : q.IsReplayable premises goals where
  frontier := hadvance.hasFrontier hp h.frontier
  numbered := hadvance.isNumbered h.numbered
  marks := hadvance.marksPending hp h.marks
  reproduces := by
    have hr := h.reproduces
    cases hadvance with
    | noted _ htree hopen _ hlog | pruned _ htree hopen _ hlog =>
        rw [hlog]
        exact ⟨hr.openLeaves.trans hopen.symm, htree ▸ hr.tree, htree ▸ hr.isMarked⟩
    | performed leaf k value inf hleaf hfires _ hsplit htree hopen _ hlog =>
        rw [hlog, Replay.ofLog_push]
        exact hr.performed hp hleaf hfires hsplit htree hopen
    | deferred leaf k value inf hleaf hfires _ _ htree hopen _ hlog =>
        rw [hlog]
        exact hr.deferred hp hleaf hfires htree hopen
    | closed leaf conflict hleaf hconflict _ htree hopen _ hlog =>
        rw [hlog, Replay.ofLog_push]
        exact hr.closed hp h.frontier hconflict htree hopen
    | expanded inf _ _ hperm _ _ htree hopen hlog =>
        rw [hlog, Replay.ofLog_push]
        exact hr.expanded hp h.marks (hperm.mem_iff.mpr List.mem_cons_self) htree hopen

theorem IsReplayable.report (h : p.IsReplayable premises goals) (hp : p.Coherent) (event : Event) :
    (p.report event).IsReplayable premises goals := by
  have hnoted : Advance p (p.report event) := .noted rfl rfl rfl rfl rfl rfl
  exact hnoted.isReplayable hp h

/-! Marks that are missing. -/

/-- The replay of the next advance keeps the marks. -/
theorem Advance.isMarked_replay (hadvance : Advance p q) (hp : p.Coherent)
    (h : p.IsReplayable premises goals) {id : NodeId} {k : Key}
    (hmark : (Replay.ofLog premises goals p.log.toList).tree.isMarked id k = true) :
    (Replay.ofLog premises goals q.log.toList).tree.isMarked id k = true := by
  cases hadvance with
  | noted _ _ _ _ hlog | pruned _ _ _ _ hlog | deferred _ _ _ _ _ _ _ _ _ _ _ hlog =>
      rw [hlog]
      exact hmark
  | performed leaf k value inf hleaf hfires _ hsplit _ _ _ hlog =>
      rw [hlog, Replay.ofLog_push, h.reproduces.isMarked_step_of_fires hp hleaf hfires hsplit]
      exact Or.inl hmark
  | closed _ _ _ _ _ _ _ _ hlog =>
      rw [hlog, Replay.ofLog_push, Replay.step_of_isClosure rfl]
      exact hmark
  | expanded inf _ _ hperm _ _ _ _ hlog =>
      rw [hlog, Replay.ofLog_push, h.reproduces.isMarked_step_of_pending hp h.marks
        (hperm.mem_iff.mpr List.mem_cons_self)]
      exact Or.inl hmark

/-- The replay sets the marks of all inferences in the log that split. -/
def MarksLogged (premises goals : List Sentence) (p : Prover) : Prop :=
  ∀ inf ∈ p.log, inf.isBranching = true →
    (Replay.ofLog premises goals p.log.toList).tree.isMarked inf.node inf.origin = true

theorem Advance.marksLogged (hadvance : Advance p q) (hp : p.Coherent)
    (h : p.IsReplayable premises goals) (hlogged : p.MarksLogged premises goals) :
    q.MarksLogged premises goals := by
  intro inf hinf hsplit
  have hold : inf ∈ p.log →
      (Replay.ofLog premises goals q.log.toList).tree.isMarked inf.node inf.origin = true :=
    fun hmem => hadvance.isMarked_replay hp h (hlogged inf hmem hsplit)
  cases hadvance with
  | noted _ _ _ _ hlog | pruned _ _ _ _ hlog | deferred _ _ _ _ _ _ _ _ _ _ _ hlog =>
      exact hold (hlog ▸ hinf)
  | performed _ _ _ done _ _ _ hplain _ _ _ hlog =>
      rw [hlog, Array.mem_push] at hinf
      rcases hinf with hmem | rfl
      · exact hold hmem
      · rw [hplain] at hsplit
        contradiction
  | closed _ _ _ _ _ _ _ _ hlog =>
      rw [hlog, Array.mem_push] at hinf
      rcases hinf with hmem | rfl
      · exact hold hmem
      · simp [closure, Inference.isBranching] at hsplit
  | expanded done _ _ hperm _ _ _ _ hlog =>
      have hinf' := hinf
      rw [hlog, Array.mem_push] at hinf'
      rcases hinf' with hmem | rfl
      · exact hold hmem
      · rw [hlog, Replay.ofLog_push, h.reproduces.isMarked_step_of_pending hp h.marks
          (hperm.mem_iff.mpr List.mem_cons_self)]
        exact Or.inr ⟨rfl, rfl⟩

/-- The replay sets a mark, or the mark is that of a pending inference. -/
def ExplainsMark (premises goals : List Sentence) (p : Prover) (id : NodeId) (k : Key) : Prop :=
  (Replay.ofLog premises goals p.log.toList).tree.isMarked id k = true ∨
    ∃ inf ∈ p.pending, inf.node = id ∧ inf.origin.key = k

/-- A mark is an old one, or the replay sets it, or it is that of an inference that is put
off. -/
theorem Advance.isMarked_cases (hadvance : Advance p q) (hp : p.Coherent)
    (h : p.IsReplayable premises goals) {id : NodeId} {k : Key}
    (hmark : q.tree.isMarked id k = true) :
    p.tree.isMarked id k = true ∨ q.ExplainsMark premises goals id k := by
  cases hadvance with
  | noted _ htree | pruned _ htree | closed _ _ _ _ _ htree => exact Or.inl (htree ▸ hmark)
  | performed leaf k' value inf hleaf hfires _ hsplit htree _ _ hlog =>
      rcases (isMarked_of_performed hp hleaf hfires hsplit htree ..).mp hmark with hold | hnew
      · exact Or.inl hold
      · refine Or.inr (Or.inl ?_)
        rw [hlog, Replay.ofLog_push, h.reproduces.isMarked_step_of_fires hp hleaf hfires hsplit]
        exact Or.inr hnew
  | deferred leaf k value inf hleaf hfires _ _ htree _ hpending =>
      rcases (isMarked_of_deferred hp hleaf hfires htree ..).mp hmark with hold | ⟨hid, hk⟩
      · exact Or.inl hold
      · refine Or.inr
          (Or.inr ⟨inf, ?_, hfires.node_eq.trans hid.symm, (List.mem_singleton.mp hk).symm⟩)
        rw [hpending]
        exact List.mem_append_right _ (List.mem_singleton_self inf)
  | expanded inf _ _ hperm _ _ htree =>
      rw [isMarked_of_expanded hp h.marks (hperm.mem_iff.mpr List.mem_cons_self) htree] at hmark
      exact Or.inl hmark

theorem Advances.isMarked_replay (h : Advances p q) (hp : p.Coherent)
    (hreplayable : p.IsReplayable premises goals) {id : NodeId} {k : Key}
    (hmark : (Replay.ofLog premises goals p.log.toList).tree.isMarked id k = true) :
    (Replay.ofLog premises goals q.log.toList).tree.isMarked id k = true := by
  have hkept := h.preserves (P := fun q => q.IsReplayable premises goals ∧
    (Replay.ofLog premises goals q.log.toList).tree.isMarked id k = true) ?_ hp ⟨hreplayable, hmark⟩
  · exact hkept.2.2
  · intro p q hp hboth hadvance
    exact ⟨hadvance.isReplayable hp hboth.1, hadvance.isMarked_replay hp hboth.1 hboth.2⟩

/-- What is pending stays so while rules are fired. -/
theorem CommitsAt.pending_subset {leaf : NodeId} (h : p.CommitsAt leaf q) (hp : p.Coherent) :
    p.pending ⊆ q.pending := by
  obtain ⟨hleaf, k, value, inf, lex, hfires, -, rfl⟩ := h
  cases hsplit : inf.isBranching with
  | true =>
      rw [(commit_of_isBranching hp hleaf hfires hsplit).2]
      exact List.subset_append_left _ _
  | false =>
      rw [(commit_of_not_isBranching hp hleaf hfires hsplit).2]
      exact fun _ hinf => hinf

/-- After any number of rules, the marks are old ones or can be explained. -/
theorem Commits.isMarked_cases (h : p.Commits q) (hp : p.Coherent)
    (hreplayable : p.IsReplayable premises goals) {id : NodeId} {k : Key}
    (hmark : q.tree.isMarked id k = true) :
    p.tree.isMarked id k = true ∨ q.ExplainsMark premises goals id k := by
  have hcases := h.preserves (P := fun q => q.IsReplayable premises goals ∧
    (q.tree.isMarked id k = true →
      p.tree.isMarked id k = true ∨ q.ExplainsMark premises goals id k)) ?_ hp ⟨hreplayable, Or.inl⟩
  · exact hcases.2.2 hmark
  · intro r q leaf hr ⟨hreplayable, hcases⟩ hlast
    refine ⟨hlast.advance.isReplayable hr hreplayable, fun hmark => ?_⟩
    rcases hlast.advance.isMarked_cases hr hreplayable hmark with hold | hnew
    · rcases hcases hold with hfirst | hset | ⟨inf, hinf, hplace⟩
      · exact Or.inl hfirst
      · exact Or.inr (Or.inl (hlast.advance.isMarked_replay hr hreplayable hset))
      · exact Or.inr (Or.inr ⟨inf, hlast.pending_subset hr hinf, hplace⟩)
    · exact Or.inr hnew

end Prover

namespace Search

variable {s : Search} {premises goals : List Sentence} {id : NodeId} {k : Key}

theorem isMarked_perform (hp : s.prover.Coherent) (hneeded : s.prover.AllNeeded) {phase : Phase}
    (hstage : s.stage = .entering phase) (horder : s.IsInOrder)
    (h : s.prover.IsReplayable premises goals) (elapsed : Nat) :
    (s.perform elapsed phase).prover.tree.isMarked id k = true →
      s.prover.tree.isMarked id k = true ∨
        (s.perform elapsed phase).prover.ExplainsMark premises goals id k := by
  cases phase with
  | saturate =>
      simp only [perform]
      split <;> exact Or.inl
  | close =>
      have htree : s.prover.close.tree = s.prover.tree := (Prover.foldl_recordClosure ..).2.1
      intro hmark
      exact Or.inl (htree ▸ hmark)
  | instantiate =>
      have hreport := Prover.leads_report s.prover (.obligations s.prover.obligations.length)
      have hcommits := Prover.commits_discharge (hreport.coherent hp) s.prover.obligations
      have hcases : s.prover.instantiate.1.tree.isMarked id k = true →
          s.prover.tree.isMarked id k = true ∨
            s.prover.instantiate.1.ExplainsMark premises goals id k :=
        hcommits.isMarked_cases (hreport.coherent hp) (h.report hp _)
      simp only [perform]
      split
      all_goals
        next heq =>
          rw [heq] at hcases
          exact hcases
  | branch =>
      simp only [IsInOrder, hstage] at horder
      simp only [perform]
      split
      · exact Or.inl
      · split
        · next heq =>
            exact (Prover.advance_commitBranch? heq hneeded horder.1.consistent).isMarked_cases hp h
        · exact Or.inl
  | complete verdict => exact Or.inl

/-- After a step, the marks are old ones or can be explained. -/
theorem isMarked_step (hp : s.prover.Coherent) (hneeded : s.prover.AllNeeded)
    (horder : s.IsInOrder) (h : s.prover.IsReplayable premises goals) (elapsed : Nat)
    (hmark : (step elapsed s).1.prover.tree.isMarked id k = true) :
    s.prover.tree.isMarked id k = true ∨
      (step elapsed s).1.prover.ExplainsMark premises goals id k := by
  cases hstage : s.stage with
  | entering phase =>
      have hreport := Prover.leads_report s.prover (.entered phase s.prover.openLeaves.length)
      rw [step_entering hstage] at hmark ⊢
      exact isMarked_perform (s := s.entered phase) (hreport.coherent hp) hneeded hstage
        (horder.entered phase) (h.report hp _) elapsed hmark
  | saturating =>
      have hcommits := Prover.commits_each_fire (p := s.prover)
        fun _ h => Prover.mem_openLeaves_of_mem_saturationCandidates h
      rw [step_saturating hstage] at hmark ⊢
      exact hcommits.isMarked_cases hp h hmark
  | done | failed =>
      rw [step_of_isOver (by simp [isOver, hstage])] at hmark
      exact Or.inl hmark

end Search

namespace Prover

section Run

variable {q : Prover} {lexicon : Lexicon} {premises goals : List Sentence} {options : Options}
  {s : Search}

theorem isReplayable_start :
    (start lexicon premises goals options).IsReplayable premises goals where
  frontier := hasFrontier_start
  numbered := isNumbered_start
  marks := by simp [MarksPending]
  reproduces := by
    have hlog : Replay.ofLog premises goals (start lexicon premises goals options).log.toList =
        Replay.start premises goals := by
      rw [log_start]
      rfl
    rw [hlog]
    constructor
    · rw [openLeaves_start, Replay.start]
    · rw [tree_start, Replay.start]
      exact .refl _
    · rw [tree_start, Replay.start]
      exact fun _ _ hmark => hmark

/-- The log can be replayed in every state that a search comes to. -/
theorem Advances.isReplayable (h : Advances (start lexicon premises goals options) q) :
    q.Coherent ∧ q.IsReplayable premises goals ∧ q.MarksLogged premises goals := by
  apply h.preserves _ coherent_start ⟨isReplayable_start, by simp [MarksLogged]⟩
  intro p q hp hreplayable hadvance
  exact ⟨hadvance.isReplayable hp hreplayable.1,
    hadvance.marksLogged hp hreplayable.1 hreplayable.2⟩

/-- The marks that a replay misses are those of inferences that have been put off and not been
carried out. -/
theorem Reaches.exists_putOff (h : (start lexicon premises goals options).Reaches s)
    {id : NodeId} {k : Key} (hmark : s.prover.tree.isMarked id k = true) :
    (Replay.ofLog premises goals s.prover.log.toList).tree.isMarked id k = true ∨
      ∃ t inf, (start lexicon premises goals options).Reaches t ∧ t.Proceeds s ∧
        inf ∈ t.prover.pending ∧ inf ∉ s.prover.log ∧ inf.node = id ∧ inf.origin.key = k := by
  induction h with
  | first => exact Or.inl (by simpa [search, Replay.ofLog, Replay.start] using hmark)
  | @step s elapsed hs ih =>
      obtain ⟨hp, hreplayable, -⟩ := hs.advances.isReplayable
      obtain ⟨-, hreplayable', hlogged⟩ := (hs.step elapsed).advances.isReplayable
      have hstep := hs.advances_step elapsed
      rcases Search.isMarked_step hp hs.allNeeded hs.isInOrder hreplayable elapsed hmark with
        hold | hset | ⟨inf, hinf, hplace⟩
      · rcases ih hold with hset | ⟨t, inf, ht, hts, hinf, -, hnode, horigin⟩
        · exact Or.inl (hstep.isMarked_replay hp hreplayable hset)
        · by_cases hlog : inf ∈ (Search.step elapsed s).1.prover.log
          · have hsplit := (ht.coherent.queued inf hinf).splits
            exact Or.inl (hnode ▸ horigin ▸ hlogged inf hlog hsplit)
          · exact Or.inr ⟨t, inf, ht, hts.step elapsed, hinf, hlog, hnode, horigin⟩
      · exact Or.inl hset
      · exact Or.inr ⟨_, inf, hs.step elapsed, .refl, hinf, hreplayable'.numbered.not_mem_log hinf,
          hplace⟩
  | @again s hs hover ih =>
      -- a search that is repeated goes on with the same tree and the same log
      have htree : s.finish.1.search.prover.tree = s.prover.tree := s.tree_finish
      have hlog : s.finish.1.search.prover.log = s.prover.log := s.log_finish
      rw [htree] at hmark
      rw [hlog]
      rcases ih hmark with hset | ⟨t, inf, ht, hts, hinf⟩
      · exact Or.inl hset
      · exact Or.inr ⟨t, inf, ht, hts.again hover, hinf⟩

/-- The log can be replayed.  In every state that a search reaches, replaying its inferences in
order comes to the same open leaves and to a tree with the same nodes, parents, children, facts,
numbers and instances.  Marks are different only where the replay misses that of an inference
which has been put off and not been carried out. -/
theorem Reaches.reproduces_log (h : (start lexicon premises goals options).Reaches s) :
    let r := Replay.ofLog premises goals s.prover.log.toList
    r.openLeaves = s.prover.openLeaves ∧ r.tree.Resembles s.prover.tree ∧
      ∀ id k, (r.tree.content id).isDecomposed k ≠ (s.prover.tree.content id).isDecomposed k →
        (s.prover.tree.content id).isDecomposed k = true ∧
          ∃ t inf, (start lexicon premises goals options).Reaches t ∧ t.Proceeds s ∧
            inf ∈ t.prover.pending ∧ inf ∉ s.prover.log ∧
            inf.node = id ∧ inf.origin = k.sentence := by
  intro r
  obtain ⟨-, hreplayable, -⟩ := h.advances.isReplayable
  have hr : r.Reproduces s.prover := hreplayable.reproduces
  refine ⟨hr.openLeaves, hr.tree, fun id k hne => ?_⟩
  change r.tree.isMarked id k ≠ s.prover.tree.isMarked id k at hne
  change s.prover.tree.isMarked id k = true ∧ _
  cases hmark : s.prover.tree.isMarked id k with
  | false =>
      rw [hmark, ne_eq, Bool.not_eq_false] at hne
      rw [hr.isMarked id k hne] at hmark
      contradiction
  | true =>
      refine ⟨rfl, ?_⟩
      rcases h.exists_putOff hmark with hset | ⟨t, inf, ht, hts, hinf, hlog, hnode, horigin⟩
      · exact absurd (hset.trans hmark.symm) hne
      · exact ⟨t, inf, ht, hts, hinf, hlog, hnode, by rw [← horigin, Key.sentence_key]⟩

/-- A disjunction is put off on a branch that is closed at once.  The replay of the four
inferences in the log comes to the same leaf without the mark of the disjunction. -/
theorem reproduces_log_of_forgotten_split :
    let text := "(premises (or (and C (not C) (or A B)) D))"
    let either : Sentence := .disj [.atom "A", .atom "B"]
    ∃ problem lexicon', Problem.read {} text = (.ok problem, lexicon') ∧
      let p := start lexicon' problem.premises problem.goals {}
      let s := p.after 14
      let r := Replay.ofLog problem.premises problem.goals s.prover.log.toList
      s.stage = .done .invalid ∧ s.prover.log.size = 4 ∧ s.prover.pending = [] ∧
        r.openLeaves = s.prover.openLeaves ∧ r.tree.Resembles s.prover.tree ∧
        (r.tree.content 1).isDecomposed either ≠ (s.prover.tree.content 1).isDecomposed either ∧
        ∃ t inf, p.Reaches t ∧ t.Proceeds s ∧ inf ∈ t.prover.pending ∧ inf ∉ s.prover.log ∧
          inf.node = 1 ∧ inf.origin = either := by
  intro text either
  obtain ⟨problem, lexicon', hread, htest⟩ := Problem.exists_read_of_any {} text
    (fun problem lexicon' =>
      let s := (start lexicon' problem.premises problem.goals {}).after 14
      let r := Replay.ofLog problem.premises problem.goals s.prover.log.toList
      decide (s.stage = .done .invalid ∧ s.prover.log.size = 4 ∧ s.prover.pending = [] ∧
        (r.tree.content 1).isDecomposed either ≠ (s.prover.tree.content 1).isDecomposed either))
    (by decide +kernel)
  refine ⟨problem, lexicon', hread, ?_⟩
  intro p s r
  obtain ⟨hstage, hsize, hpending, hmissing⟩ := of_decide_eq_true htest
  obtain ⟨hopen, htree, hmarks⟩ := (reaches_after p 14).reproduces_log
  obtain ⟨-, t, inf, ht, hts, hinf, hlog, hnode, horigin⟩ := hmarks 1 either hmissing
  exact ⟨hstage, hsize, hpending, hopen, htree, hmissing, t, inf, ht, hts, hinf, hlog, hnode,
    by rw [horigin, Key.sentence_key]⟩

end Run

end Prover

end Tableau
