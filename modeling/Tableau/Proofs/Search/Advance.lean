/-
What a search puts into its log.  Every phase is a sequence of advances, each of which makes
at most one entry: a rule that is carried out, a branch that is closed, or a pending inference
that is committed.  An inference gets its number when its rule is fired, and one that is put
off enters the log much later.  What is proved here says once what the log, the numbers and
the tree have to do with each other; the invariants of the log follow from it.
-/
import Tableau.Proofs.Search.Phase
import Tableau.Proofs.Search.Queue

namespace Tableau

namespace Prover

variable {p q : Prover} {leaf : NodeId} {conflict : Conflict}

/-- The entry that closes a branch because of a conflict. -/
def closure (p : Prover) (conflict : Conflict) : Inference where
  node := conflict.node
  origin := conflict.sentence
  number := p.nextNumber
  justification := ((p.tree.branch conflict.node).justification conflict.sentence true).getD 0
  effect := .closure conflict.against

/-- One advance of a search. -/
inductive Advance (p q : Prover) : Prop where
  /-- Only events and statistics are noted. -/
  | noted (hlex : q.lexicon = p.lexicon) (htree : q.tree = p.tree)
      (hopen : q.openLeaves = p.openLeaves) (hpending : q.pending = p.pending)
      (hlog : q.log = p.log) (hcounter : q.counter = p.counter)
  /-- A rule that does not split is fired at an open leaf and carried out. -/
  | performed (leaf : NodeId) (k : Key) (value : Bool) (inf : Inference)
      (hleaf : leaf ∈ p.openLeaves)
      (hfires : Rule.Fires p.lexicon p.tree leaf k value inf q.lexicon)
      (hnumber : inf.number = p.nextNumber) (hsplit : inf.isBranching = false)
      (htree : q.tree = (inf.apply p.tree []).1)
      (hopen : q.openLeaves = p.openLeaves) (hpending : q.pending = p.pending)
      (hlog : q.log = p.log.push inf) (hcounter : q.counter = p.nextNumber)
  /-- A rule that splits is fired at an open leaf and put off. -/
  | deferred (leaf : NodeId) (k : Key) (value : Bool) (inf : Inference)
      (hleaf : leaf ∈ p.openLeaves)
      (hfires : Rule.Fires p.lexicon p.tree leaf k value inf q.lexicon)
      (hnumber : inf.number = p.nextNumber) (hsplit : inf.isBranching = true)
      (htree : q.tree = (inf.decomposeOrigin p.tree).1)
      (hopen : q.openLeaves = p.openLeaves) (hpending : q.pending = p.pending ++ [inf])
      (hlog : q.log = p.log) (hcounter : q.counter = p.nextNumber)
  /-- A leaf with a conflict on its branch is closed. -/
  | closed (leaf : NodeId) (conflict : Conflict) (hleaf : leaf ∈ p.openLeaves)
      (hconflict : Tree.pathConflict p.lexicon p.tree leaf = some conflict)
      (hlex : q.lexicon = p.lexicon) (htree : q.tree = p.tree)
      (hopen : q.openLeaves = p.openLeaves.filter fun other => other ≠ leaf)
      (hpending : q.pending = p.pending)
      (hlog : q.log = p.log.push (p.closure conflict)) (hcounter : q.counter = p.nextNumber)
  /-- The pending inferences that no open leaf is left for are forgotten. -/
  | pruned (hlex : q.lexicon = p.lexicon) (htree : q.tree = p.tree)
      (hopen : q.openLeaves = p.openLeaves)
      (hpending : q.pending = p.pending.filter fun inf =>
        p.openLeaves.any (p.tree.isDescendant · inf.node))
      (hlog : q.log = p.log) (hcounter : q.counter = p.counter)
  /-- A pending inference is carried out at all open leaves below its node, of which there are
  some, while the branches of all open leaves are consistent. -/
  | expanded (inf : Inference) (hneeded : ∃ leaf ∈ p.openLeaves, inf.node ∈ p.tree.ancestry leaf)
      (hconsistent : ∀ leaf ∈ p.openLeaves, p.tree.isPathConsistent leaf = true)
      (hperm : p.pending.Perm (inf :: q.pending)) (hsub : q.pending.Sublist p.pending)
      (hlex : q.lexicon = p.lexicon)
      (htree : q.tree = (inf.apply p.tree (p.openBelow inf.node)).1)
      (hopen : q.openLeaves =
        p.openElsewhere inf.node ++ (inf.apply p.tree (p.openBelow inf.node)).2)
      (hlog : q.log = p.log.push inf) (hcounter : q.counter = p.counter)

/-- With the same tree, fewer open leaves and fewer pending inferences, the parts of a search
still fit together. -/
theorem Coherent.of_fewer (hp : p.Coherent) (hlex : q.lexicon = p.lexicon)
    (htree : q.tree = p.tree) (hopen : q.openLeaves.Sublist p.openLeaves)
    (hpending : q.pending.Sublist p.pending) : q.Coherent where
  tree := htree ▸ hp.tree
  open_lt leaf hleaf := htree ▸ hp.open_lt leaf (hopen.subset hleaf)
  childless leaf hleaf := htree ▸ hp.childless leaf (hopen.subset hleaf)
  nodup := hp.nodup.sublist hopen
  queued inf hinf := by
    obtain ⟨hlt, hsplits, hmarked, hvalue⟩ := hp.queued inf (hpending.subset hinf)
    exact ⟨htree ▸ hlt, hsplits, htree ▸ hmarked, htree ▸ hlex ▸ hvalue⟩
  instances := by
    rw [htree, hlex]
    exact hp.instances

/-! What an advance does to the tree. -/

section Tree

variable {k : Key} {value : Bool} {inf : Inference} {lex : Lexicon} (hp : p.Coherent)
include hp

theorem Coherent.adds_of_performed (hleaf : leaf ∈ p.openLeaves)
    (hfires : Rule.Fires p.lexicon p.tree leaf k value inf lex) (hsplit : inf.isBranching = false)
    (htree : q.tree = (inf.apply p.tree []).1) : p.tree.Adds leaf inf.addition q.tree := by
  rw [htree]
  exact hfires.adds_apply hp.tree (hp.open_lt leaf hleaf) hsplit

theorem Coherent.adds_of_deferred (hleaf : leaf ∈ p.openLeaves)
    (hfires : Rule.Fires p.lexicon p.tree leaf k value inf lex)
    (htree : q.tree = (inf.decomposeOrigin p.tree).1) :
    p.tree.Adds leaf { marks := [k] } q.tree := by
  rw [htree]
  exact hfires.adds_decomposeOrigin hp.tree (hp.open_lt leaf hleaf)

theorem Coherent.grafts_of_expanded (hinf : inf ∈ p.pending)
    (htree : q.tree = (inf.apply p.tree (p.openBelow inf.node)).1) :
    p.tree.Grafts (p.openBelow inf.node)
      (inf.outcomes.map fun facts => Assignment.ofFacts facts inf.number) q.tree
      (inf.apply p.tree (p.openBelow inf.node)).2 := by
  rw [htree]
  exact (hp.queued inf hinf).grafts_apply hp

end Tree

namespace Advance

/-- An advance is a transition, but for those that closing is made of.  They take open leaves or
pending inferences away and leave everything else as it is. -/
theorem transition_or_fewer (h : Advance p q) (hp : p.Coherent) :
    Transition p q ∨ q.lexicon = p.lexicon ∧ q.tree = p.tree ∧
      q.openLeaves.Sublist p.openLeaves ∧ q.pending.Sublist p.pending := by
  cases h with
  | noted hlex htree hopen hpending => exact Or.inl (.noted hlex htree hopen hpending)
  | performed leaf k value inf hleaf hfires _ hsplit htree hopen hpending =>
      have hadds := hp.adds_of_performed hleaf hfires hsplit htree
      exact Or.inl (.added leaf k value inf hleaf hfires hsplit hadds hopen hpending)
  | deferred leaf k value inf hleaf hfires _ hsplit htree hopen hpending =>
      have hadds := hp.adds_of_deferred hleaf hfires htree
      exact Or.inl (.queued leaf k value inf hleaf hfires hsplit hadds hopen hpending)
  | closed leaf _ _ _ hlex htree hopen hpending =>
      refine Or.inr ⟨hlex, htree, ?_, ?_⟩
      · rw [hopen]
        exact List.filter_sublist
      · exact hpending ▸ List.Sublist.refl _
  | pruned hlex htree hopen hpending =>
      refine Or.inr ⟨hlex, htree, ?_, ?_⟩
      · exact hopen ▸ List.Sublist.refl _
      · rw [hpending]
        exact List.filter_sublist
  | expanded inf _ _ hperm hsub hlex htree hopen =>
      have hgrafts := hp.grafts_of_expanded (hperm.mem_iff.mpr List.mem_cons_self) htree
      exact Or.inl (.expanded inf _ hperm hsub hlex hgrafts hopen)

theorem coherent (h : Advance p q) (hp : p.Coherent) : q.Coherent := by
  rcases h.transition_or_fewer hp with htransition | ⟨hlex, htree, hopen, hpending⟩
  · exact htransition.coherent hp
  · exact hp.of_fewer hlex htree hopen hpending

theorem lexicon_growsTo (h : Advance p q) (hp : p.Coherent) : p.lexicon.GrowsTo q.lexicon := by
  rcases h.transition_or_fewer hp with htransition | ⟨hlex, -⟩
  · exact htransition.lexicon_growsTo
  · rw [hlex]
    exact .refl p.lexicon

theorem growsTo (h : Advance p q) (hp : p.Coherent) : p.tree.GrowsTo q.tree := by
  rcases h.transition_or_fewer hp with htransition | ⟨-, htree, -⟩
  · exact htransition.growsTo hp
  · rw [htree]
    exact .refl p.tree

/-- A pending inference was pending before or has just been fired. -/
theorem pending_cases (h : Advance p q) (hp : p.Coherent) {inf : Inference}
    (hinf : inf ∈ q.pending) : inf ∈ p.pending ∨ Transition.IsFired p inf q.lexicon := by
  rcases h.transition_or_fewer hp with htransition | ⟨-, -, -, hpending⟩
  · exact htransition.pending_cases hinf
  · exact Or.inl (hpending.subset hinf)

/-- The log stays as it is or gets one entry. -/
theorem log_cases (h : Advance p q) : q.log = p.log ∨ ∃ inf, q.log = p.log.push inf := by
  cases h with
  | noted _ _ _ _ hlog | pruned _ _ _ _ hlog | deferred _ _ _ _ _ _ _ _ _ _ _ hlog =>
      exact Or.inl hlog
  | performed _ _ _ inf _ _ _ _ _ _ _ hlog | expanded inf _ _ _ _ _ _ _ hlog =>
      exact Or.inr ⟨inf, hlog⟩
  | closed _ conflict _ _ _ _ _ _ hlog => exact Or.inr ⟨p.closure conflict, hlog⟩

end Advance

/-! Numbers. -/

/-- The inferences that have got a number and have not been forgotten. -/
def issued (p : Prover) : List Inference := p.log.toList ++ p.pending

/-- The rule of an inference has been fired at an open leaf.  It has been carried out, or it has
been put off with a mark because it splits. -/
def Issues (p : Prover) (inf : Inference) (q : Prover) : Prop :=
  ∃ leaf ∈ p.openLeaves, ∃ k value, Rule.Fires p.lexicon p.tree leaf k value inf q.lexicon ∧
    q.tree = if inf.isBranching then (inf.decomposeOrigin p.tree).1 else (inf.apply p.tree []).1

/-- An advance issues at most one inference, with the next number.  It closes a branch, or its
rule has just been fired. -/
theorem Advance.issued_cases (h : Advance p q) :
    (∃ kept, q.issued.Perm kept ∧ kept.Sublist p.issued ∧ q.counter = p.counter) ∨
      ∃ inf, inf.number = p.nextNumber ∧ q.issued.Perm (inf :: p.issued) ∧
        q.counter = p.nextNumber ∧ ((∃ conflict, inf = p.closure conflict) ∨ p.Issues inf q) := by
  have hpush : ∀ (inf : Inference) (pending : List Inference),
      ((p.log.push inf).toList ++ pending).Perm (inf :: (p.log.toList ++ pending)) := by
    intro inf pending
    rw [Array.toList_push, List.append_assoc, List.singleton_append]
    exact List.perm_middle
  cases h with
  | noted _ _ _ hpending hlog hcounter =>
      exact Or.inl ⟨p.issued, by rw [issued, hlog, hpending]; rfl, List.Sublist.refl _, hcounter⟩
  | performed leaf k value inf hleaf hfires hnumber hsplit htree _ hpending hlog hcounter =>
      refine Or.inr ⟨inf, hnumber, by rw [issued, hlog, hpending]; exact hpush inf _, hcounter,
        Or.inr ⟨leaf, hleaf, k, value, hfires, ?_⟩⟩
      simp [htree, hsplit]
  | deferred leaf k value inf hleaf hfires hnumber hsplit htree _ hpending hlog hcounter =>
      refine Or.inr ⟨inf, hnumber, ?_, hcounter, Or.inr ⟨leaf, hleaf, k, value, hfires, ?_⟩⟩
      · rw [issued, hlog, hpending, ← List.append_assoc]
        exact List.perm_append_singleton inf _
      · simp [htree, hsplit]
  | closed _ conflict _ _ _ _ _ hpending hlog hcounter =>
      exact Or.inr ⟨p.closure conflict, rfl, by rw [issued, hlog, hpending]; exact hpush _ _,
        hcounter, Or.inl ⟨conflict, rfl⟩⟩
  | pruned _ _ _ hpending hlog hcounter =>
      refine Or.inl ⟨q.issued, List.Perm.refl _, ?_, hcounter⟩
      rw [issued, hlog, hpending]
      exact List.filter_sublist.append_left _
  | expanded inf _ _ hperm _ _ _ _ hlog hcounter =>
      refine Or.inl ⟨p.issued, ?_, List.Sublist.refl _, hcounter⟩
      rw [issued, hlog]
      exact ((hpush inf _).trans List.perm_middle.symm).trans (hperm.symm.append_left _)

/-- Numbers are positive, none is given twice, and the counter is the last of them. -/
structure IsNumbered (p : Prover) : Prop where
  pos : ∀ inf ∈ p.issued, 0 < inf.number
  le_counter : ∀ inf ∈ p.issued, inf.number ≤ p.counter
  nodup : (p.issued.map (·.number)).Nodup

theorem IsNumbered.not_mem_issued (h : p.IsNumbered) {inf : Inference}
    (hnumber : inf.number = p.nextNumber) : inf ∉ p.issued := by
  intro hmem
  have hle := h.le_counter inf hmem
  rw [hnumber] at hle
  exact Nat.not_succ_le_self p.counter hle

/-- What is pending is not in the log. -/
theorem IsNumbered.not_mem_log (h : p.IsNumbered) {inf : Inference} (hinf : inf ∈ p.pending) :
    inf ∉ p.log := by
  intro hmem
  have hnodup := h.nodup
  rw [issued, List.map_append, List.nodup_append] at hnodup
  exact hnodup.2.2 _ (List.mem_map_of_mem (Array.mem_toList_iff.mpr hmem)) _
    (List.mem_map_of_mem hinf) rfl

theorem Advance.isNumbered (h : Advance p q) (hp : p.IsNumbered) : q.IsNumbered := by
  rcases h.issued_cases with ⟨kept, hperm, hsub, hcounter⟩ | ⟨inf, hnumber, hperm, hcounter, -⟩
  · have hold : ∀ inf ∈ q.issued, inf ∈ p.issued :=
      fun inf hinf => hsub.subset (hperm.mem_iff.mp hinf)
    constructor
    · exact fun inf hinf => hp.pos inf (hold inf hinf)
    · exact fun inf hinf => hcounter ▸ hp.le_counter inf (hold inf hinf)
    · exact (hperm.map _).nodup_iff.mpr (hp.nodup.sublist (hsub.map _))
  · have hcases : ∀ other ∈ q.issued, other = inf ∨ other ∈ p.issued :=
      fun other hother => List.mem_cons.mp (hperm.mem_iff.mp hother)
    constructor
    · intro other hother
      rcases hcases other hother with rfl | hold
      · rw [hnumber]
        exact Nat.succ_pos p.counter
      · exact hp.pos other hold
    · intro other hother
      rw [hcounter]
      rcases hcases other hother with rfl | hold
      · exact Nat.le_of_eq hnumber
      · exact Nat.le_succ_of_le (hp.le_counter other hold)
    · rw [(hperm.map _).nodup_iff, List.map_cons, List.nodup_cons]
      refine ⟨fun hmem => ?_, hp.nodup⟩
      obtain ⟨other, hother, hsame⟩ := List.mem_map.mp hmem
      exact hp.not_mem_issued (hsame.trans hnumber) hother

/-- One state after the other, by any number of advances. -/
def Advances (p q : Prover) : Prop := Relation.ReflTransGen Advance p q

namespace Advances

theorem refl (p : Prover) : Advances p p := Relation.ReflTransGen.refl

theorem trans {r : Prover} (h : Advances p q) (h' : Advances q r) : Advances p r :=
  Relation.ReflTransGen.trans h h'

theorem of_advance (h : Advance p q) : Advances p q := Relation.ReflTransGen.single h

/-- What every advance keeps is kept by any number of them. -/
theorem preserves {P : Prover → Prop}
    (hstep : ∀ p q, p.Coherent → P p → Advance p q → P q) (h : Advances p q) (hp : p.Coherent)
    (hP : P p) : q.Coherent ∧ P q := by
  induction h with
  | refl => exact ⟨hp, hP⟩
  | tail _ hlast ih => exact ⟨hlast.coherent ih.1, hstep _ _ ih.1 ih.2 hlast⟩

end Advances

/-! Every operation of a search is a sequence of advances. -/

theorem advances_report (p : Prover) (event : Event) : Advances p (p.report event) :=
  .of_advance (.noted rfl rfl rfl rfl rfl rfl)

theorem CommitsAt.advance (h : p.CommitsAt leaf q) : Advance p q := by
  obtain ⟨hleaf, k, value, inf, lex, hfires, hnumber, rfl⟩ := h
  cases hsplit : inf.isBranching with
  | true =>
      have hq : { p with lexicon := lex }.commit inf =
          { p with
            lexicon := lex
            counter := inf.number
            tree := (inf.decomposeOrigin p.tree).1
            pending := p.pending ++ [inf] }.report (.queued inf) := by
        simp only [commit, hsplit, if_true]
      rw [hq]
      exact .deferred leaf k value inf hleaf hfires hnumber hsplit rfl rfl rfl rfl hnumber
  | false =>
      have hq : { p with lexicon := lex }.commit inf =
          { p with
            lexicon := lex
            counter := inf.number
            tree := (inf.apply p.tree []).1
            statistics := countCommitted p.statistics inf }.record inf := by
        simp only [commit, hsplit, Bool.false_eq_true, if_false]
      rw [hq]
      exact .performed leaf k value inf hleaf hfires hnumber hsplit rfl rfl rfl rfl hnumber

theorem Commits.advances (h : p.Commits q) : Advances p q := by
  induction h with
  | refl => exact .refl p
  | tail _ hlast ih =>
      obtain ⟨leaf, hlast⟩ := hlast
      exact ih.trans (.of_advance hlast.advance)

theorem advances_saturate (p : Prover) : Advances p p.saturate.1 := by
  have hcommits := commits_each_fire (p := p) fun _ h =>
    mem_openLeaves_of_mem_saturationCandidates h
  exact hcommits.advances.trans (.of_advance (.noted rfl rfl rfl rfl rfl rfl))

theorem advances_instantiate (hp : p.Coherent) : Advances p p.instantiate.1 := by
  have hreport := leads_report p (.obligations p.obligations.length)
  have hcommits := commits_discharge (hreport.coherent hp) p.obligations
  exact (advances_report ..).trans hcommits.advances

/-- Closures do not look at the open leaves. -/
theorem foldl_recordClosure_openLeaves (found : List Conflict) (p : Prover)
    (openLeaves : List NodeId) :
    found.foldl recordClosure { p with openLeaves } =
      { found.foldl recordClosure p with openLeaves } := by
  induction found generalizing p with
  | nil => rfl
  | cons conflict found ih => exact ih (p.recordClosure conflict)

/-- The open leaves among the given ones that have conflicts are closed, one after the
other. -/
theorem advances_closures {found : NodeId → Option Conflict} {leaves : List NodeId}
    (hfound : ∀ leaf, Tree.pathConflict p.lexicon p.tree leaf = found leaf)
    (hopen : ∀ leaf ∈ leaves, leaf ∈ p.openLeaves) (hnodup : leaves.Nodup) :
    Advances p
      { (leaves.filterMap found).foldl recordClosure p with
        openLeaves := p.openLeaves.filter fun leaf =>
          decide (leaf ∉ leaves) || (found leaf).isNone } := by
  induction leaves generalizing p with
  | nil =>
      have hall : (p.openLeaves.filter fun leaf => decide (leaf ∉ ([] : List NodeId)) ||
          (found leaf).isNone) = p.openLeaves := by simp
      rw [hall]
      exact .refl p
  | cons leaf rest ih =>
      obtain ⟨hnot, hnodup⟩ := List.nodup_cons.mp hnodup
      have hrest : ∀ other ∈ rest, other ∈ p.openLeaves :=
        fun other hother => hopen other (List.mem_cons_of_mem leaf hother)
      cases hconflict : found leaf with
      | none =>
          have hsame : (p.openLeaves.filter fun other => decide (other ∉ leaf :: rest) ||
              (found other).isNone) =
              p.openLeaves.filter fun other => decide (other ∉ rest) || (found other).isNone := by
            apply List.filter_congr
            intro other _
            by_cases hself : other = leaf
            · simp [hself, hconflict]
            · simp [hself]
          rw [List.filterMap_cons_none hconflict, hsame]
          exact ih hfound hrest hnodup
      | some conflict =>
          have hfirst : Advance p { p.recordClosure conflict with
              openLeaves := p.openLeaves.filter fun other => other ≠ leaf } :=
            .closed leaf conflict (hopen leaf List.mem_cons_self) ((hfound leaf).trans hconflict)
              rfl rfl rfl rfl rfl rfl
          have hsame : ((p.openLeaves.filter fun other => other ≠ leaf).filter fun other =>
              decide (other ∉ rest) || (found other).isNone) =
              p.openLeaves.filter fun other => decide (other ∉ leaf :: rest) ||
                (found other).isNone := by
            rw [List.filter_filter]
            apply List.filter_congr
            intro other _
            by_cases hself : other = leaf
            · simp [hself, hconflict]
            · simp [hself]
          have hothers := ih
            (p := { p.recordClosure conflict with
              openLeaves := p.openLeaves.filter fun other => other ≠ leaf }) hfound
            (fun other hother => List.mem_filter.mpr ⟨hrest other hother,
              decide_eq_true fun heq : other = leaf => hnot (heq ▸ hother)⟩) hnodup
          simp only [foldl_recordClosure_openLeaves, hsame] at hothers
          rw [List.filterMap_cons_some hconflict, List.foldl_cons]
          exact (Advances.of_advance hfirst).trans hothers

theorem advances_close (hp : p.Coherent) : Advances p p.close := by
  have hclosures := advances_closures (fun _ => rfl) (fun _ hleaf => hleaf) hp.nodup
  have hfound : p.conflicts.filterMap (·.2) =
      p.openLeaves.filterMap (Tree.pathConflict p.lexicon p.tree) := by
    rw [conflicts, List.filterMap_map]
    rfl
  have hopen : (p.openLeaves.filter fun leaf => decide (leaf ∉ p.openLeaves) ||
      (Tree.pathConflict p.lexicon p.tree leaf).isNone) = p.close.openLeaves := by
    rw [openLeaves_close hp]
    apply List.filter_congr
    intro leaf hleaf
    rw [Bool.eq_iff_iff]
    simp [hleaf, hp.tree.pathConflict_eq_none]
  rw [hopen, ← hfound] at hclosures
  exact hclosures.trans (.of_advance (.pruned rfl rfl rfl rfl rfl rfl))

theorem advance_commitBranch? (h : p.commitBranch? = some q) (hneeded : p.AllNeeded)
    (hconsistent : ∀ leaf ∈ p.openLeaves, p.tree.isPathConsistent leaf = true) : Advance p q := by
  obtain ⟨score, inf, pending, hperm, hsub, rfl⟩ := exists_expand_of_commitBranch? h
  have hinf := hneeded inf (hperm.mem_iff.mpr List.mem_cons_self)
  exact .expanded inf hinf hconsistent hperm hsub rfl rfl rfl rfl rfl

end Prover

namespace Search

variable {s : Search}

theorem advances_perform (hp : s.prover.Coherent) (hneeded : s.prover.AllNeeded) {phase : Phase}
    (hstage : s.stage = .entering phase) (h : s.IsInOrder) (elapsed : Nat) :
    Prover.Advances s.prover (s.perform elapsed phase).prover := by
  cases phase with
  | saturate =>
      simp only [perform]
      split
      · exact Prover.advances_report ..
      · exact .refl _
  | close => exact Prover.advances_close hp
  | instantiate =>
      have hinst := Prover.advances_instantiate hp
      simp only [perform]
      split
      all_goals
        next heq =>
          rw [heq] at hinst
          exact hinst
  | branch =>
      simp only [IsInOrder, hstage] at h
      simp only [perform]
      split
      · exact .refl _
      · split
        · next heq => exact .of_advance (Prover.advance_commitBranch? heq hneeded h.1.consistent)
        · exact .refl _
  | complete verdict => exact .refl _

/-- A step is a sequence of advances. -/
theorem advances_step (hp : s.prover.Coherent) (hneeded : s.prover.AllNeeded) (h : s.IsInOrder)
    (elapsed : Nat) :
    Prover.Advances s.prover (step elapsed s).1.prover := by
  cases hstage : s.stage with
  | entering phase =>
      have hreport := Prover.leads_report s.prover (.entered phase s.prover.openLeaves.length)
      have hphase := advances_perform (s := s.entered phase) (hreport.coherent hp) hneeded hstage
        (h.entered phase) elapsed
      rw [step_entering hstage]
      exact (Prover.advances_report ..).trans hphase
  | saturating =>
      rw [step_saturating hstage]
      exact Prover.advances_saturate s.prover
  | done | failed =>
      rw [step_of_isOver (by simp [isOver, hstage])]
      exact .refl _

end Search

namespace Prover

variable {q : Prover} {lexicon : Lexicon} {premises goals : List Sentence} {options : Options}
  {s : Search}

theorem advances_finish (s : Search) : Advances s.prover s.finish.1 := by
  apply Advances.of_advance
  unfold Search.finish
  cases s.stage <;> exact .noted rfl rfl rfl rfl rfl rfl

theorem Reaches.allNeeded (h : (start lexicon premises goals options).Reaches s) :
    s.prover.AllNeeded :=
  h.invariant (fun _ _ hp hneeded htransition => htransition.allNeeded hp hneeded)
    (by simp [AllNeeded])

theorem Reaches.advances_step (h : (start lexicon premises goals options).Reaches s)
    (elapsed : Nat) : Advances s.prover (Search.step elapsed s).1.prover :=
  Search.advances_step h.coherent h.allNeeded h.isInOrder elapsed

theorem advances_search (p : Prover) : Advances p p.search.prover :=
  .of_advance (.noted rfl rfl rfl rfl rfl rfl)

theorem Reaches.advances (h : (start lexicon premises goals options).Reaches s) :
    Advances (start lexicon premises goals options) s.prover := by
  induction h with
  | first => exact advances_search _
  | step elapsed hs ih => exact ih.trans (hs.advances_step elapsed)
  | again _ _ ih => exact (ih.trans (advances_finish _)).trans (advances_search _)

theorem MayReturn.advances {result : Except Defect Verdict}
    (h : (start lexicon premises goals options).MayReturn (q, result)) :
    Advances (start lexicon premises goals options) q := by
  obtain ⟨s, hs, -, hfinish⟩ := h
  obtain rfl : s.finish.1 = q := congrArg Prod.fst hfinish
  exact hs.advances.trans (advances_finish s)

theorem isNumbered_start : (start lexicon premises goals options).IsNumbered := by
  constructor <;> simp [issued]

/-- What holds at the start and is kept by every advance holds of all states that a search
reaches. -/
theorem Reaches.of_advance {P : Prover → Prop}
    (h : (start lexicon premises goals options).Reaches s)
    (hstep : ∀ p q, p.Coherent → P p → Advance p q → P q)
    (hstart : P (start lexicon premises goals options)) : P s.prover :=
  (h.advances.preserves hstep coherent_start hstart).2

end Prover

/-- What a search does later on is a sequence of advances, even when it is repeated. -/
theorem Search.Proceeds.advances {lexicon : Lexicon} {premises goals : List Sentence}
    {options : Options} {s t : Search} (h : s.Proceeds t)
    (hs : (Prover.start lexicon premises goals options).Reaches s) :
    Prover.Advances s.prover t.prover := by
  induction h with
  | refl => exact .refl _
  | step elapsed ht ih => exact ih.trans ((ht.reaches hs).advances_step elapsed)
  | again _ _ ih => exact (ih.trans (Prover.advances_finish _)).trans (Prover.advances_search _)

end Tableau
