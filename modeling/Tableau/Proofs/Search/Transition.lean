/-
What a search does to its state.  Every phase is a sequence of transitions of five
kinds, and each is described by what it does to the lexicon, the tree, the open
leaves and the pending inferences.  The invariants of a search are proved from this
description alone.
-/
import Mathlib.Logic.Relation
import Tableau.Proofs.Firing
import Tableau.Proofs.Leaves
import Tableau.Search.Run

namespace Tableau

namespace Score

theorem takeBest_eq_none {scored : List (Score × Inference)} :
    takeBest scored = none ↔ scored = [] := by
  cases scored with
  | nil => simp [takeBest]
  | cons x xs =>
      unfold takeBest
      split
      · simp
      · split <;> simp

/-- The inference taken and the others are those that were there. -/
theorem perm_of_takeBest {scored : List (Score × Inference)} {best : Score × Inference}
    {others : List Inference} (h : takeBest scored = some (best, others)) :
    (scored.map (·.2)).Perm (best.2 :: others) ∧ others.Sublist (scored.map (·.2)) := by
  induction scored generalizing best others with
  | nil => simp [takeBest] at h
  | cons x xs ih =>
      unfold takeBest at h
      split at h
      · next hnone =>
          have hxs : xs = [] := takeBest_eq_none.mp hnone
          simp only [Option.some.injEq, Prod.mk.injEq] at h
          obtain ⟨rfl, rfl⟩ := h
          simp [hxs]
      · next best' others' hbest =>
          obtain ⟨hperm, hsub⟩ := ih hbest
          split at h
          · simp only [Option.some.injEq, Prod.mk.injEq] at h
            obtain ⟨rfl, rfl⟩ := h
            exact ⟨(hperm.cons x.2).trans (List.Perm.swap ..), hsub.cons_cons x.2⟩
          · simp only [Option.some.injEq, Prod.mk.injEq] at h
            obtain ⟨rfl, rfl⟩ := h
            exact ⟨List.Perm.refl _, List.sublist_cons_self ..⟩

end Score

namespace Rule

variable {lex lex' : Lexicon} {tree : Tree} {node : NodeId} {k : Key} {value : Bool}
  {inf : Inference}
  (h : Fires lex tree node k value inf lex') (hcoh : tree.Coherent) (hnode : node < tree.size)
include h hcoh hnode

/-- A rule that does not split adds its outcome where it is fired. -/
theorem Fires.adds_apply (hsplit : inf.isBranching = false) :
    tree.Adds node inf.addition (inf.apply tree []).1 := by
  have hadds := Inference.adds_apply h.yields hsplit hcoh (by rwa [h.node_eq]) []
  rwa [h.node_eq] at hadds

/-- A rule that is put off marks its sentence where it is fired. -/
theorem Fires.adds_decomposeOrigin :
    tree.Adds node { marks := [k] } (inf.decomposeOrigin tree).1 := by
  simp only [Inference.decomposeOrigin, h.node_eq, h.origin_eq, Key.key_sentence]
  exact Tree.adds_decompose hcoh hnode k

end Rule

namespace Prover

variable {p q : Prover} {leaf : NodeId} {k : Key} {value : Bool} {inf : Inference} {lex : Lexicon}

/-- A pending inference splits, its origin is marked at its node, and it is what
the rule of its origin yields there. -/
structure IsQueued (p : Prover) (inf : Inference) : Prop where
  node_lt : inf.node < p.tree.size
  splits : inf.isBranching = true
  marked : (p.tree.branch inf.node).isDecomposed inf.origin = true
  exists_value : ∃ value, (p.tree.branch inf.node).has inf.origin value = true ∧
    Rule.Yields p.lexicon.sorts inf.origin value inf.effect

/-- The parts of a search fit together.  The open leaves are leaves of the tree, the
pending inferences wait in it, and a universal sentence holds for every term that it
is remembered to have been instantiated for. -/
structure Coherent (p : Prover) : Prop where
  tree : p.tree.Coherent
  open_lt : ∀ leaf ∈ p.openLeaves, leaf < p.tree.size
  childless : ∀ leaf ∈ p.openLeaves, p.tree.children leaf = []
  nodup : p.openLeaves.Nodup
  queued : ∀ inf ∈ p.pending, p.IsQueued inf
  instances : ∀ id k term, term ∈ (p.tree.branch id).instancesOf k →
    ∃ binder body, k.sentence = .all binder body ∧
      Rule.Instantiates p.lexicon.sorts binder term ∧
      (p.tree.branch id).has (body.subst binder term).key true = true

theorem Coherent.isGroundTerm_of_visible (h : p.Coherent) {id : NodeId} {term : Sentence}
    (hvisible : (p.tree.branch id).Visible term) : term.isGroundTerm = true := by
  rcases hvisible with ⟨k, value, -, -, hground⟩ | ⟨k, hterm⟩
  · exact hground
  · obtain ⟨binder, body, -, hinst, -⟩ := h.instances id k term hterm
    exact hinst.ground

theorem Coherent.openBelow_lt (h : p.Coherent) (node : NodeId) :
    ∀ leaf ∈ p.openBelow node, leaf < p.tree.size :=
  fun leaf hleaf => h.open_lt leaf (List.mem_filter.mp hleaf).1

/-- One transition of a search. -/
inductive Transition (p q : Prover) : Prop where
  /-- Only events and statistics are noted. -/
  | noted (hlex : q.lexicon = p.lexicon) (htree : q.tree = p.tree)
      (hopen : q.openLeaves = p.openLeaves) (hpending : q.pending = p.pending)
  /-- A rule that does not split is carried out at an open leaf. -/
  | added (leaf : NodeId) (k : Key) (value : Bool) (inf : Inference)
      (hleaf : leaf ∈ p.openLeaves)
      (hfires : Rule.Fires p.lexicon p.tree leaf k value inf q.lexicon)
      (hsplit : inf.isBranching = false)
      (htree : p.tree.Adds leaf inf.addition q.tree)
      (hopen : q.openLeaves = p.openLeaves) (hpending : q.pending = p.pending)
  /-- A rule that splits is fired at an open leaf and put off. -/
  | queued (leaf : NodeId) (k : Key) (value : Bool) (inf : Inference)
      (hleaf : leaf ∈ p.openLeaves)
      (hfires : Rule.Fires p.lexicon p.tree leaf k value inf q.lexicon)
      (hsplit : inf.isBranching = true)
      (htree : p.tree.Adds leaf { marks := [k] } q.tree)
      (hopen : q.openLeaves = p.openLeaves) (hpending : q.pending = p.pending ++ [inf])
  /-- The leaves with conflicts are closed. -/
  | closed (hlex : q.lexicon = p.lexicon) (htree : q.tree = p.tree)
      (hopen : q.openLeaves = p.openLeaves.filter p.tree.isPathConsistent)
      (hpending : q.pending = p.pending.filter fun inf =>
        q.openLeaves.any (p.tree.isDescendant · inf.node))
  /-- A pending inference is carried out at all open leaves below its node. -/
  | expanded (inf : Inference) (created : List NodeId)
      (hperm : p.pending.Perm (inf :: q.pending)) (hsub : q.pending.Sublist p.pending)
      (hlex : q.lexicon = p.lexicon)
      (htree : p.tree.Grafts (p.openBelow inf.node)
        (inf.outcomes.map fun facts => Assignment.ofFacts facts inf.number) q.tree created)
      (hopen : q.openLeaves = p.openElsewhere inf.node ++ created)

/-! Every operation of a search is a sequence of transitions. -/

@[simp]
theorem openLeaves_commit (p : Prover) (inf : Inference) :
    (p.commit inf).openLeaves = p.openLeaves := by
  unfold commit
  split <;> rfl

@[simp]
theorem lexicon_commit (p : Prover) (inf : Inference) : (p.commit inf).lexicon = p.lexicon := by
  unfold commit
  split <;> rfl

section Commit

variable (hp : p.Coherent) (hleaf : leaf ∈ p.openLeaves)
  (hfires : Rule.Fires p.lexicon p.tree leaf k value inf lex)
include hp hleaf hfires

/-- An inference that splits is put off, with its origin marked. -/
theorem commit_of_isBranching (hsplit : inf.isBranching = true) :
    p.tree.Adds leaf { marks := [k] } ({ p with lexicon := lex }.commit inf).tree ∧
      ({ p with lexicon := lex }.commit inf).pending = p.pending ++ [inf] := by
  unfold commit
  simp only [hsplit, if_true]
  exact ⟨hfires.adds_decomposeOrigin hp.tree (hp.open_lt leaf hleaf), rfl⟩

/-- An inference that does not split is carried out. -/
theorem commit_of_not_isBranching (hsplit : inf.isBranching = false) :
    p.tree.Adds leaf inf.addition ({ p with lexicon := lex }.commit inf).tree ∧
      ({ p with lexicon := lex }.commit inf).pending = p.pending := by
  unfold commit
  simp only [hsplit, Bool.false_eq_true, if_false]
  exact ⟨hfires.adds_apply hp.tree (hp.open_lt leaf hleaf) hsplit, rfl⟩

/-- Whether or not a rule is put off, it marks and instantiates its own sentence only. -/
theorem exists_adds_commit :
    ∃ added, p.tree.Adds leaf added ({ p with lexicon := lex }.commit inf).tree ∧
      (∀ k' ∈ added.marks, k' = k) ∧ ∀ k' term, (k', term) ∈ added.terms → k' = k := by
  have horigin : inf.origin.key = k := by rw [hfires.origin_eq, Key.key_sentence]
  cases hsplit : inf.isBranching with
  | true =>
      obtain ⟨htree, -⟩ := commit_of_isBranching hp hleaf hfires hsplit
      exact ⟨_, htree, by simp, by simp⟩
  | false =>
      obtain ⟨htree, -⟩ := commit_of_not_isBranching hp hleaf hfires hsplit
      refine ⟨_, htree, fun k' hmark => ?_, fun k' term hterm => ?_⟩
      · rw [(Inference.mem_marks_addition hmark).1, horigin]
      · rw [(Inference.mem_terms_addition.mp hterm).1, horigin]

theorem transition_commit : Transition p ({ p with lexicon := lex }.commit inf) := by
  have hfires' : Rule.Fires p.lexicon p.tree leaf k value inf
      ({ p with lexicon := lex }.commit inf).lexicon := by
    rwa [lexicon_commit]
  cases hsplit : inf.isBranching with
  | true =>
      obtain ⟨htree, hpending⟩ := commit_of_isBranching hp hleaf hfires hsplit
      exact .queued leaf k value inf hleaf hfires' hsplit htree (openLeaves_commit ..)
        hpending
  | false =>
      obtain ⟨htree, hpending⟩ := commit_of_not_isBranching hp hleaf hfires hsplit
      exact .added leaf k value inf hleaf hfires' hsplit htree (openLeaves_commit ..)
        hpending

end Commit

/-- Putting closures into the log changes nothing else. -/
theorem foldl_recordClosure (found : List Conflict) (p : Prover) :
    (found.foldl recordClosure p).lexicon = p.lexicon ∧
      (found.foldl recordClosure p).tree = p.tree ∧
      (found.foldl recordClosure p).pending = p.pending := by
  induction found generalizing p with
  | nil => exact ⟨rfl, rfl, rfl⟩
  | cons conflict found ih => exact ih (p.recordClosure conflict)

theorem openLeaves_close (hp : p.Coherent) :
    p.close.openLeaves = p.openLeaves.filter p.tree.isPathConsistent := by
  change (p.conflicts.filter (·.2.isNone)).map (·.1) = _
  simp only [conflicts, List.filter_map, List.map_map]
  have hid : ((fun found : NodeId × Option Conflict => found.1) ∘ fun leaf =>
      (leaf, Tree.pathConflict p.lexicon p.tree leaf)) = id := rfl
  rw [hid, List.map_id]
  apply List.filter_congr
  intro leaf _
  rw [Bool.eq_iff_iff]
  simp [hp.tree.pathConflict_eq_none]

theorem transition_close (hp : p.Coherent) : Transition p p.close := by
  obtain ⟨hlex, htree, hpending⟩ := foldl_recordClosure (p.conflicts.filterMap (·.2)) p
  refine .closed hlex htree (openLeaves_close hp) ?_
  unfold close
  simp only [htree, hpending]

/-- A pending inference has marked its origin already. -/
theorem IsQueued.decomposeOrigin_eq (h : p.IsQueued inf) :
    (inf.decomposeOrigin p.tree).1 = p.tree := by
  unfold Inference.decomposeOrigin Tree.decompose
  rw [if_pos h.marked]

/-- The inference that is committed is a pending one. -/
theorem exists_expand_of_commitBranch? (h : p.commitBranch? = some q) :
    ∃ score inf pending, p.pending.Perm (inf :: pending) ∧ pending.Sublist p.pending ∧
      q = p.expand score inf pending := by
  unfold commitBranch? at h
  simp only [Option.map_eq_some_iff] at h
  obtain ⟨⟨⟨score, inf⟩, others⟩, htaken, rfl⟩ := h
  obtain ⟨hperm, hsub⟩ := Score.perm_of_takeBest htaken
  rw [List.map_map] at hperm hsub
  have hid : (Prod.snd ∘ fun inf : Inference => (Score.of p.tree
      (p.openLeaves.map fun leaf => (leaf, p.tree.branch leaf)) inf, inf)) = id := rfl
  rw [hid, List.map_id] at hperm hsub
  exact ⟨score, inf, others, hperm, hsub, rfl⟩

/-- The outcomes of a pending inference are grafted below all open leaves that it
concerns. -/
theorem IsQueued.grafts_apply (h : p.IsQueued inf) (hp : p.Coherent) :
    p.tree.Grafts (p.openBelow inf.node)
      (inf.outcomes.map fun facts => Assignment.ofFacts facts inf.number)
      (inf.apply p.tree (p.openBelow inf.node)).1 (inf.apply p.tree (p.openBelow inf.node)).2 := by
  have happly : inf.apply p.tree (p.openBelow inf.node) =
      inf.split inf.outcomes p.tree (p.openBelow inf.node) := by
    rw [Inference.apply_eq_split h.splits, h.decomposeOrigin_eq]
  rw [happly]
  exact inf.grafts_split inf.outcomes p.tree (hp.openBelow_lt inf.node)

theorem transition_expand (hp : p.Coherent) (score : Score) {pending : List Inference}
    (hperm : p.pending.Perm (inf :: pending)) (hsub : pending.Sublist p.pending) :
    Transition p (p.expand score inf pending) := by
  have hqueued := hp.queued inf (hperm.mem_iff.mpr List.mem_cons_self)
  exact .expanded inf _ hperm hsub rfl (hqueued.grafts_apply hp) rfl

/-- The inference that is committed was pending, and its outcomes are grafted below all
open leaves that it concerns. -/
theorem commitBranch?_eq_some (hp : p.Coherent) (h : p.commitBranch? = some q) :
    ∃ inf created, p.pending.Perm (inf :: q.pending) ∧ q.pending.Sublist p.pending ∧
      q.lexicon = p.lexicon ∧
      p.tree.Grafts (p.openBelow inf.node)
        (inf.outcomes.map fun facts => Assignment.ofFacts facts inf.number) q.tree created ∧
      q.openLeaves = p.openElsewhere inf.node ++ created := by
  obtain ⟨score, inf, pending, hperm, hsub, rfl⟩ := exists_expand_of_commitBranch? h
  have hqueued := hp.queued inf (hperm.mem_iff.mpr List.mem_cons_self)
  exact ⟨inf, _, hperm, hsub, rfl, hqueued.grafts_apply hp, rfl⟩

theorem transition_commitBranch? (hp : p.Coherent) (h : p.commitBranch? = some q) :
    Transition p q := by
  obtain ⟨score, inf, pending, hperm, hsub, rfl⟩ := exists_expand_of_commitBranch? h
  exact transition_expand hp score hperm hsub

/-! Transitions keep the parts of a search together. -/

namespace Transition

theorem growsTo (h : Transition p q) (hp : p.Coherent) : p.tree.GrowsTo q.tree := by
  cases h with
  | noted _ htree | closed _ htree =>
      rw [htree]
      exact .refl p.tree
  | added _ _ _ _ _ _ _ htree | queued _ _ _ _ _ _ _ htree => exact htree.growsTo
  | expanded _ _ _ _ _ htree => exact htree.growsTo hp.tree

theorem lexicon_growsTo (h : Transition p q) : p.lexicon.GrowsTo q.lexicon := by
  cases h with
  | noted hlex | closed hlex | expanded _ _ _ _ hlex =>
      rw [hlex]
      exact .refl p.lexicon
  | added _ _ _ _ _ hfires | queued _ _ _ _ _ hfires => exact hfires.grows

theorem isQueued (h : Transition p q) (hp : p.Coherent) (hinf : p.IsQueued inf) :
    q.IsQueued inf where
  node_lt := Nat.lt_of_lt_of_le hinf.node_lt (h.growsTo hp).size_le
  splits := hinf.splits
  marked := (h.growsTo hp).isDecomposed _ hinf.node_lt _ hinf.marked
  exists_value := by
    obtain ⟨value, hvalue, hyields⟩ := hinf.exists_value
    rw [h.lexicon_growsTo.sorts]
    exact ⟨value, (h.growsTo hp).has _ hinf.node_lt _ _ hvalue, hyields⟩

/-- The pending inferences are old ones, and the one that is put off. -/
theorem queued_of_mem_pending (h : Transition p q) (hp : p.Coherent) :
    ∀ inf ∈ q.pending, q.IsQueued inf := by
  intro inf hinf
  have hold : inf ∈ p.pending → q.IsQueued inf := fun hmem => h.isQueued hp (hp.queued inf hmem)
  cases h with
  | noted _ _ _ hpending | added _ _ _ _ _ _ _ _ _ hpending =>
      rw [hpending] at hinf
      exact hold hinf
  | closed _ _ _ hpending =>
      rw [hpending] at hinf
      exact hold (List.mem_filter.mp hinf).1
  | expanded _ _ _ hsub => exact hold (hsub.subset hinf)
  | queued leaf k value new hleaf hfires hsplit htree _ hpending =>
      rw [hpending, List.mem_append] at hinf
      rcases hinf with hmem | hnew
      · exact hold hmem
      · obtain rfl : inf = new := by simpa using hnew
        have hself : leaf ∈ p.tree.ancestry leaf := Tree.mem_ancestry_self ..
        refine ⟨?_, hsplit, ?_, value, ?_, ?_⟩
        · rw [hfires.node_eq, htree.size]
          exact hp.open_lt leaf hleaf
        · rw [hfires.node_eq, hfires.origin_eq, Key.key_sentence, htree.isDecomposed]
          exact Or.inr ⟨hself, by simp⟩
        · rw [hfires.node_eq, hfires.origin_eq, Key.key_sentence, htree.has]
          exact Or.inl (Branch.has_of_models hfires.models)
        · rw [hfires.grows.sorts, hfires.origin_eq]
          exact hfires.yields

/-- A rule is fired at an open leaf, with this inference and this lexicon. -/
def IsFired (p : Prover) (inf : Inference) (lex : Lexicon) : Prop :=
  ∃ leaf ∈ p.openLeaves, ∃ k value, Rule.Fires p.lexicon p.tree leaf k value inf lex

/-- A term was instantiated before, or a universal sentence is instantiated for it now at
a leaf.  All that was known there is known on the branch. -/
theorem instances_cases (h : Transition p q) (hp : p.Coherent) {id : NodeId} {k : Key}
    {term : Sentence} (hterm : term ∈ (q.tree.branch id).instancesOf k) :
    (∃ id', term ∈ (p.tree.branch id').instancesOf k ∧
        ∀ fact, (p.tree.branch id').Gives fact → (q.tree.branch id).Gives fact) ∨
      ∃ leaf ∈ p.openLeaves, ∃ value inf,
        Rule.Fires p.lexicon p.tree leaf k value inf q.lexicon ∧ q.pending = p.pending ∧
        (k, term) ∈ inf.addition.terms ∧
        ∀ fact, (p.tree.branch leaf).Gives fact ∨ fact ∈ inf.addition.facts →
          (q.tree.branch id).Gives fact := by
  cases h with
  | noted _ htree | closed _ htree => exact Or.inl ⟨id, htree ▸ hterm, fun _ hfact => htree ▸ hfact⟩
  | queued _ _ _ _ _ _ _ htree =>
      refine Or.inl ⟨id, ?_, fun fact hfact => (htree.has ..).mpr (Or.inl hfact)⟩
      simpa using (htree.mem_instancesOf id k term).mp hterm
  | added leaf k' value inf hleaf hfires _ htree _ hpending =>
      rcases (htree.mem_instancesOf id k term).mp hterm with hold | ⟨hbelow, hnew⟩
      · exact Or.inl ⟨id, hold, fun fact hfact => (htree.has ..).mpr (Or.inl hfact)⟩
      · obtain rfl : k' = k := by
          rw [(Inference.mem_terms_addition.mp hnew).1, hfires.origin_eq, Key.key_sentence]
        refine Or.inr ⟨leaf, hleaf, value, inf, hfires, hpending, hnew, ?_⟩
        rintro fact (hold | hfact)
        · exact (htree.has ..).mpr (Or.inl (hp.tree.has_branch_mono hbelow hold))
        · exact (htree.has ..).mpr (Or.inr ⟨hbelow, hfact⟩)
  | expanded inf _ _ _ _ htree =>
      rcases htree.branch_cases hp.tree (hp.openBelow_lt inf.node) id with
        ⟨-, heq⟩ | ⟨leaf, -, content, hcontent, heq⟩ | heq
      · exact Or.inl ⟨id, heq ▸ hterm, fun _ hfact => heq ▸ hfact⟩
      · obtain ⟨facts, -, rfl⟩ := List.mem_map.mp hcontent
        rw [heq] at hterm ⊢
        exact Or.inl ⟨leaf, by simpa [Branch.mem_instancesOf] using hterm,
          fun fact hfact => Branch.has_cons.mpr (Or.inr hfact)⟩
      · simp [heq, Branch.mem_instancesOf] at hterm

/-- What has been instantiated still holds for its terms, and so does what is
instantiated now. -/
theorem instances (h : Transition p q) (hp : p.Coherent) :
    ∀ id k term, term ∈ (q.tree.branch id).instancesOf k →
      ∃ binder body, k.sentence = .all binder body ∧
        Rule.Instantiates q.lexicon.sorts binder term ∧
        (q.tree.branch id).has (body.subst binder term).key true = true := by
  intro id k term hterm
  rw [h.lexicon_growsTo.sorts]
  rcases h.instances_cases hp hterm with
    ⟨id', hold, hkept⟩ | ⟨leaf, -, value, inf, hfires, -, hnew, hkept⟩
  · obtain ⟨binder, body, hk, hinst, hfact⟩ := hp.instances id' k term hold
    exact ⟨binder, body, hk, hinst, hkept ⟨_, true⟩ hfact⟩
  · have hyields : Rule.Yields p.lexicon.sorts inf.origin value inf.effect := by
      rw [hfires.origin_eq]
      exact hfires.yields
    obtain ⟨binder, body, hk, hinst, hfact⟩ := Inference.exists_of_mem_terms_addition hyields hnew
    exact ⟨binder, body, hk, hinst, hkept _ (Or.inr hfact)⟩

theorem openLeaves (h : Transition p q) (hp : p.Coherent) :
    (∀ leaf ∈ q.openLeaves, leaf < q.tree.size) ∧
      (∀ leaf ∈ q.openLeaves, q.tree.children leaf = []) ∧ q.openLeaves.Nodup := by
  cases h with
  | noted _ htree hopen _ =>
      rw [htree, hopen]
      exact ⟨hp.open_lt, hp.childless, hp.nodup⟩
  | added _ _ _ _ _ _ _ htree hopen | queued _ _ _ _ _ _ _ htree hopen =>
      rw [hopen]
      refine ⟨?_, ?_, hp.nodup⟩
      · rw [htree.size]
        exact hp.open_lt
      · intro leaf hleaf
        rw [htree.children]
        exact hp.childless leaf hleaf
  | closed _ htree hopen _ =>
      rw [htree, hopen]
      refine ⟨?_, ?_, hp.nodup.filter _⟩
      · intro leaf hleaf
        exact hp.open_lt leaf (List.mem_filter.mp hleaf).1
      · intro leaf hleaf
        exact hp.childless leaf (List.mem_filter.mp hleaf).1
  | expanded inf created _ _ _ htree hopen =>
      have helse : ∀ leaf ∈ p.openElsewhere inf.node,
          leaf ∈ p.openLeaves ∧ leaf ∉ p.openBelow inf.node := by
        intro leaf hleaf
        obtain ⟨hmem, hnot⟩ := List.mem_filter.mp hleaf
        refine ⟨hmem, fun hbelow => ?_⟩
        simp [(List.mem_filter.mp hbelow).2] at hnot
      rw [hopen]
      refine ⟨?_, ?_, ?_⟩
      · intro leaf hleaf
        rcases List.mem_append.mp hleaf with hold | hnew
        · exact Nat.lt_of_lt_of_le (hp.open_lt leaf (helse leaf hold).1)
            (htree.growsTo hp.tree).size_le
        · exact (htree.size_le_of_mem_created hnew).2
      · intro leaf hleaf
        rcases List.mem_append.mp hleaf with hold | hnew
        · obtain ⟨hmem, hnot⟩ := helse leaf hold
          rw [htree.children leaf (hp.open_lt leaf hmem) hnot]
          exact hp.childless leaf hmem
        · obtain ⟨above, -, content, -, hnode⟩ := htree.exists_of_mem_created hnew
          unfold Tree.children
          rw [hnode]
          rfl
      · refine List.nodup_append.mpr ⟨hp.nodup.filter _, ?_, ?_⟩
        · rw [htree.created_eq]
          exact List.nodup_range'
        · intro old hold new hnew heq
          have hlt := hp.open_lt old (helse old hold).1
          have hge := (htree.size_le_of_mem_created hnew).1
          exact Nat.not_lt.mpr hge (heq ▸ hlt)

theorem coherent (h : Transition p q) (hp : p.Coherent) : q.Coherent where
  tree := by
    cases h with
    | noted _ htree | closed _ htree =>
        rw [htree]
        exact hp.tree
    | added _ _ _ _ _ _ _ htree | queued _ _ _ _ _ _ _ htree => exact htree.coherent hp.tree
    | expanded _ _ _ _ _ htree => exact htree.coherent hp.tree
  open_lt := (h.openLeaves hp).1
  childless := (h.openLeaves hp).2.1
  nodup := (h.openLeaves hp).2.2
  queued := h.queued_of_mem_pending hp
  instances := h.instances hp

/-! Where things come from. -/

/-- A pending inference was pending before or has just been fired. -/
theorem pending_cases (h : Transition p q) {inf : Inference} (hinf : inf ∈ q.pending) :
    inf ∈ p.pending ∨ IsFired p inf q.lexicon := by
  cases h with
  | noted _ _ _ hpending | added _ _ _ _ _ _ _ _ _ hpending =>
      rw [hpending] at hinf
      exact Or.inl hinf
  | closed _ _ _ hpending =>
      rw [hpending] at hinf
      exact Or.inl (List.mem_filter.mp hinf).1
  | expanded _ _ _ hsub => exact Or.inl (hsub.subset hinf)
  | queued leaf k value new hleaf hfires _ _ _ hpending =>
      rw [hpending, List.mem_append] at hinf
      rcases hinf with hold | hnew
      · exact Or.inl hold
      · obtain rfl : inf = new := by simpa using hnew
        exact Or.inr ⟨leaf, hleaf, k, value, hfires⟩

/-- An inference is carried out: it has been pending, or its rule is fired and nothing is
put off. -/
def Performs (p q : Prover) (inf : Inference) : Prop :=
  p.pending.Perm (inf :: q.pending) ∨ IsFired p inf q.lexicon ∧ q.pending = p.pending

/-- A fact was there before, or it is in an outcome of an inference that is carried
out. -/
theorem has_cases (h : Transition p q) (hp : p.Coherent) {id : NodeId} {k : Key} {value : Bool}
    (hhas : (q.tree.branch id).has k value = true) :
    (∃ id, (p.tree.branch id).has k value = true) ∨
      ∃ inf, Performs p q inf ∧ ∃ outcome ∈ inf.outcomes, ⟨k, value⟩ ∈ outcome := by
  cases h with
  | noted _ htree | closed _ htree => exact Or.inl ⟨id, htree ▸ hhas⟩
  | queued _ _ _ _ _ _ _ htree =>
      exact Or.inl ⟨id, by simpa using (htree.has id k value).mp hhas⟩
  | added leaf k' value' inf hleaf hfires _ htree _ hpending =>
      rcases (htree.has id k value).mp hhas with hold | ⟨-, hnew⟩
      · exact Or.inl ⟨id, hold⟩
      · exact Or.inr ⟨inf, Or.inr ⟨⟨leaf, hleaf, k', value', hfires⟩, hpending⟩,
          Inference.mem_facts_addition.mp hnew⟩
  | expanded inf _ hperm _ _ htree =>
      rcases htree.branch_cases hp.tree (hp.openBelow_lt inf.node) id with
        ⟨-, heq⟩ | ⟨leaf, -, content, hcontent, heq⟩ | heq
      · exact Or.inl ⟨id, heq ▸ hhas⟩
      · obtain ⟨facts, hfacts, rfl⟩ := List.mem_map.mp hcontent
        rw [heq] at hhas
        rcases Branch.has_cons.mp hhas with hnew | hold
        · exact Or.inr ⟨inf, Or.inl hperm, facts, hfacts, Assignment.has_ofFacts.mp hnew⟩
        · exact Or.inl ⟨leaf, hold⟩
      · simp [heq, Branch.has_iff] at hhas

end Transition

end Prover

end Tableau
