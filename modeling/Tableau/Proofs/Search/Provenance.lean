/-
Where the facts of a tree come from.  The number that is kept with a fact is that of an entry of
the log, made at the node of the fact or above it, which has the fact among its outcomes; only
the facts that a search begins with have the number 0.  An inference takes the number of its
origin along when its rule is fired.  So every entry of the log can be traced to an earlier one
on its own branch, even if it has been put off for long.
-/
import Tableau.Proofs.Search.Replay

namespace Tableau

/-! The numbers that a change leaves at the nodes. -/

namespace Tree

variable {tree : Tree} {id m : NodeId} {k k' : Key} {value v : Bool} {number n : Nat}

/-- Only the nodes of the tree have facts. -/
theorem lt_size_of_justification (h : (tree.content id).justification k value = some number) :
    id < tree.size := by
  rcases Nat.lt_or_ge id tree.size with hlt | hge
  · exact hlt
  · rw [content, node_eq_of_size_le hge, Assignment.justification_empty] at h
    contradiction

/-- What gives a branch its value is at one of its nodes. -/
theorem exists_of_justification_branch (h : (tree.branch id).justification k value = some number) :
    ∃ n ∈ tree.ancestry id, (tree.content n).justification k value = some number := by
  rw [justification_branch] at h
  exact List.exists_of_findSome?_eq_some h

theorem justification_of_set
    (h : ((set id k value number tree).1.content m).justification k' v = some n) :
    (tree.content m).justification k' v = some n ∨
      m = id ∧ n = number ∧ k' = k ∧ v = value := by
  rw [set] at h
  split at h
  · exact Or.inl h
  · rw [content, node_alter] at h
    split at h
    · next hm =>
        simp only [Assignment.justification_set, Option.or_eq_some_iff] at h
        rcases h with hold | ⟨-, hnew⟩
        · exact Or.inl (hm.1 ▸ hold)
        · obtain ⟨hfact, hnumber⟩ := Option.ite_none_right_eq_some.mp hnew
          exact Or.inr ⟨hm.1, (Option.some.inj hnumber).symm, hfact⟩
    · exact Or.inl h

/-- Facts that are set one after the other have the numbers that they are set with. -/
theorem justification_of_each_set {numbers : Fact → Nat} {facts : List Fact}
    (h : ((Update.each (fun fact => set id fact.key fact.value (numbers fact)) facts tree).1.content
      m).justification k v = some n) :
    (tree.content m).justification k v = some n ∨
      m = id ∧ ⟨k, v⟩ ∈ facts ∧ n = numbers ⟨k, v⟩ := by
  induction facts generalizing tree with
  | nil => exact Or.inl h
  | cons fact facts ih =>
      rcases ih h with hfirst | ⟨hm, hmem, hnumber⟩
      · rcases justification_of_set hfirst with hold | ⟨hm, hnumber, rfl, rfl⟩
        · exact Or.inl hold
        · exact Or.inr ⟨hm, List.mem_cons_self, hnumber⟩
      · exact Or.inr ⟨hm, List.mem_cons_of_mem fact hmem, hnumber⟩

theorem justification_of_merge_ofFacts {facts : List Fact}
    (h : ((merge id (Assignment.ofFacts facts number) tree).1.content m).justification k v =
      some n) :
    (tree.content m).justification k v = some n ∨ m = id ∧ ⟨k, v⟩ ∈ facts ∧ n = number := by
  have hempty : ({} : Table (List Sentence)).toList = [] := rfl
  simp only [merge, Assignment.decomposed_ofFacts, Assignment.instances_ofFacts, hempty,
    Update.each, Update.andThen, Update.skip] at h
  rcases justification_of_each_set h with hold | ⟨hm, hmem, hnumber⟩
  · exact Or.inl hold
  · have hfact : ⟨k, v⟩ ∈ facts := Assignment.has_ofFacts.mp (Assignment.mem_facts.mp hmem)
    rw [Assignment.justification_ofFacts, if_pos hfact] at hnumber
    exact Or.inr ⟨hm, hfact, hnumber⟩

theorem justification_instantiate (id : NodeId) (k : Key) (term : Sentence) (tree : Tree) :
    ((instantiate id k term tree).1.content m).justification k' v =
      (tree.content m).justification k' v := by
  rw [instantiate]
  split
  · rfl
  · rw [content, node_alter]
    split
    · next hm => rw [hm.1, Assignment.justification_instantiate]
    · rfl

theorem justification_each_instantiate (id : NodeId) (k : Key) (terms : List Sentence)
    (tree : Tree) :
    ((Update.each (instantiate id k) terms tree).1.content m).justification k' v =
      (tree.content m).justification k' v :=
  Update.each_preserves (fun tree' =>
      (tree'.content m).justification k' v = (tree.content m).justification k' v)
    (fun term tree' h => (justification_instantiate id k term tree').trans h) rfl terms

/-- New nodes have the number that their contents are made with. -/
theorem Grafts.justification_cases {tree' : Tree} {leaves created : List NodeId}
    {outcomes : List Outcome}
    (h : Grafts tree leaves (outcomes.map fun facts => Assignment.ofFacts facts number)
      tree' created) (hnumber : (tree'.content m).justification k v = some n) :
    (tree.content m).justification k v = some n ∨
      ∃ leaf ∈ leaves, tree'.ancestry m = m :: tree.ancestry leaf ∧ n = number ∧
        ∃ outcome ∈ outcomes, ⟨k, v⟩ ∈ outcome := by
  rcases Nat.lt_or_ge m tree.size with hold | hge
  · exact Or.inl (h.content m hold ▸ hnumber)
  · obtain ⟨leaf, hleaf, content, hcontent, hnode⟩ :=
      h.exists_of_mem_created (h.mem_created_iff.mpr ⟨hge, lt_size_of_justification hnumber⟩)
    obtain ⟨outcome, houtcome, rfl⟩ := List.mem_map.mp hcontent
    rw [Tree.content, hnode, newNode, Assignment.justification_ofFacts] at hnumber
    obtain ⟨hfact, hnumber⟩ := Option.ite_none_right_eq_some.mp hnumber
    refine Or.inr ⟨leaf, hleaf, ?_, (Option.some.inj hnumber).symm, outcome, houtcome, hfact⟩
    rw [Tree.ancestry, hnode]
    rfl

end Tree

/-- An inference that does not split gives its number to the facts that it adds. -/
theorem Inference.justification_of_apply {tree : Tree} {sorts : Sorts} {s : Sentence} {value : Bool}
    {inf : Inference} (hyields : Rule.Yields sorts s value inf.effect)
    (hsplit : inf.isBranching = false) {leaves : List NodeId} {m : NodeId} {k : Key} {v : Bool}
    {n : Nat} (h : ((inf.apply tree leaves).1.content m).justification k v = some n) :
    (tree.content m).justification k v = some n ∨
      m = inf.node ∧ n = inf.number ∧ ∃ outcome ∈ inf.outcomes, ⟨k, v⟩ ∈ outcome := by
  obtain ⟨facts, hcases⟩ := apply_cases hyields hsplit
  have hmerged : inf.addition.facts = facts ∧
      ((inf.mergeFacts facts tree).1.content m).justification k v = some n := by
    rcases hcases with ⟨hadded, happly⟩ | ⟨terms, hadded, happly⟩
    · rw [happly] at h
      have hsame := Tree.Resembles.of_decompose inf.node inf.origin (inf.mergeFacts facts tree).1
      exact ⟨by rw [hadded], ((hsame.node m).content.justification k v).symm.trans h⟩
    · rw [happly, Tree.justification_each_instantiate] at h
      exact ⟨by rw [hadded], h⟩
  rcases Tree.justification_of_merge_ofFacts hmerged.2 with hold | ⟨hm, hfact, hnumber⟩
  · exact Or.inl hold
  · exact Or.inr ⟨hm, hnumber, mem_facts_addition.mp (hmerged.1 ▸ hfact)⟩

namespace Prover

variable {p q : Prover} {premises goals : List Sentence} {inf : Inference}

/-- A number at a node is an old one, or that of the new entry of the log, which has been made
at the node or above it. -/
theorem Advance.justification_cases (hadvance : Advance p q) (hp : p.Coherent) {id : NodeId}
    {k : Key} {value : Bool} {number : Nat}
    (h : (q.tree.content id).justification k value = some number) :
    (p.tree.content id).justification k value = some number ∨
      ∃ inf, q.log = p.log.push inf ∧ inf.number = number ∧ inf.node ∈ q.tree.ancestry id ∧
        ∃ outcome ∈ inf.outcomes, ⟨k, value⟩ ∈ outcome := by
  cases hadvance with
  | noted _ htree | closed _ _ _ _ _ htree | pruned _ htree => exact Or.inl (htree ▸ h)
  | performed leaf k value inf hleaf hfires _ hsplit htree _ _ hlog =>
      rw [htree] at h
      rcases Inference.justification_of_apply hfires.yields hsplit h with hold
        | ⟨hid, hnumber, hfact⟩
      · exact Or.inl hold
      · exact Or.inr ⟨inf, hlog, hnumber.symm, hid ▸ Tree.mem_ancestry_self .., hfact⟩
  | deferred leaf k value inf hleaf hfires _ _ htree =>
      rw [htree] at h
      have hsame := Tree.Resembles.of_decompose inf.node inf.origin p.tree
      exact Or.inl (((hsame.node id).content.justification _ _).symm.trans h)
  | expanded inf _ _ hperm _ _ htree _ hlog =>
      have hgrafts := hp.grafts_of_expanded (hperm.mem_iff.mpr List.mem_cons_self) htree
      rcases hgrafts.justification_cases h with hold | ⟨leaf, hleaf, hancestry, hnumber, hfact⟩
      · exact Or.inl hold
      · refine Or.inr ⟨inf, hlog, hnumber.symm, ?_, hfact⟩
        rw [hancestry]
        exact List.mem_cons_of_mem id (Tree.isDescendant_iff.mp (List.mem_filter.mp hleaf).2)

/-! Tracing numbers in the log. -/

/-- A fact with a number is one of those that the search begins with, or it is an outcome of the
inference in the log that has the number and has been made at one of the given nodes. -/
def IsJustified (premises goals : List Sentence) (log : List Inference) (way : List NodeId)
    (fact : Fact) (number : Nat) : Prop :=
  number = 0 ∧ fact ∈ rootFacts premises goals ∨
    ∃ inf ∈ log, inf.number = number ∧ inf.node ∈ way ∧ ∃ outcome ∈ inf.outcomes, fact ∈ outcome

theorem IsJustified.mono {log log' : List Inference} {way way' : List NodeId} {fact : Fact}
    {number : Nat} (h : IsJustified premises goals log way fact number) (hlog : log ⊆ log')
    (hway : way ⊆ way') : IsJustified premises goals log' way' fact number := by
  rcases h with hroot | ⟨inf, hinf, hnumber, hnode, hfact⟩
  · exact Or.inl hroot
  · exact Or.inr ⟨inf, hlog hinf, hnumber, hway hnode, hfact⟩

/-- The numbers at all nodes can be traced in the log. -/
def IsTraced (premises goals : List Sentence) (p : Prover) : Prop :=
  ∀ id k value number, (p.tree.content id).justification k value = some number →
    IsJustified premises goals p.log.toList (p.tree.ancestry id) ⟨k, value⟩ number

/-- So can the numbers on all branches. -/
theorem IsTraced.isJustified (h : p.IsTraced premises goals) (hp : p.Coherent) {id : NodeId}
    {k : Key} {value : Bool} {number : Nat}
    (hnumber : (p.tree.branch id).justification k value = some number) :
    IsJustified premises goals p.log.toList (p.tree.ancestry id) ⟨k, value⟩ number := by
  obtain ⟨n, hn, hnumber⟩ := Tree.exists_of_justification_branch hnumber
  apply (h n k value number hnumber).mono (List.Subset.refl _)
  exact fun m hm => hp.tree.mem_ancestry_trans hn hm

theorem Advance.log_subset (h : Advance p q) : p.log.toList ⊆ q.log.toList := by
  rcases h.log_cases with hlog | ⟨inf, hlog⟩
  · rw [hlog]
    exact List.Subset.refl _
  · rw [hlog, Array.toList_push]
    exact List.subset_append_left _ _

theorem Advance.isTraced (hadvance : Advance p q) (hp : p.Coherent)
    (h : p.IsTraced premises goals) :
    q.IsTraced premises goals := by
  intro id k value number hnumber
  rcases hadvance.justification_cases hp hnumber with hold | ⟨inf, hlog, hinf⟩
  · have hancestry := (hadvance.growsTo hp).ancestry id (Tree.lt_size_of_justification hold)
    rw [hancestry]
    exact (h id k value number hold).mono hadvance.log_subset (List.Subset.refl _)
  · exact Or.inr ⟨inf, by simp [hlog], hinf⟩

/-- An inference is due to a value of its origin, and it has taken the number of that value
along. -/
def IsWarranted (premises goals : List Sentence) (p : Prover) (inf : Inference) : Prop :=
  ∃ value, (p.tree.branch inf.node).has inf.origin value = true ∧
    Rule.Yields p.lexicon.sorts inf.origin value inf.effect ∧
    IsJustified premises goals p.log.toList (p.tree.ancestry inf.node) ⟨inf.origin, value⟩
      inf.justification

/-- A rule that is fired has a warrant. -/
theorem IsTraced.isWarranted (h : p.IsTraced premises goals) (hp : p.Coherent) {leaf : NodeId}
    {k : Key} {value : Bool} {lex : Lexicon}
    (hfires : Rule.Fires p.lexicon p.tree leaf k value inf lex) :
    p.IsWarranted premises goals inf := by
  rw [IsWarranted, hfires.node_eq, hfires.origin_eq, Key.key_sentence]
  exact ⟨value, Branch.has_of_models hfires.models, hfires.yields,
    h.isJustified hp hfires.justified⟩

theorem Advance.isWarranted (hadvance : Advance p q) (hp : p.Coherent)
    (hlt : inf.node < p.tree.size)
    (h : p.IsWarranted premises goals inf) : q.IsWarranted premises goals inf := by
  obtain ⟨value, hhas, hyields, hjust⟩ := h
  have hgrows := hadvance.growsTo hp
  rw [IsWarranted, (hadvance.lexicon_growsTo hp).sorts, hgrows.ancestry inf.node hlt]
  exact ⟨value, hgrows.has inf.node hlt _ _ hhas, hyields,
    hjust.mono hadvance.log_subset (List.Subset.refl _)⟩

/-- Pending inferences keep their warrants. -/
theorem Advance.isWarranted_of_mem_pending (hadvance : Advance p q) (hp : p.Coherent)
    (htraced : p.IsTraced premises goals)
    (h : ∀ inf ∈ p.pending, p.IsWarranted premises goals inf) :
    ∀ inf ∈ q.pending, q.IsWarranted premises goals inf := by
  intro inf hinf
  rcases hadvance.pending_cases hp hinf with hold | ⟨leaf, hleaf, k, value, hfires⟩
  · exact hadvance.isWarranted hp (hp.queued inf hold).node_lt (h inf hold)
  · apply hadvance.isWarranted hp _ (htraced.isWarranted hp hfires)
    rw [hfires.node_eq]
    exact hp.open_lt leaf hleaf

end Prover

/-! Entries. -/

/-- The value of its origin that an inference makes use of, when it is carried out in a tree.
A closure refers to the origin being true. -/
def Inference.usedValue? (inf : Inference) (tree : Tree) : Option Bool :=
  if inf.isClosure then some true else (tree.branch inf.node).models inf.origin

namespace Prover

variable {p q : Prover} {premises goals : List Sentence} {inf : Inference}

/-- An inference follows from the entries of the log before it: the value of its origin that it
makes use of has been justified by one of them, and its effect is what the rule for that value
yields. -/
def Follows (premises goals : List Sentence) (sorts : Sorts) (before : List Inference)
    (way : List NodeId) (inf : Inference) : Prop :=
  ∃ value, inf.usedValue? (Replay.ofLog premises goals before).tree = some value ∧
    (inf.isClosure = false → Rule.Yields sorts inf.origin value inf.effect) ∧
    IsJustified premises goals before way ⟨inf.origin, value⟩ inf.justification

/-- All numbers can be traced, and every entry of the log follows from those before it. -/
structure HasProvenance (premises goals : List Sentence) (p : Prover) : Prop where
  replayable : p.IsReplayable premises goals
  traced : p.IsTraced premises goals
  pending : ∀ inf ∈ p.pending, p.IsWarranted premises goals inf
  follows : ∀ before inf, before ++ [inf] <+: p.log.toList → inf.node < p.tree.size ∧
    Follows premises goals p.lexicon.sorts before (p.tree.ancestry inf.node) inf

namespace HasProvenance

variable (h : p.HasProvenance premises goals)
include h

/-- An inference makes use of the value on its branch. -/
theorem usedValue?_eq (hclosure : inf.isClosure = false) :
    inf.usedValue? (Replay.ofLog premises goals p.log.toList).tree =
      (p.tree.branch inf.node).models inf.origin := by
  rw [Inference.usedValue?, hclosure]
  exact h.replayable.reproduces.tree.models_branch inf.node inf.origin

theorem follows_of_fires (hp : p.Coherent) {leaf : NodeId} {k : Key} {value : Bool} {lex : Lexicon}
    (hfires : Rule.Fires p.lexicon p.tree leaf k value inf lex) :
    Follows premises goals p.lexicon.sorts p.log.toList (p.tree.ancestry inf.node) inf := by
  refine ⟨value, ?_, fun _ => ?_, ?_⟩
  · rw [h.usedValue?_eq hfires.yields.isClosure_eq_false, hfires.node_eq, hfires.origin_eq,
      Key.key_sentence]
    exact hfires.models
  · rw [hfires.origin_eq]
    exact hfires.yields
  · rw [hfires.node_eq, hfires.origin_eq, Key.key_sentence]
    exact h.traced.isJustified hp hfires.justified

/-- When a pending inference is carried out, the branch of its node is consistent.  So it shows
no other value of the origin than when the rule was fired. -/
theorem follows_of_pending (hinf : inf ∈ p.pending)
    (hconsistent : p.tree.isPathConsistent inf.node = true) :
    Follows premises goals p.lexicon.sorts p.log.toList (p.tree.ancestry inf.node) inf := by
  obtain ⟨value, hhas, hyields, hjust⟩ := h.pending inf hinf
  refine ⟨value, ?_, fun _ => hyields, hjust⟩
  rw [h.usedValue?_eq hyields.isClosure_eq_false]
  exact (Branch.models_eq_some hconsistent).mpr hhas

theorem follows_closure (hp : p.Coherent) {leaf : NodeId} {conflict : Conflict}
    (hconflict : Tree.pathConflict p.lexicon p.tree leaf = some conflict) :
    Follows premises goals p.lexicon.sorts p.log.toList (p.tree.ancestry conflict.node)
      (p.closure conflict) := by
  obtain ⟨-, -, hfound⟩ := Tree.of_pathConflict_eq_some hconflict
  obtain ⟨number, hnumber⟩ :=
    Option.isSome_iff_exists.mp (Tree.has_branch_of_conflict_eq_some hfound true)
  refine ⟨true, rfl, fun hclosure => absurd hclosure (by simp [closure, Inference.isClosure]), ?_⟩
  have hjust : (p.closure conflict).justification = number := by simp [closure, hnumber]
  rw [hjust]
  exact h.traced.isJustified hp hnumber

end HasProvenance

/-- What enters the log follows from the log. -/
theorem Advance.follows_of_push (hadvance : Advance p q) (hp : p.Coherent)
    (h : p.HasProvenance premises goals) (hlog : q.log = p.log.push inf) :
    inf.node < p.tree.size ∧
      Follows premises goals p.lexicon.sorts p.log.toList (p.tree.ancestry inf.node) inf := by
  cases hadvance with
  | noted _ _ _ _ hsame | pruned _ _ _ _ hsame | deferred _ _ _ _ _ _ _ _ _ _ _ hsame =>
      have hsize := congrArg Array.size (hsame.symm.trans hlog)
      simp at hsize
  | performed leaf k value new hleaf hfires _ _ _ _ _ hpush =>
      obtain ⟨rfl, -⟩ := Array.push_eq_push.mp (hpush.symm.trans hlog)
      exact ⟨hfires.node_eq ▸ hp.open_lt leaf hleaf, h.follows_of_fires hp hfires⟩
  | closed leaf conflict hleaf hconflict _ _ _ _ hpush =>
      obtain ⟨rfl, -⟩ := Array.push_eq_push.mp (hpush.symm.trans hlog)
      have hnode := h.replayable.frontier.node_of_pathConflict hp hconflict
      have hlt : conflict.node < p.tree.size := hnode ▸ hp.open_lt leaf hleaf
      exact ⟨hlt, h.follows_closure hp hconflict⟩
  | expanded new hneeded hconsistent hperm _ _ _ _ hpush =>
      obtain ⟨rfl, -⟩ := Array.push_eq_push.mp (hpush.symm.trans hlog)
      have hnew : new ∈ p.pending := hperm.mem_iff.mpr List.mem_cons_self
      obtain ⟨leaf, hleaf, hbelow⟩ := hneeded
      have hcons := hp.tree.isPathConsistent_of_mem hbelow (hconsistent leaf hleaf)
      exact ⟨(hp.queued new hnew).node_lt, h.follows_of_pending hnew hcons⟩

/-- Since nodes stay in their places, what has followed still follows. -/
theorem Advance.follows (hadvance : Advance p q) (hp : p.Coherent) {before : List Inference}
    (hlt : inf.node < p.tree.size)
    (h : Follows premises goals p.lexicon.sorts before (p.tree.ancestry inf.node) inf) :
    inf.node < q.tree.size ∧
      Follows premises goals q.lexicon.sorts before (q.tree.ancestry inf.node) inf := by
  have hgrows := hadvance.growsTo hp
  rw [hgrows.ancestry inf.node hlt, (hadvance.lexicon_growsTo hp).sorts]
  exact ⟨Nat.lt_of_lt_of_le hlt hgrows.size_le, h⟩

theorem Advance.hasProvenance (hadvance : Advance p q) (hp : p.Coherent)
    (h : p.HasProvenance premises goals) : q.HasProvenance premises goals where
  replayable := hadvance.isReplayable hp h.replayable
  traced := hadvance.isTraced hp h.traced
  pending := hadvance.isWarranted_of_mem_pending hp h.traced h.pending
  follows := by
    intro before inf hprefix
    have hold : before ++ [inf] <+: p.log.toList → _ := fun hmem =>
      hadvance.follows hp (h.follows before inf hmem).1 (h.follows before inf hmem).2
    rcases hadvance.log_cases with hlog | ⟨new, hlog⟩
    · exact hold (hlog ▸ hprefix)
    · rw [hlog, Array.toList_push, List.prefix_concat_iff] at hprefix
      rcases hprefix with hlast | hmem
      · obtain ⟨rfl, hsame⟩ := List.append_inj' hlast rfl
        obtain rfl := List.singleton_inj.mp hsame
        obtain ⟨hlt, hfollows⟩ := hadvance.follows_of_push hp h hlog
        exact hadvance.follows hp hlt hfollows
      · exact hold hmem

section Run

variable {lexicon : Lexicon} {options : Options} {s : Search}

theorem isTraced_start : (start lexicon premises goals options).IsTraced premises goals := by
  intro id k value number hnumber
  rw [tree_start, Tree.content, Tree.node_ofRoot] at hnumber
  split at hnumber
  · rw [Assignment.justification_ofFacts] at hnumber
    obtain ⟨hfact, hnumber⟩ := Option.ite_none_right_eq_some.mp hnumber
    exact Or.inl ⟨(Option.some.inj hnumber).symm, hfact⟩
  · rw [Assignment.justification_empty] at hnumber
    contradiction

theorem hasProvenance_start :
    (start lexicon premises goals options).HasProvenance premises goals where
  replayable := isReplayable_start
  traced := isTraced_start
  pending := by simp
  follows := by simp

/-- Every entry of the log is justified by an earlier one on its own branch.  In every state that
a search reaches, the numbers in the log are positive and different from each other.  The value
of the origin that an entry makes use of is an initial fact, if the number of its justification
is 0, or an outcome of the entry before it that has this number, made at the same node or above
it. -/
theorem Reaches.justifies_log (h : (start lexicon premises goals options).Reaches s) :
    (∀ inf ∈ s.prover.log, 0 < inf.number) ∧ (s.prover.log.toList.map (·.number)).Nodup ∧
      ∀ before inf, before ++ [inf] <+: s.prover.log.toList →
        ∃ value, inf.usedValue? (Replay.ofLog premises goals before).tree = some value ∧
          (inf.isClosure = false →
            Rule.Yields s.prover.lexicon.sorts inf.origin value inf.effect) ∧
          IsJustified premises goals before (s.prover.tree.ancestry inf.node)
            ⟨inf.origin, value⟩ inf.justification := by
  have hprovenance : s.prover.HasProvenance premises goals :=
    h.of_advance (fun _ _ hp hprov hadvance => hadvance.hasProvenance hp hprov) hasProvenance_start
  have hnumbered := hprovenance.replayable.numbered
  refine ⟨?_, ?_, ?_⟩
  · intro inf hinf
    exact hnumbered.pos inf (List.mem_append_left _ (Array.mem_toList_iff.mpr hinf))
  · exact hnumbered.nodup.sublist ((List.sublist_append_left ..).map _)
  · intro before inf hprefix
    exact (hprovenance.follows before inf hprefix).2

/-- The disjunction is put off before the negations are decomposed, and so its number comes late
in the log.  The last closure is traced to it. -/
theorem justifies_log_of_late_split :
    let text := "(premises (or A B) (and (not A) (not B)))"
    let closure : Inference := ⟨2, .atom "B", 6, 1, .closure 0⟩
    ∃ problem lexicon', Problem.read {} text = (.ok problem, lexicon') ∧
      let s := (start lexicon' problem.premises problem.goals {}).after 11
      s.stage = .done .valid ∧
        s.prover.log.toList.map (fun inf => (inf.number, inf.justification)) =
          [(2, 0), (3, 2), (4, 2), (1, 0), (5, 1), (6, 1)] ∧
        s.prover.log.toList = s.prover.log.toList.take 5 ++ [closure] ∧
        (∀ inf ∈ s.prover.log, 0 < inf.number) ∧ (s.prover.log.toList.map (·.number)).Nodup ∧
        ∃ inf ∈ s.prover.log.toList.take 5, inf.number = 1 ∧
          inf.node ∈ s.prover.tree.ancestry 2 ∧
          ∃ outcome ∈ inf.outcomes, ⟨Sentence.atom "B", true⟩ ∈ outcome := by
  intro text closure
  obtain ⟨problem, lexicon', hread, htest⟩ := Problem.exists_read_of_any {} text
    (fun problem lexicon' =>
      let s := (start lexicon' problem.premises problem.goals {}).after 11
      decide (s.stage = .done .valid ∧
        s.prover.log.toList.map (fun inf => (inf.number, inf.justification)) =
          [(2, 0), (3, 2), (4, 2), (1, 0), (5, 1), (6, 1)] ∧
        s.prover.log.toList = s.prover.log.toList.take 5 ++ [closure]))
    (by decide +kernel)
  refine ⟨problem, lexicon', hread, ?_⟩
  intro s
  obtain ⟨hstage, hnumbers, hlog⟩ := of_decide_eq_true htest
  obtain ⟨hpos, hnodup, hfollows⟩ := (reaches_after _ 11).justifies_log
  have hlast : s.prover.log.toList.take 5 ++ [closure] <+: s.prover.log.toList :=
    ⟨[], by rw [List.append_nil, ← hlog]⟩
  obtain ⟨value, hvalue, -, hjust⟩ := hfollows _ closure hlast
  obtain rfl : true = value := Option.some.inj hvalue
  refine ⟨hstage, hnumbers, hlog, hpos, hnodup, ?_⟩
  exact hjust.resolve_left fun hroot => absurd hroot.1 (by decide)

end Run

end Prover

end Tableau
