/-
No obligation is lost.  A sentence that is marked as decomposed on the branch of an
open leaf has had its rule carried out there, or the inference that will do so is
still pending.
-/
import Tableau.Proofs.Search.Reach

namespace Tableau.Prover

variable {p q : Prover}

/-- A marked sentence at a leaf is accounted for: its rule has been carried out on the
branch, or an inference from it is pending at or above the leaf. -/
def AccountsFor (p : Prover) (leaf : NodeId) (k : Key) : Prop :=
  (∃ value, (p.tree.branch leaf).has k value = true ∧
      Rule.IsCarriedOut p.lexicon.sorts (p.tree.branch leaf).Gives k.sentence value) ∨
    ∃ inf ∈ p.pending, inf.origin = k.sentence ∧ inf.node ∈ p.tree.ancestry leaf

/-- All marked sentences at open leaves are accounted for. -/
def IsAccountable (p : Prover) : Prop :=
  ∀ leaf ∈ p.openLeaves, ∀ k, (p.tree.branch leaf).isDecomposed k = true → p.AccountsFor leaf k

/-- On a consistent branch it is the rule for the value at hand that has been carried out,
if none is pending. -/
theorem IsAccountable.isCarriedOut_or_pending (h : p.IsAccountable) {leaf : NodeId}
    (hleaf : leaf ∈ p.openLeaves) (hcons : p.tree.isPathConsistent leaf = true) {k : Key}
    {value : Bool} (hvalue : (p.tree.branch leaf).has k value = true)
    (hmark : (p.tree.branch leaf).isDecomposed k = true) :
    Rule.IsCarriedOut p.lexicon.sorts (p.tree.branch leaf).Gives k.sentence value ∨
      ∃ inf ∈ p.pending, inf.origin = k.sentence ∧ inf.node ∈ p.tree.ancestry leaf := by
  rcases h leaf hleaf k hmark with ⟨other, hother, hdone⟩ | hpending
  · by_cases hsame : other = value
    · exact Or.inl (hsame ▸ hdone)
    · have hopposite := Branch.isConsistent_iff.mp hcons k value hvalue
      rw [← Bool.eq_not.mpr hsame, hother] at hopposite
      contradiction
  · exact Or.inr hpending

/-- A sentence stays accounted for as long as the branch grows and its inference, if
one is pending, stays. -/
theorem AccountsFor.mono {leaf leaf' : NodeId} {k : Key} (h : p.AccountsFor leaf k)
    (hsorts : q.lexicon.sorts = p.lexicon.sorts)
    (hhas : ∀ k value, (p.tree.branch leaf).has k value = true →
      (q.tree.branch leaf').has k value = true)
    (hpending : ∀ inf ∈ p.pending, inf.origin = k.sentence → inf.node ∈ p.tree.ancestry leaf →
      inf ∈ q.pending ∧ inf.node ∈ q.tree.ancestry leaf') :
    q.AccountsFor leaf' k := by
  rcases h with ⟨value, hvalue, hdone⟩ | ⟨inf, hinf, horigin, hnode⟩
  · refine Or.inl ⟨value, hhas k value hvalue, ?_⟩
    rw [hsorts]
    exact hdone.mono fun fact hfact => hhas _ _ hfact
  · obtain ⟨hinf', hnode'⟩ := hpending inf hinf horigin hnode
    exact Or.inr ⟨inf, hinf', horigin, hnode'⟩

/-- A rule that is carried out at a leaf accounts for its sentence. -/
theorem accountsFor_added {leaf : NodeId} {k : Key} {value : Bool} {inf : Inference}
    (hfires : Rule.Fires p.lexicon p.tree leaf k value inf q.lexicon)
    (htree : p.tree.Adds leaf inf.addition q.tree) {k' : Key} (hmark : k' ∈ inf.addition.marks) :
    q.AccountsFor leaf k' := by
  have hself : leaf ∈ p.tree.ancestry leaf := Tree.mem_ancestry_self ..
  obtain ⟨rfl, huniversal⟩ := Inference.mem_marks_addition hmark
  rw [hfires.origin_eq, Key.key_sentence]
  obtain ⟨outcome, houtcome⟩ := List.exists_mem_of_ne_nil _ hfires.yields.outcomes_ne_nil
  refine Or.inl ⟨value, (htree.has ..).mpr (Or.inl (Branch.has_of_models hfires.models)), ?_⟩
  rw [hfires.grows.sorts]
  refine (hfires.yields.isCarriedOut huniversal houtcome).mono fun fact hfact => ?_
  exact (htree.has ..).mpr
    (Or.inr ⟨hself, Inference.mem_facts_addition.mpr ⟨outcome, houtcome, hfact⟩⟩)

/-! Carrying out a pending inference.  At the leaves elsewhere nothing changes, and at every
new leaf the inference accounts for its origin. -/

section Expand

variable {leaf : NodeId} {k : Key} {inf : Inference} {created : List NodeId}
  (hp : p.Coherent) (hacc : p.IsAccountable) (hsorts : q.lexicon.sorts = p.lexicon.sorts)
  (hperm : p.pending.Perm (inf :: q.pending))
  (htree : p.tree.Grafts (p.openBelow inf.node)
    (inf.outcomes.map fun facts => Assignment.ofFacts facts inf.number) q.tree created)

include hperm in
theorem mem_pending_of_ne {other : Inference} (hother : other ∈ p.pending) (hne : other ≠ inf) :
    other ∈ q.pending := by
  rcases List.mem_cons.mp (hperm.mem_iff.mp hother) with heq | hmem
  · exact absurd heq hne
  · exact hmem

include hp hsorts hperm in
theorem accountsFor_origin {above : NodeId} {facts : Outcome} (hfacts : facts ∈ inf.outcomes)
    (hbranch : q.tree.branch leaf = Assignment.ofFacts facts inf.number :: p.tree.branch above)
    (hbelow : inf.node ∈ p.tree.ancestry above) (horigin : inf.origin = k.sentence) :
    q.AccountsFor leaf k := by
  have hqueued := hp.queued inf (hperm.mem_iff.mpr List.mem_cons_self)
  obtain ⟨value, hvalue, hyields⟩ := hqueued.exists_value
  have huniversal : ∀ binder terms facts, inf.effect ≠ .universal binder terms facts := by
    intro binder terms facts heffect
    have hsplits := hqueued.splits
    simp [Inference.isBranching, heffect] at hsplits
  rw [horigin] at hvalue hyields
  refine Or.inl ⟨value, ?_, ?_⟩
  · rw [hbranch]
    exact Branch.has_cons.mpr (Or.inr (hp.tree.has_branch_mono hbelow (by simpa using hvalue)))
  · rw [hsorts, hbranch]
    refine (hyields.isCarriedOut huniversal hfacts).mono fun fact hfact => ?_
    exact Branch.has_cons.mpr (Or.inl (Assignment.has_ofFacts.mpr hfact))

include hp hacc hsorts hperm htree

theorem accountsFor_elsewhere (hleaf : leaf ∈ p.openElsewhere inf.node)
    (hmark : (q.tree.branch leaf).isDecomposed k = true) : q.AccountsFor leaf k := by
  obtain ⟨hleaf, haway⟩ := List.mem_filter.mp hleaf
  have hlt := hp.open_lt leaf hleaf
  rw [htree.branch_of_lt hp.tree hlt] at hmark
  refine (hacc leaf hleaf k hmark).mono hsorts ((htree.growsTo hp.tree).has leaf hlt) ?_
  intro other hother _ hnode
  rw [htree.ancestry hlt]
  refine ⟨mem_pending_of_ne hperm hother ?_, hnode⟩
  rintro rfl
  simp [Tree.isDescendant_iff.mpr hnode] at haway

theorem accountsFor_created (hleaf : leaf ∈ created)
    (hmark : (q.tree.branch leaf).isDecomposed k = true) : q.AccountsFor leaf k := by
  obtain ⟨above, habove, content, hcontent, hnode⟩ := htree.exists_of_mem_created hleaf
  obtain ⟨facts, hfacts, rfl⟩ := List.mem_map.mp hcontent
  obtain ⟨habove, hbelow⟩ := List.mem_filter.mp habove
  obtain ⟨hancestry, hbranch⟩ := htree.branch_of_node_eq hp.tree (hp.open_lt above habove) hnode
  by_cases hchosen : inf.origin = k.sentence
  · exact accountsFor_origin hp hsorts hperm hfacts hbranch
      (Tree.isDescendant_iff.mp hbelow) hchosen
  · rw [hbranch] at hmark
    have hold : (p.tree.branch above).isDecomposed k = true := by
      simpa [Branch.isDecomposed_iff] using hmark
    refine (hacc above habove k hold).mono hsorts ?_ ?_
    · intro k value hvalue
      rw [hbranch]
      exact Branch.has_cons.mpr (Or.inr hvalue)
    · intro other hother horigin hnode
      rw [hancestry]
      refine ⟨mem_pending_of_ne hperm hother ?_, List.mem_cons_of_mem leaf hnode⟩
      rintro rfl
      exact hchosen horigin

end Expand

theorem Transition.isAccountable (h : Transition p q) (hp : p.Coherent)
    (hacc : p.IsAccountable) : q.IsAccountable := by
  intro leaf hleaf k hmark
  have hsorts := h.lexicon_growsTo.sorts
  cases h with
  | noted hlex htree hopen hpending =>
      rw [hopen] at hleaf
      rw [htree] at hmark
      refine (hacc leaf hleaf k hmark).mono hsorts ?_ ?_
      · rw [htree]
        exact fun _ _ hhas => hhas
      · rw [htree, hpending]
        exact fun inf hinf _ hnode => ⟨hinf, hnode⟩
  | added leaf₀ k₀ value inf hleaf₀ hfires hsplit htree hopen hpending =>
      rw [hopen] at hleaf
      rcases (htree.isDecomposed leaf k).mp hmark with hold | ⟨hbelow, hnew⟩
      · refine (hacc leaf hleaf k hold).mono hsorts ?_ ?_
        · exact htree.growsTo.has leaf (hp.open_lt leaf hleaf)
        · rw [htree.ancestry, hpending]
          exact fun inf hinf _ hnode => ⟨hinf, hnode⟩
      · obtain rfl := hp.tree.eq_of_childless (hp.childless leaf₀ hleaf₀) hbelow
        exact accountsFor_added hfires htree hnew
  | queued leaf₀ k₀ value inf hleaf₀ hfires hsplit htree hopen hpending =>
      rw [hopen] at hleaf
      rcases (htree.isDecomposed leaf k).mp hmark with hold | ⟨hbelow, hnew⟩
      · refine (hacc leaf hleaf k hold).mono hsorts ?_ ?_
        · exact htree.growsTo.has leaf (hp.open_lt leaf hleaf)
        · rw [htree.ancestry, hpending]
          exact fun other hother _ hnode => ⟨List.mem_append_left _ hother, hnode⟩
      · obtain rfl : k = k₀ := by simpa using hnew
        refine Or.inr ⟨inf, ?_, hfires.origin_eq, ?_⟩
        · rw [hpending]
          exact List.mem_append_right _ List.mem_cons_self
        · rwa [hfires.node_eq, htree.ancestry]
  | closed hlex htree hopen hpending =>
      have hold : leaf ∈ p.openLeaves := by
        rw [hopen] at hleaf
        exact (List.mem_filter.mp hleaf).1
      rw [htree] at hmark
      refine (hacc leaf hold k hmark).mono hsorts ?_ ?_
      · rw [htree]
        exact fun _ _ hhas => hhas
      · intro inf hinf _ hnode
        rw [htree, hpending]
        refine ⟨List.mem_filter.mpr ⟨hinf, ?_⟩, hnode⟩
        exact List.any_eq_true.mpr ⟨leaf, hleaf, Tree.isDescendant_iff.mpr hnode⟩
  | expanded inf created hperm hsub hlex htree hopen =>
      rw [hopen] at hleaf
      rcases List.mem_append.mp hleaf with hold | hnew
      · exact accountsFor_elsewhere hp hacc hsorts hperm htree hold hmark
      · exact accountsFor_created hp hacc hsorts hperm htree hnew hmark

/-- In all states that a search reaches, marked sentences are accounted for. -/
theorem Reaches.isAccountable {lexicon : Lexicon} {premises goals : List Sentence}
    {options : Options} {s : Search} (h : (Prover.start lexicon premises goals options).Reaches s) :
    s.prover.IsAccountable := by
  refine h.invariant (fun p q hp hacc htransition => htransition.isAccountable hp hacc) ?_
  intro leaf _ k hmark
  rw [isDecomposed_branch_start] at hmark
  contradiction

/-- No obligation is lost in any state that a search reaches.  If a sentence has a value and
a mark on the consistent branch of an open leaf, all facts of an outcome of its rule are on
the branch, or an inference from it is pending at the leaf or above. -/
theorem Reaches.exists_outcome_or_pending {lexicon : Lexicon} {premises goals : List Sentence}
    {options : Options} {s : Search} (h : (Prover.start lexicon premises goals options).Reaches s)
    {leaf : NodeId} (hleaf : leaf ∈ s.prover.openLeaves)
    (hcons : s.prover.tree.isPathConsistent leaf = true) {x : Sentence} {value : Bool}
    (hvalue : (s.prover.tree.branch leaf).has x value = true)
    (hmark : (s.prover.tree.branch leaf).isDecomposed x = true) :
    (∃ outcome, Rule.IsOutcome s.prover.lexicon.sorts x value outcome ∧
        ∀ fact ∈ outcome, (s.prover.tree.branch leaf).has fact.key fact.value = true) ∨
      ∃ inf ∈ s.prover.pending, inf.origin = x ∧
        s.prover.tree.isDescendant leaf inf.node = true := by
  rcases h.isAccountable.isCarriedOut_or_pending hleaf hcons hvalue hmark with
    hdone | ⟨inf, hinf, horigin, hnode⟩
  · rcases hdone.exists_outcome with houtcome | hopposite
    · exact Or.inl houtcome
    · have hnone := Branch.isConsistent_iff.mp hcons x value hvalue
      exact absurd hopposite (by simp [Branch.Gives, hnone])
  · exact Or.inr ⟨inf, hinf, horigin, Tree.isDescendant_iff.mpr hnode⟩

/-- Two disjunctions are put off at the root, and one of them is carried out there.  At the
first of the new leaves both are accounted for. -/
theorem exists_outcome_or_pending_of_disjunctions :
    let either : Sentence := .disj [.atom "A", .atom "B"]
    let other : Sentence := .disj [.atom "C", .atom "D"]
    ∃ problem lexicon', Problem.read {} "(premises (or A B) (or C D))" = (.ok problem, lexicon') ∧
      let s := (start lexicon' problem.premises problem.goals {}).after 6
      (∀ x ∈ [either, other], (s.prover.tree.branch 1).has x true = true ∧
        (s.prover.tree.branch 1).isDecomposed x = true) ∧ s.prover.pending.length = 1 ∧
      ∀ x ∈ [either, other],
        (∃ outcome, Rule.IsOutcome s.prover.lexicon.sorts x true outcome ∧
            ∀ fact ∈ outcome, (s.prover.tree.branch 1).has fact.key fact.value = true) ∨
          ∃ inf ∈ s.prover.pending, inf.origin = x ∧
            s.prover.tree.isDescendant 1 inf.node = true := by
  intro either other
  obtain ⟨problem, lexicon', hread, htest⟩ := Problem.exists_read_of_any {}
    "(premises (or A B) (or C D))" (fun problem lexicon' =>
      let s := (start lexicon' problem.premises problem.goals {}).after 6
      decide (1 ∈ s.prover.openLeaves ∧ s.prover.tree.isPathConsistent 1 = true ∧
        (∀ x ∈ [either, other], (s.prover.tree.branch 1).has x true = true ∧
          (s.prover.tree.branch 1).isDecomposed x = true) ∧ s.prover.pending.length = 1))
    (by decide +kernel)
  refine ⟨problem, lexicon', hread, ?_⟩
  intro s
  obtain ⟨hleaf, hcons, hmarked, hpending⟩ := of_decide_eq_true htest
  refine ⟨hmarked, hpending, fun x hx => ?_⟩
  exact (reaches_after _ 6).exists_outcome_or_pending hleaf hcons (hmarked x hx).1 (hmarked x hx).2

end Tableau.Prover
