/-
Realizable states.  A state is realizable if some notion of truth, of a given class,
agrees with all facts on the branch of an open leaf.  A transition keeps a state
realizable if every rule has an outcome that the class can agree with.  A state without
open leaves is not realizable, and so neither was the state at the start.
-/
import Tableau.Proofs.Search.Phase
import Tableau.Proofs.Valuation

namespace Tableau

/-- All facts of a branch agree with a notion of truth. -/
def Branch.IsRealizedBy (branch : Branch) (truth : Sentence → Prop) : Prop :=
  ∀ fact, branch.Gives fact → fact.Agrees truth

/-- A branch that agrees with some notion of truth is consistent. -/
theorem Branch.IsRealizedBy.isConsistent {branch : Branch} {truth : Sentence → Prop}
    (h : branch.IsRealizedBy truth) : branch.isConsistent = true := by
  rw [Branch.isConsistent_iff]
  intro k value hvalue
  rw [← Bool.not_eq_true]
  intro hopposite
  have hagrees := h ⟨k, value⟩ hvalue
  have hdisagrees := h ⟨k, !value⟩ hopposite
  exact (Fact.agrees_not k value).mp hdisagrees hagrees

/-- A valuation that agrees with the value of a connective agrees with an outcome of its
rule. -/
theorem IsValuation.exists_outcome {truth : Sentence → Prop} (hv : IsValuation truth)
    {sorts : Sorts} {s : Sentence} {value : Bool} {inf : Inference}
    (hyields : Rule.Yields sorts s value inf.effect) (hs : s.isQuantifier = false)
    (hagrees : (Fact.mk s value).Agrees truth) :
    ∃ outcome ∈ inf.outcomes, ∀ fact ∈ outcome, fact.Agrees truth := by
  obtain ⟨lex, alternatives, halts, heffect⟩ := hyields.of_not_isQuantifier hs
  obtain ⟨facts, hfacts, hall⟩ := hv.exists_alternative halts hagrees
  refine ⟨lex.arrange facts, ?_, fun fact hfact => hall fact (Lexicon.mem_arrange.mp hfact)⟩
  rw [Rule.outcomes_effect heffect, if_neg (List.ne_nil_of_mem hfacts)]
  exact List.mem_map_of_mem hfacts

namespace Prover

variable {p q : Prover} {leaf : NodeId} {inf : Inference} {lex : Lexicon}
  {models : (Sentence → Prop) → Prop}

/-- Some notion of truth of the class agrees with the branch of an open leaf. -/
def IsRealizable (p : Prover) (models : (Sentence → Prop) → Prop) : Prop :=
  ∃ truth, models truth ∧ ∃ leaf ∈ p.openLeaves, (p.tree.branch leaf).IsRealizedBy truth

/-- An inference may be carried out at a leaf: it is pending there, or its rule is
fired. -/
def IsDue (p : Prover) (leaf : NodeId) (inf : Inference) (lex : Lexicon) : Prop :=
  (inf ∈ p.pending ∧ inf.node ∈ p.tree.ancestry leaf) ∨
    ∃ k value, Rule.Fires p.lexicon p.tree leaf k value inf lex

theorem IsDue.exists_value (h : p.IsDue leaf inf lex) (hp : p.Coherent) :
    ∃ value, (p.tree.branch leaf).Gives ⟨inf.origin, value⟩ ∧
      Rule.Yields p.lexicon.sorts inf.origin value inf.effect := by
  rcases h with ⟨hinf, hnode⟩ | ⟨k, value, hfires⟩
  · obtain ⟨value, hvalue, hyields⟩ := (hp.queued inf hinf).exists_value
    exact ⟨value, hp.tree.has_branch_mono hnode hvalue, hyields⟩
  · refine ⟨value, ?_, ?_⟩
    · rw [hfires.origin_eq]
      simpa [Branch.Gives] using Branch.has_of_models hfires.models
    · rw [hfires.origin_eq]
      exact hfires.yields

/-- Whatever realizes a branch gives way to something that realizes an outcome of the
inference as well. -/
def Realizes (p : Prover) (models : (Sentence → Prop) → Prop) (leaf : NodeId) (inf : Inference) :
    Prop :=
  ∀ truth, models truth → (p.tree.branch leaf).IsRealizedBy truth →
    ∃ truth', models truth' ∧ (p.tree.branch leaf).IsRealizedBy truth' ∧
      ∃ outcome ∈ inf.outcomes, ∀ fact ∈ outcome, fact.Agrees truth'

theorem isRealizable_added {k : Key} {value : Bool}
    (hfires : Rule.Fires p.lexicon p.tree leaf k value inf q.lexicon)
    (hsplit : inf.isBranching = false) (htree : p.tree.Adds leaf inf.addition q.tree)
    (hleaf : leaf ∈ q.openLeaves) {truth : Sentence → Prop} (htruth : models truth)
    (hreal : (p.tree.branch leaf).IsRealizedBy truth) (hrule : p.Realizes models leaf inf) :
    q.IsRealizable models := by
  obtain ⟨truth', htruth', hreal', outcome, houtcome, hfacts⟩ := hrule truth htruth hreal
  refine ⟨truth', htruth', leaf, hleaf, fun fact hfact => ?_⟩
  rcases (htree.has leaf fact.key fact.value).mp hfact with hold | ⟨-, hnew⟩
  · exact hreal' fact hold
  · obtain ⟨other, hother, hmem⟩ := Inference.mem_facts_addition.mp hnew
    obtain ⟨only, honly⟩ := hfires.yields.outcomes_of_not_isBranching hsplit
    rw [honly, List.mem_singleton] at houtcome hother
    subst houtcome hother
    exact hfacts fact hmem

theorem Transition.isRealizable (h : Transition p q) (hp : p.Coherent)
    (hrule : ∀ leaf ∈ p.openLeaves, ∀ inf, p.IsDue leaf inf q.lexicon → p.Realizes models leaf inf)
    (hreal : p.IsRealizable models) : q.IsRealizable models := by
  obtain ⟨truth, htruth, leaf, hleaf, hrealized⟩ := hreal
  cases h with
  | noted hlex htree hopen hpending =>
      exact ⟨truth, htruth, leaf, hopen ▸ hleaf, htree ▸ hrealized⟩
  | added leaf₀ k value inf hleaf₀ hfires hsplit htree hopen hpending =>
      by_cases hsame : leaf₀ = leaf
      · subst hsame
        exact isRealizable_added hfires hsplit htree (hopen ▸ hleaf) htruth hrealized
          (hrule leaf₀ hleaf inf (Or.inr ⟨k, value, hfires⟩))
      · refine ⟨truth, htruth, leaf, hopen ▸ hleaf, fun fact hfact => ?_⟩
        rcases (htree.has leaf fact.key fact.value).mp hfact with hold | ⟨hbelow, -⟩
        · exact hrealized fact hold
        · exact absurd (hp.tree.eq_of_childless (hp.childless leaf₀ hleaf₀) hbelow) hsame
  | queued leaf₀ k value inf hleaf₀ hfires hsplit htree hopen hpending =>
      refine ⟨truth, htruth, leaf, hopen ▸ hleaf, fun fact hfact => hrealized fact ?_⟩
      simpa [Branch.Gives] using (htree.has leaf fact.key fact.value).mp hfact
  | closed hlex htree hopen hpending =>
      refine ⟨truth, htruth, leaf, ?_, htree ▸ hrealized⟩
      rw [hopen]
      exact List.mem_filter.mpr ⟨hleaf, hrealized.isConsistent⟩
  | expanded inf created hperm hsub hlex htree hopen =>
      by_cases hbelow : inf.node ∈ p.tree.ancestry leaf
      · have hdue : p.IsDue leaf inf q.lexicon :=
          Or.inl ⟨hperm.mem_iff.mpr List.mem_cons_self, hbelow⟩
        obtain ⟨truth', htruth', hreal', outcome, houtcome, hfacts⟩ :=
          hrule leaf hleaf inf hdue truth htruth hrealized
        have hmem : leaf ∈ p.openBelow inf.node :=
          List.mem_filter.mpr ⟨hleaf, Tree.isDescendant_iff.mpr hbelow⟩
        obtain ⟨m, hm, hnode⟩ := htree.exists_created hmem (List.mem_map_of_mem houtcome)
        refine ⟨truth', htruth', m, hopen ▸ List.mem_append_right _ hm, fun fact hfact => ?_⟩
        rw [(htree.branch_of_node_eq hp.tree (hp.open_lt leaf hleaf) hnode).2] at hfact
        rcases Branch.has_cons.mp hfact with hnew | hold
        · exact hfacts fact (Assignment.has_ofFacts.mp hnew)
        · exact hreal' fact hold
      · refine ⟨truth, htruth, leaf, ?_, ?_⟩
        · rw [hopen]
          refine List.mem_append_left _ (List.mem_filter.mpr ⟨hleaf, ?_⟩)
          rw [Bool.not_eq_true', ← Bool.not_eq_true, Tree.isDescendant_iff]
          exact hbelow
        · rw [htree.branch_of_lt hp.tree (hp.open_lt leaf hleaf)]
          exact hrealized

/-- A state stays realizable along a search. -/
theorem Leads.isRealizable (h : Leads p q) (hp : p.Coherent)
    (hrule : ∀ r r', Leads p r → Transition r r' → ∀ leaf ∈ r.openLeaves, ∀ inf,
      r.IsDue leaf inf r'.lexicon → r.Realizes models leaf inf)
    (hreal : p.IsRealizable models) : q.IsRealizable models := by
  induction h with
  | refl => exact hreal
  | tail hbefore htransition ih =>
      exact htransition.isRealizable (Leads.coherent hbefore hp) (hrule _ _ hbefore htransition) ih

end Prover

/-- A notion of truth refutes an argument: it makes all premises true and, if there are
goals, one of them false. -/
def Refutes (truth : Sentence → Prop) (premises goals : List Sentence) : Prop :=
  (∀ s ∈ premises, truth s) ∧ (goals ≠ [] → ∃ goal ∈ goals, ¬ truth goal)

instance (truth : Sentence → Prop) [DecidablePred truth] (premises goals : List Sentence) :
    Decidable (Refutes truth premises goals) :=
  inferInstanceAs (Decidable (_ ∧ (_ → _)))

/-- The facts that a search begins with are those that a refutation agrees with. -/
theorem IsValuation.agrees_rootFacts {truth : Sentence → Prop} (hv : IsValuation truth)
    {premises goals : List Sentence} :
    (∀ fact ∈ Prover.rootFacts premises goals, fact.Agrees truth) ↔
      Refutes truth premises goals := by
  have hgoals : (∀ goal ∈ Prover.refutand? goals, ¬ truth goal) ↔
      (goals ≠ [] → ∃ goal ∈ goals, ¬ truth goal) := by
    unfold Prover.refutand?
    split
    · simp
    · simp
    · next hnil _ =>
        simp only [Option.mem_def, Option.some.injEq, forall_eq', hv.conj, Classical.not_forall]
        exact ⟨fun ⟨x, hx, hfalse⟩ _ => ⟨x, hx, hfalse⟩,
          fun h => (h hnil).imp fun x ⟨hx, hfalse⟩ => ⟨hx, hfalse⟩⟩
  simp only [Prover.forall_mem_rootFacts, Refutes, ← hgoals, Sentence.valued, Fact.agrees_true,
    Fact.agrees_false, Key.sentence_key, Option.mem_def]

/-- A search may only find an argument valid if nothing in a class of valuations refutes
it, provided that the class can always agree with an outcome of a rule. -/
theorem Prover.not_refutes_of_valid {lexicon : Lexicon} {premises goals : List Sentence}
    {options : Options} {q : Prover} (models : (Sentence → Prop) → Prop)
    (hmodels : ∀ truth, models truth → IsValuation truth)
    (h : (start lexicon premises goals options).MayReturn (q, .ok .valid))
    (hrule : ∀ p q, (start lexicon premises goals options).Leads p → Transition p q →
      ∀ leaf ∈ p.openLeaves, ∀ inf, p.IsDue leaf inf q.lexicon → p.Realizes models leaf inf)
    {truth : Sentence → Prop} (htruth : models truth) : ¬ Refutes truth premises goals := by
  intro hrefutes
  obtain ⟨s, hs, -, hdeserves⟩ := h.deserves
  have hstart : (start lexicon premises goals options).IsRealizable models := by
    refine ⟨truth, htruth, NodeId.root, by simp, fun fact hfact => ?_⟩
    exact (hmodels truth htruth).agrees_rootFacts.mpr hrefutes fact (has_branch_start.mp hfact).2
  obtain ⟨-, -, leaf, hleaf, -⟩ :=
    (hs.leads coherent_start).isRealizable coherent_start hrule hstart
  rw [hdeserves] at hleaf
  simp at hleaf

end Tableau
