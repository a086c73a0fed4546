/-
First-order soundness.  A structure in which all facts of a branch are true gives way to
one in which an outcome of a rule is true as well.  Only an existential sentence calls for
another structure: its fresh constant gets a value that makes the body true, and no
sentence of the branch can tell the difference.
-/
import Tableau.Proofs.Intake
import Tableau.Proofs.Search.Freshness
import Tableau.Proofs.Soundness
import Tableau.Proofs.Structure

namespace Tableau

universe u

namespace Structure

variable {sorts : Sorts} {U : Type u} {M : Structure sorts U} {env : Sentence → U}
  {binder body term : Sentence}

/-- The variable of a quantifier ranges over the values of the terms that it may be
instantiated for. -/
theorem value_mem_range (h : Rule.Instantiates sorts binder term) :
    M.value env term ∈ M.range binder := by
  obtain ⟨bound, sort, hbound, hsort, hcompatible⟩ := h.sorted
  have hmem : M.value env term ∈ M.domain sort := value_mem_domain h.ground hsort
  simpa [range, hbound] using M.domain_mono sort bound hcompatible hmem

theorem holds_instance (hbinder : binder.isVariable = true) (h : M.holds env (.all binder body))
    (hterm : Rule.Instantiates sorts binder term) : M.holds env (body.subst binder term) :=
  (holds_subst hbinder hterm.ground body env).mpr (h _ (value_mem_range hterm))

/-- A false universal sentence is a true existential one. -/
theorem holds_dualAll (h : ¬ M.holds env (.all binder body)) :
    M.holds env (.ex binder (.neg body)) := by
  simpa [holds] using h

/-- A false existential sentence is a true universal one. -/
theorem holds_dualEx (h : ¬ M.holds env (.ex binder body)) :
    M.holds env (.all binder (.neg body)) := by
  simpa [holds] using h

end Structure

namespace Prover

variable {U : Type u} {sorts : Sorts} {env : Sentence → U} {p : Prover} {leaf : NodeId}
  {inf : Inference} {lex : Lexicon}

/-- Truth in some structure, with given values for the variables. -/
def IsTruth (sorts : Sorts) (env : Sentence → U) (truth : Sentence → Prop) : Prop :=
  ∃ M : Structure sorts U, truth = M.holds env

/-- The constant that an inference brings in does not occur in the tree before. -/
theorem IsDue.avoids (h : p.IsDue leaf inf lex) (hentered : p.IsEntered) (hfresh : p.IsFresh)
    {name : String} (hname : inf.freshName? = some name) : p.Avoids name := by
  rcases h with ⟨hinf, -⟩ | ⟨k, value, hfires⟩
  · exact hfresh.tree inf hinf name hname
  · exact hentered.avoids (hfires.fresh hentered.isThorough.hasNames name hname)

/-- A fresh constant may witness an existential sentence. -/
theorem exists_witness_structure {M : Structure sorts U} {binder body : Sentence} {name : String}
    {sort : SortId} (hreal : (p.tree.branch leaf).IsRealizedBy (M.holds env))
    (hgives : (p.tree.branch leaf).Gives ⟨Sentence.ex binder body, true⟩)
    (hbinder : binder.isVariable = true) (hsort : binder.sort? = some sort)
    (havoids : p.Avoids name) :
    ∃ M' : Structure sorts U, (p.tree.branch leaf).IsRealizedBy (M'.holds env) ∧
      M'.holds env (body.subst binder (.const name sort)) := by
  have hunmentioned : ∀ fact, (p.tree.branch leaf).Gives fact →
      .const name sort ∉ fact.sentence.subsentences :=
    fun fact hfact hmem => havoids.has leaf fact.key fact.value hfact ⟨sort, hmem⟩
  have hex : M.holds env (.ex binder body) := by simpa using hreal _ hgives
  obtain ⟨a, ha, hbody⟩ := hex
  have ha : a ∈ M.domain sort := by simpa [Structure.range, hsort] using ha
  refine ⟨M.setConst name sort a ha, fun fact hfact => ?_, ?_⟩
  · have hagrees := hreal fact hfact
    unfold Fact.Agrees at hagrees ⊢
    rwa [M.holds_setConst ha (hunmentioned fact hfact)]
  · have hfresh : .const name sort ∉ body.subsentences := fun hmem =>
      hunmentioned _ hgives (Sentence.mem_subsentences_of_part (by simp [Sentence.parts]) hmem)
    rw [Structure.holds_subst hbinder rfl, Structure.value_setConst_self,
      M.holds_setConst ha hfresh]
    exact hbody

/-- Some structure that realizes a branch realizes an outcome of the inference that is due
on it. -/
theorem realizes_isTruth (hp : p.Coherent) (hentered : p.IsEntered) (hfresh : p.IsFresh)
    (hclosed : p.Inherits (·.isClosedFormula = true) (·.isClosedTerm = true))
    (hsorts : p.lexicon.sorts = sorts) (hdue : p.IsDue leaf inf lex) :
    p.Realizes (IsTruth sorts env) leaf inf := by
  rintro truth ⟨M, rfl⟩ hreal
  obtain ⟨value, hgives, hyields⟩ := hdue.exists_value hp
  have hagrees := hreal _ hgives
  have hformula := hclosed.has leaf inf.origin value hgives
  rw [hsorts] at hyields
  cases hquantifier : inf.origin.isQuantifier with
  | false =>
      exact ⟨_, ⟨M, rfl⟩, hreal,
        Structure.isValuation_holds.exists_outcome hyields hquantifier hagrees⟩
  | true =>
      generalize heffect : inf.effect = eff at hyields
      generalize inf.origin = s at *
      cases hyields with
      | connective lex halts =>
          cases s <;> simp [Sentence.isQuantifier, Sentence.alternatives?] at hquantifier halts
      | @dualAll binder body lex =>
          have hex := Structure.holds_dualAll (by simpa using hagrees)
          refine ⟨_, ⟨M, rfl⟩, hreal, lex.arrange [⟨Sentence.ex binder (.neg body), true⟩], ?_, ?_⟩
          · simp [Inference.outcomes, heffect]
          · simpa using hex
      | @dualEx binder body lex =>
          have hall := Structure.holds_dualEx (by simpa using hagrees)
          refine ⟨_, ⟨M, rfl⟩, hreal, lex.arrange [⟨Sentence.all binder (.neg body), true⟩], ?_, ?_⟩
          · simp [Inference.outcomes, heffect]
          · simpa using hall
      | @universal binder body terms lex hne hterms =>
          obtain ⟨hbinder, -⟩ := Bool.and_eq_true_iff.mp hformula
          have hall : M.holds env (.all binder body) := by simpa using hagrees
          refine ⟨_, ⟨M, rfl⟩, hreal,
            lex.arrange (terms.map fun term => (body.subst binder term).valued true), ?_, ?_⟩
          · simp [Inference.outcomes, heffect]
          · intro fact hfact
            obtain ⟨term, hterm, rfl⟩ := List.mem_map.mp (Lexicon.mem_arrange.mp hfact)
            simpa [Sentence.valued] using Structure.holds_instance hbinder hall (hterms term hterm)
      | @existential binder body terms name sort lex hsort hlast hterms =>
          obtain ⟨hbinder, -⟩ := Bool.and_eq_true_iff.mp hformula
          have hname : inf.freshName? = some name := by
            simp [Inference.freshName?, heffect, hlast, Sentence.constantName?]
          obtain ⟨M', hreal', hinstance⟩ := exists_witness_structure hreal hgives hbinder hsort
            (hdue.avoids hentered hfresh hname)
          refine ⟨_, ⟨M', rfl⟩, hreal',
            lex.arrange [(body.subst binder (.const name sort)).valued true], ?_, ?_⟩
          · simp only [Inference.outcomes, heffect]
            exact List.mem_map_of_mem (List.mem_of_getLast? hlast)
          · simpa [Sentence.valued] using hinstance

end Prover

namespace Problem

variable {lexicon lexicon' : Lexicon} {text : String} {problem : Problem} {options : Options}
  {p q : Prover}

/-- The search for a problem that has been read begins with closed formulas. -/
theorem isClosedFormula_of_mem_rootFacts (hread : read lexicon text = (.ok problem, lexicon')) :
    ∀ fact ∈ Prover.rootFacts problem.premises problem.goals,
      fact.sentence.isClosedFormula = true := by
  have hproblem := isEnteredProblem_of_read hread
  exact Prover.of_mem_rootFacts (fun s hs => (hproblem s (List.mem_append_left _ hs)).1)
    (fun s hs => (hproblem s (List.mem_append_right _ hs)).1)
    fun _ hxs => Sentence.areFormulasIn_iff.mpr hxs

/-- All along the search for a problem that has been read, sentences are closed formulas of
the lexicon, and constants that are still to be brought in are fresh. -/
theorem inherits_isClosedFormula (hlexicon : lexicon.IsBuilt)
    (hread : read lexicon text = (.ok problem, lexicon'))
    (hp : (Prover.start lexicon' problem.premises problem.goals options).Leads p) :
    p.lexicon.sorts = lexicon'.sorts ∧ p.IsEntered ∧ p.IsFresh ∧
      p.Inherits (·.isClosedFormula = true) (·.isClosedTerm = true) := by
  have hproblem := isEnteredProblem_of_read hread
  have hsound := isSound_of_read hlexicon.isSound hread
  have hroot := isClosedFormula_of_mem_rootFacts hread
  obtain ⟨hsorts, hclosed⟩ :=
    Prover.Leads.inherits hp (Sentence.hereditary_isClosedFormula _) hroot
  obtain ⟨hentered, hfresh⟩ := Prover.Leads.isFresh hp hsound.isThorough
    fun s hs => (hproblem s (List.mem_append_left _ hs)).2
  exact ⟨hsorts, hentered, hfresh, hclosed⟩

/-- A problem that has been read may only be found valid if no structure, whatever the
values of variables, makes all premises true and, if there are goals, one of them false. -/
theorem not_refutes_of_read_of_valid (hlexicon : lexicon.IsBuilt)
    (hread : read lexicon text = (.ok problem, lexicon'))
    (hvalid : (Prover.start lexicon' problem.premises problem.goals options).MayReturn
      (q, .ok .valid))
    {U : Type u} (M : Structure lexicon'.sorts U) (env : Sentence → U) :
    ¬ Refutes (M.holds env) problem.premises problem.goals := by
  apply Prover.not_refutes_of_valid (Prover.IsTruth lexicon'.sorts env) _ hvalid _ ⟨M, rfl⟩
  · rintro truth ⟨M', rfl⟩
    exact Structure.isValuation_holds
  · intro p q hp htransition leaf hleaf inf hdue
    obtain ⟨hsorts, hentered, hfresh, hclosed⟩ := inherits_isClosedFormula hlexicon hread hp
    exact Prover.realizes_isTruth (Prover.Leads.coherent hp Prover.coherent_start) hentered hfresh
      hclosed hsorts hdue

/-- A text that asserts something of a sort and asks for it in the supersort. -/
def supersortText : String :=
  "(declarations (sort S) (constant a S) (function f (S) S))
  (premises (exists (x S) (Q x))) (goals (exists y (Q y)) (= (f a) (f a)))"

theorem not_refutes_of_read_of_valid_supersort :
    ∃ problem lexicon', read {} supersortText = (.ok problem, lexicon') ∧
      ∀ (M : Structure lexicon'.sorts Nat) (env : Sentence → Nat),
        ¬ Refutes (M.holds env) problem.premises problem.goals := by
  obtain ⟨problem, lexicon', hread, q, hvalid⟩ :=
    exists_mayReturn_of_toOption {} supersortText {} 40 .valid (by decide +kernel)
  exact ⟨problem, lexicon', hread, not_refutes_of_read_of_valid .empty hread hvalid⟩

end Problem

end Tableau
