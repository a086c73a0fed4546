/-
The term model of a complete branch.  Its elements are terms: those of the branch denote
themselves, and what the branch says is true.  A sort without terms on the branch borrows
those of its nearest supersort that has some, so that no sort is empty.  So a search only
finds invalid what some structure refutes.
-/
import Tableau.Proofs.ClosedBranch
import Tableau.Proofs.FirstOrder

namespace Tableau

namespace Branch

variable (sorts : Sorts) (branch : Branch)

/-- A term of the branch, of the given sort or one below. -/
def Inhabits (term : Sentence) (sort : SortId) : Prop :=
  branch.Visible term ∧ ∃ own, term.sort? = some own ∧ sorts.isSubsort own sort = true

/-- What belongs to a sort: whatever inhabits those of its supersorts that are
inhabited at all. -/
def termDomain (sort : SortId) : Set Sentence :=
  { term | ∀ sup ∈ sorts.ancestors sort, (∃ other, branch.Inhabits sorts other sup) →
      branch.Inhabits sorts term sup }

variable {sorts branch} {term : Sentence} {sort sub sup : SortId}

theorem isSubsort_iff : sorts.isSubsort sub sup = true ↔ sup ∈ sorts.ancestors sub := by
  simp [Sorts.isSubsort]

theorem Inhabits.mono (hsorts : Ancestral sorts.lineage) (h : branch.Inhabits sorts term sub)
    (hsup : sup ∈ sorts.ancestors sub) : branch.Inhabits sorts term sup := by
  obtain ⟨hvisible, own, hown, hsub⟩ := h
  exact ⟨hvisible, own, hown, isSubsort_iff.mpr (hsorts.mem_trans (isSubsort_iff.mp hsub) hsup)⟩

theorem Inhabits.mem_termDomain (hsorts : Ancestral sorts.lineage)
    (h : branch.Inhabits sorts term sort) : term ∈ branch.termDomain sorts sort :=
  fun _ hsup _ => h.mono hsorts hsup

theorem termDomain_mono (hsorts : Ancestral sorts.lineage) (h : sorts.isSubsort sub sup = true) :
    branch.termDomain sorts sub ⊆ branch.termDomain sorts sup :=
  fun _ hterm above habove => hterm above (hsorts.mem_trans (isSubsort_iff.mp h) habove)

/-- No sort is empty: one without terms borrows from its parent. -/
theorem termDomain_nonempty (hsorts : Ancestral sorts.lineage) (sort : SortId) :
    (branch.termDomain sorts sort).Nonempty := by
  induction sort using Nat.strongRecOn with
  | ind sort ih =>
      by_cases hinhabited : ∃ term, branch.Inhabits sorts term sort
      · obtain ⟨term, hterm⟩ := hinhabited
        exact ⟨term, hterm.mem_termDomain hsorts⟩
      · rcases hsorts sort with hnil | ⟨parent, hlt, hcons⟩
        · refine ⟨default, fun sup hsup hsome => ?_⟩
          obtain rfl : sup = sort := by simpa [Sorts.ancestors, hnil] using hsup
          exact absurd hsome hinhabited
        · obtain ⟨term, hterm⟩ := ih parent hlt
          refine ⟨term, fun sup hsup hsome => ?_⟩
          rw [Sorts.ancestors, hcons] at hsup
          rcases List.mem_cons.mp hsup with rfl | hsup
          · exact absurd hsome hinhabited
          · exact hterm sup hsup hsome

open Classical in
/-- A term of the branch stands for itself, any other for something of its sort. -/
noncomputable def meaning (hsorts : Ancestral sorts.lineage) (branch : Branch) (term : Sentence)
    (sort : SortId) : Sentence :=
  if branch.Visible term then term else (branch.termDomain_nonempty hsorts sort).some

theorem meaning_of_visible (hsorts : Ancestral sorts.lineage) (h : branch.Visible term) :
    branch.meaning hsorts term sort = term :=
  if_pos h

theorem meaning_mem (hsorts : Ancestral sorts.lineage) (hsort : term.sort? = some sort) :
    branch.meaning hsorts term sort ∈ branch.termDomain sorts sort := by
  by_cases hvisible : branch.Visible term
  · have hself : sorts.isSubsort sort sort = true := isSubsort_iff.mpr List.mem_cons_self
    rw [meaning_of_visible hsorts hvisible]
    exact Inhabits.mem_termDomain hsorts ⟨hvisible, sort, hsort, hself⟩
  · rw [meaning, if_neg hvisible]
    exact Set.Nonempty.some_mem _

/-- The structure that the terms of a branch make up. -/
noncomputable def termModel (hsorts : Ancestral sorts.lineage) (branch : Branch) :
    Structure sorts Sentence where
  domain := branch.termDomain sorts
  domain_nonempty := branch.termDomain_nonempty hsorts
  domain_mono _ _ := termDomain_mono hsorts
  const name sort := branch.meaning hsorts (.const name sort) sort
  const_mem _ _ := meaning_mem hsorts rfl
  func name sort args := branch.meaning hsorts (.app name sort args) sort
  func_mem _ _ _ := meaning_mem hsorts rfl
  atom name := branch.Gives ⟨Sentence.atom name, true⟩
  pred name args := branch.Gives ⟨Sentence.pred name args, true⟩
  equal args := allEqual args = true ∨ branch.Gives ⟨Sentence.equal args, true⟩
  equal_of_same _ hsame := Or.inl (allEqual_iff.mpr hsame)

/-- A branch that asserts no equality takes it for sameness. -/
theorem isNormal_termModel {hsorts : Ancestral sorts.lineage}
    (h : ∀ args, ¬ branch.Gives ⟨Sentence.equal args, true⟩) : (branch.termModel hsorts).IsNormal :=
  fun args hequal => allEqual_iff.mp (hequal.resolve_right (h args))

section Truth

variable {hsorts : Ancestral sorts.lineage} {env : Sentence → Sentence}

/-- The terms of the branch denote themselves. -/
theorem value_termModel (hform : branch.IsWellFormed) (hterm : branch.Visible term) :
    (branch.termModel hsorts).value env term = term := by
  induction term using Sentence.partsInduction with
  | step term ih =>
      have hclosed := hform.terms term hterm
      cases term with
      | const name sort => exact meaning_of_visible hsorts hterm
      | app name sort xs =>
          have hvalues : xs.map ((branch.termModel hsorts).value env) = xs := by
            conv_rhs => rw [← List.map_id xs]
            exact List.map_congr_left fun x hx => ih x hx (hform.parts _ hterm x hx)
          simp only [Structure.value, Structure.values_eq_map, hvalues]
          exact meaning_of_visible hsorts hterm
      | _ => simp [Sentence.isClosedTerm, Sentence.isTermIn] at hclosed

/-- So do the arguments in a fact. -/
theorem map_value_termModel (hform : branch.IsWellFormed) {s : Sentence} {value : Bool}
    (hgives : branch.Gives ⟨s, value⟩) (hterms : ∀ x ∈ s.parts, x.isClosedTerm = true) :
    s.parts.map ((branch.termModel hsorts).value env) = s.parts := by
  conv_rhs => rw [← List.map_id s.parts]
  refine List.map_congr_left fun x hx => value_termModel hform (Or.inl ⟨s, value, hgives, ?_, ?_⟩)
  · exact Sentence.mem_subsentences_of_part hx (Sentence.self_mem_subsentences x)
  · exact Sentence.isGroundTerm_of_isClosedTerm (hterms x hx)

variable {binder body : Sentence} {value : Bool}

/-- If a quantifier can be instantiated at all on the branch, its variable ranges over the
terms of the branch that it can be instantiated for. -/
theorem instantiates_of_mem_range (hform : branch.IsWellFormed)
    (hsome : ∃ other, branch.Visible other ∧ Rule.Instantiates sorts binder other)
    (hterm : term ∈ (branch.termModel hsorts).range binder) :
    branch.Visible term ∧ Rule.Instantiates sorts binder term := by
  obtain ⟨other, hvisible, -, bound, own, hbound, hown, hcompatible⟩ := hsome
  have hterm : term ∈ branch.termDomain sorts bound := by
    rw [Structure.range, hbound] at hterm
    exact hterm
  obtain ⟨hvisible', own', hown', hsub⟩ :=
    hterm bound List.mem_cons_self ⟨other, hvisible, own, hown, hcompatible⟩
  exact ⟨hvisible', Sentence.isGroundTerm_of_isClosedTerm (hform.terms term hvisible'),
    bound, own', hbound, hown', hsub⟩

theorem agrees_of_forall_instance {s : Sentence} (hs : IsUniversal s value binder body)
    (h : ∀ a ∈ (branch.termModel hsorts).range binder,
      ((branch.termModel hsorts).holds (Function.update env binder a) body ↔ value = true)) :
    (Fact.mk s value).Agrees ((branch.termModel hsorts).holds env) := by
  cases hs <;> simpa [Structure.holds] using h

theorem agrees_of_exists_instance {s : Sentence} (hs : IsExistential s value binder body)
    (h : ∃ a ∈ (branch.termModel hsorts).range binder,
      ((branch.termModel hsorts).holds (Function.update env binder a) body ↔ value = true)) :
    (Fact.mk s value).Agrees ((branch.termModel hsorts).holds env) := by
  cases hs <;> simpa [Structure.holds] using h

theorem IsHintikka.agrees_basic (h : branch.IsHintikka sorts) (hform : branch.IsWellFormed)
    {s : Sentence} (hgives : branch.Gives ⟨s, value⟩) (hbasic : s.isBasic = true) :
    (Fact.mk s value).Agrees ((branch.termModel hsorts).holds env) := by
  have hclosed := hform.closed _ hgives
  refine h.agrees_of_iff_gives hgives ?_
  cases s with
  | atom name => exact Iff.rfl
  | pred name xs =>
      have hvalues : xs.map ((branch.termModel hsorts).value env) = xs :=
        map_value_termModel hform hgives (Sentence.areTermsIn_iff.mp hclosed)
      simp only [Structure.holds, Structure.values_eq_map, hvalues]
      exact Iff.rfl
  | equal xs =>
      have hvalues : xs.map ((branch.termModel hsorts).value env) = xs :=
        map_value_termModel hform hgives (Sentence.areTermsIn_iff.mp hclosed)
      simp only [Structure.holds, Structure.values_eq_map, hvalues]
      exact or_iff_right_of_imp (h.gives_equal hgives)
  | _ => simp [Sentence.isBasic, Sentence.isAtomic, Sentence.isEquality] at hbasic

/-- What a complete branch says is true in its term model. -/
theorem IsHintikka.agrees_termModel (h : branch.IsHintikka sorts) (hform : branch.IsWellFormed)
    {s : Sentence} (hgives : branch.Gives ⟨s, value⟩) :
    (Fact.mk s value).Agrees ((branch.termModel hsorts).holds env) := by
  refine h.induction (motive := fun s value =>
    (Fact.mk s value).Agrees ((branch.termModel hsorts).holds env))
    ?basic ?connective ?universal ?existential hform hgives
  case basic => exact fun s value hgiven hbasic => h.agrees_basic hform hgiven hbasic
  case connective =>
    intro s value alternatives facts hbasic halts hfacts hall
    refine Structure.isValuation_holds.agrees_of_alternative halts ?_ hfacts (by simpa using hall)
    rintro xs rfl
    simp [Sentence.isBasic, Sentence.isEquality] at hbasic
  case universal =>
    intro s value binder body _ hs hbinder hall hsome
    refine agrees_of_forall_instance hs fun a ha => ?_
    obtain ⟨hvisible, hterm⟩ := instantiates_of_mem_range hform hsome ha
    have hinstance : (branch.termModel hsorts).holds env (body.subst binder a) ↔ value = true :=
      (hall a hvisible hterm).2
    rwa [Structure.holds_subst hbinder hterm.ground, value_termModel hform hvisible] at hinstance
  case existential =>
    rintro s value binder body _ hs hbinder ⟨term, hterm, -, hinstance⟩
    refine agrees_of_exists_instance hs
      ⟨(branch.termModel hsorts).value env term, Structure.value_mem_range hterm, ?_⟩
    exact (Structure.holds_subst hbinder hterm.ground body env).symm.trans hinstance

end Truth

end Branch

namespace Problem

variable {lexicon lexicon' : Lexicon} {text : String} {problem : Problem} {options : Options}
  {q : Prover}

/-- A problem that has been read is only found invalid if some structure makes all premises
true and, if there are goals, one of them false.  In this structure equality is a
reflexive relation, and sameness if the problem is without equality. -/
theorem exists_refutes_of_read_of_invalid (hlexicon : lexicon.IsBuilt)
    (hread : read lexicon text = (.ok problem, lexicon'))
    (hinvalid : (Prover.start lexicon' problem.premises problem.goals options).MayReturn
      (q, .ok .invalid)) :
    ∃ (U : Type) (M : Structure lexicon'.sorts U),
      (∀ env, Refutes (M.holds env) problem.premises problem.goals) ∧
        ((∀ s ∈ problem.premises ++ problem.goals, s.lacks Sentence.isEquality = true) →
          M.IsNormal) := by
  obtain ⟨s, hs, -, hdeserves⟩ := hinvalid.deserves
  obtain ⟨leaf, hleaf, hcomplete⟩ := List.any_eq_true.mp hdeserves
  have hleads := hs.leads Prover.coherent_start
  obtain ⟨hsame, -, -, hclosed⟩ := inherits_isClosedFormula hlexicon hread hleads
  have hhintikka := Prover.isHintikka_of_isComplete hs.coherent hs.isAccountable hleaf hcomplete
  rw [hsame] at hhintikka
  have hform : (s.prover.tree.branch leaf).IsWellFormed :=
    Prover.isWellFormed_branch hleads.instancesOccur hclosed
  have hsorts : Ancestral lexicon'.sorts.lineage :=
    (isSound_of_read hlexicon.isSound hread).hierarchy.ancestral
  refine ⟨Sentence, (s.prover.tree.branch leaf).termModel hsorts, fun env => ?_, fun hfree => ?_⟩
  · apply Structure.isValuation_holds.agrees_rootFacts.mp
    intro fact hfact
    have hgives := hs.gives_of_mem_rootFacts hfact (hs.coherent.open_lt leaf hleaf)
    have hagrees : (Fact.mk fact.sentence fact.value).Agrees
        (((s.prover.tree.branch leaf).termModel hsorts).holds env) :=
      hhintikka.agrees_termModel hform (by simpa using hgives)
    simpa using hagrees
  · refine Branch.isNormal_termModel fun args hequal => ?_
    have hroot := Prover.lacks_of_mem_rootFacts (by simp [Sentence.isEquality]) hfree
    obtain ⟨-, hinherits⟩ :=
      Prover.Leads.inherits hleads (Sentence.hereditary_lacks_isEquality _) hroot
    obtain ⟨hself, -⟩ := Sentence.lacks_iff_parts.mp (hinherits.has leaf _ _ hequal)
    simp [Sentence.isEquality] at hself

/-- A text that asserts something of an object and asks for it in a sort below. -/
def subsortText : String :=
  "(declarations (sort S) (constant a S) (function f (S) S))
  (premises (exists x (P x)) (P (f a))) (goals (P a) (forall (y S) (P y)))"

theorem exists_refutes_of_read_of_invalid_subsort :
    ∃ problem lexicon', read {} subsortText = (.ok problem, lexicon') ∧
      ∃ (U : Type) (M : Structure lexicon'.sorts U), M.IsNormal ∧
        ∀ env, Refutes (M.holds env) problem.premises problem.goals := by
  obtain ⟨problem, lexicon', hread, q, hinvalid⟩ :=
    exists_mayReturn_of_toOption {} subsortText {} 40 .invalid (by decide +kernel)
  have hfree : ((read {} subsortText).1.toOption.all fun problem =>
      (problem.premises ++ problem.goals).all (·.lacks Sentence.isEquality)) =
        true := by decide +kernel
  rw [hread] at hfree
  obtain ⟨U, M, hrefutes, hnormal⟩ := exists_refutes_of_read_of_invalid .empty hread hinvalid
  exact ⟨problem, lexicon', hread, U, M, hnormal (List.all_eq_true.mp hfree), hrefutes⟩

end Problem

end Tableau
