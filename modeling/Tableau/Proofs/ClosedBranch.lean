/-
Branches of closed formulas.  What holds of the basic sentences of a complete branch, and
passes from the alternatives of a connective and the instances of a quantifier to the
sentence itself, holds of all sentences that have a value there.  The branches of a search
for closed formulas are of this kind.
-/
import Tableau.Proofs.Formula
import Tableau.Proofs.Hintikka
import Tableau.Proofs.Occurrence

namespace Tableau

/-- An atom, a predicate or an equality. -/
def Sentence.isBasic (s : Sentence) : Bool := s.isAtomic || s.isEquality

namespace Branch

/-- All facts of a branch are closed formulas, and its terms are terms throughout. -/
structure IsWellFormed (branch : Branch) : Prop where
  closed : ∀ fact, branch.Gives fact → fact.sentence.isClosedFormula = true
  terms : ∀ term, branch.Visible term → term.isClosedTerm = true
  parts : ∀ term, branch.Visible term → ∀ x ∈ term.parts, branch.Visible x

section Induction

variable {sorts : Sorts} {branch : Branch} {motive : Sentence → Bool → Prop}
  (basic : ∀ (s : Sentence) value, branch.Gives ⟨s, value⟩ → s.isBasic = true → motive s value)
  (connective : ∀ (s : Sentence) value alternatives facts, s.isBasic = false →
    s.alternatives? value = some alternatives → facts ∈ alternatives →
    (∀ fact ∈ facts, motive fact.sentence fact.value) → motive s value)
  (universal : ∀ (s : Sentence) value binder body, branch.Gives ⟨s, value⟩ →
    IsUniversal s value binder body → binder.isVariable = true →
    (∀ term, branch.Visible term → Rule.Instantiates sorts binder term →
      branch.Gives ⟨body.subst binder term, value⟩ ∧ motive (body.subst binder term) value) →
    (∃ term, branch.Visible term ∧ Rule.Instantiates sorts binder term) → motive s value)
  (existential : ∀ (s : Sentence) value binder body, branch.Gives ⟨s, value⟩ →
    IsExistential s value binder body → binder.isVariable = true →
    (∃ term, Rule.Instantiates sorts binder term ∧
      branch.Gives ⟨body.subst binder term, value⟩ ∧ motive (body.subst binder term) value) →
    motive s value)
include basic connective universal existential

/-- Induction over the sentences that have a value on a complete branch.  It is on the
rank, as instances are not parts. -/
theorem IsHintikka.induction (h : branch.IsHintikka sorts) (hform : branch.IsWellFormed)
    {s : Sentence} {value : Bool} (hgives : branch.Gives ⟨s, value⟩) : motive s value := by
  induction hrank : s.rank using Nat.strongRecOn generalizing s value with
  | ind rank ih =>
      subst hrank
      have hclosed := hform.closed _ hgives
      have hinstance : ∀ {binder body term : Sentence}, binder.isVariable = true →
          body.rank < s.rank → Rule.Instantiates sorts binder term →
          branch.Gives ⟨body.subst binder term, value⟩ → motive (body.subst binder term) value := by
        intro binder body term hbinder hlt hterm hgiven
        have hsame := Sentence.rank_subst (Sentence.isTerm_of_isVariable hbinder)
          (Sentence.isTerm_of_isGroundTerm hterm.ground) body
        exact ih _ (hsame ▸ hlt) hgiven rfl
      have huniversal : ∀ {binder body : Sentence}, IsUniversal s value binder body →
          binder.isVariable = true → body.rank < s.rank → motive s value := by
        intro binder body hs hbinder hlt
        obtain ⟨hall, hsome⟩ := h.gives_instance hs hbinder hgives
        refine universal s value binder body hgives hs hbinder (fun term hvisible hterm => ?_) hsome
        have hgiven := hall term hvisible hterm
        exact ⟨hgiven, hinstance hbinder hlt hterm hgiven⟩
      have hexistential : ∀ {binder body : Sentence}, IsExistential s value binder body →
          binder.isVariable = true → body.rank < s.rank → motive s value := by
        intro binder body hs hbinder hlt
        obtain ⟨term, hterm, hgiven⟩ := h.exists_instance hs hbinder hgives
        exact existential s value binder body hgives hs hbinder
          ⟨term, hterm, hgiven, hinstance hbinder hlt hterm hgiven⟩
      cases s with
      | const | var | app => simp [Sentence.isClosedFormula, Sentence.isFormulaIn] at hclosed
      | atom | pred | equal => exact basic _ value hgives rfl
      | neg | conj | disj | imp | iff =>
          obtain ⟨alternatives, facts, halts, hfacts, hall⟩ :=
            h.exists_alternative hgives rfl rfl (by simp)
          refine connective _ value alternatives facts rfl halts hfacts fun fact hfact => ?_
          obtain ⟨hpart, hgiven⟩ := hall fact hfact
          exact ih _ (Sentence.rank_lt_of_mem_parts rfl rfl (by simp) hpart)
            (by simpa using hgiven) rfl
      | all binder body =>
          obtain ⟨hbinder, -⟩ := Bool.and_eq_true_iff.mp hclosed
          cases value with
          | true => exact huniversal .all hbinder (Nat.lt_succ_self _)
          | false => exact hexistential .all hbinder (Nat.lt_succ_self _)
      | ex binder body =>
          obtain ⟨hbinder, -⟩ := Bool.and_eq_true_iff.mp hclosed
          cases value with
          | true => exact hexistential .ex hbinder (Nat.lt_succ_self _)
          | false => exact huniversal .ex hbinder (Nat.lt_succ_self _)

end Induction

end Branch

/-! The branches of a search. -/

namespace Prover

variable {p q : Prover} {id : NodeId}

/-- A term that a universal sentence has been instantiated for is a constant, or it occurs
on the branch anyway. -/
def InstancesOccur (p : Prover) : Prop :=
  ∀ id k term, term ∈ (p.tree.branch id).instancesOf k → term.isConstant = true ∨
    ∃ fact, (p.tree.branch id).Gives fact ∧ term ∈ fact.sentence.subsentences

theorem Transition.instancesOccur (h : Transition p q) (hp : p.Coherent)
    (hoccur : p.InstancesOccur) :
    q.InstancesOccur := by
  intro id k term hterm
  rcases h.instances_cases hp hterm with
    ⟨id', hold, hkept⟩ | ⟨leaf, -, value, inf, hfires, -, hnew, hkept⟩
  · exact (hoccur id' k term hold).imp_right fun ⟨fact, hfact, hmem⟩ =>
      ⟨fact, hkept fact hfact, hmem⟩
  · rcases hfires.terms term (Inference.mem_terms_of_mem_terms_addition hnew) with
      (⟨k', value', hvalue, hmem, -⟩ | ⟨k', hinst⟩) | ⟨sort, rfl, -⟩
    · exact Or.inr ⟨⟨k', value'⟩, hkept _ (Or.inl hvalue), hmem⟩
    · refine (hoccur leaf k' term hinst).imp_right fun ⟨fact, hfact, hmem⟩ => ?_
      exact ⟨fact, hkept fact (Or.inl hfact), hmem⟩
    · exact Or.inl rfl

theorem Leads.instancesOccur {lexicon : Lexicon} {premises goals : List Sentence}
    {options : Options}
    (h : Leads (start lexicon premises goals options) p) : p.InstancesOccur := by
  refine (h.preserves (P := InstancesOccur) ?_ coherent_start ?_).2
  · exact fun p q hp hoccur htransition => htransition.instancesOccur hp hoccur
  · intro id k term hterm
    rw [instancesOf_branch_start] at hterm
    simp at hterm

/-- The branches of a search for closed formulas are well-formed. -/
theorem isWellFormed_branch (hoccur : p.InstancesOccur)
    (hclosed : p.Inherits (·.isClosedFormula = true) (·.isClosedTerm = true)) :
    (p.tree.branch id).IsWellFormed where
  closed fact hfact := hclosed.has id fact.key fact.value hfact
  terms term hterm := hclosed.visible (Sentence.hereditary_isClosedFormula _) hterm
  parts := by
    intro term hterm x hx
    have hclosedTerm : term.isClosedTerm = true :=
      hclosed.visible (Sentence.hereditary_isClosedFormula _) hterm
    cases term with
    | app name sort xs =>
        have hground :=
          Sentence.isGroundTerm_of_isClosedTerm (Sentence.areTermsIn_iff.mp hclosedTerm x hx)
        have hpart : ∀ {s : Sentence}, .app name sort xs ∈ s.subsentences → x ∈ s.subsentences :=
          fun hmem => Sentence.mem_subsentences_trans hmem
            (Sentence.mem_subsentences_of_part hx (Sentence.self_mem_subsentences x))
        rcases hterm with ⟨k, value, hvalue, hmem, -⟩ | ⟨k, hinst⟩
        · exact Or.inl ⟨k, value, hvalue, hpart hmem, hground⟩
        · obtain ⟨fact, hfact, hmem⟩ :=
            (hoccur id k _ hinst).resolve_left (by simp [Sentence.isConstant])
          exact Or.inl ⟨fact.key, fact.value, hfact, hpart hmem, hground⟩
    | const => simp [Sentence.parts] at hx
    | _ => simp [Sentence.isClosedTerm, Sentence.isTermIn] at hclosedTerm

end Prover

end Tableau
