/-
Well-formed sentences.  In a formula, predicates and functions are applied to terms,
quantifiers bind variables, and every variable is in scope.  The rules lead from closed
formulas to closed formulas, and the ground terms inside them are terms throughout.
-/
import Tableau.Proofs.Search.Heredity

namespace Tableau.Sentence

mutual

/-- A term with all its variables in scope. -/
def isTermIn (scope : List Sentence) : Sentence → Bool
  | s@(var ..) => scope.contains s
  | const .. => true
  | app _ _ xs => areTermsIn scope xs
  | atom _ | pred .. | neg _ | conj _ | disj _ | imp .. | iff .. | equal _ | all .. | ex .. => false
termination_by structural s => s

def areTermsIn (scope : List Sentence) : List Sentence → Bool
  | [] => true
  | x :: xs => isTermIn scope x && areTermsIn scope xs
termination_by structural xs => xs

end

mutual

/-- A formula with all its free variables in scope. -/
def isFormulaIn (scope : List Sentence) (s : Sentence) : Bool :=
  match s with
  | atom _ => true
  | pred _ xs | equal xs => areTermsIn scope xs
  | neg x => isFormulaIn scope x
  | conj xs | disj xs => areFormulasIn scope xs
  | imp l r | iff l r => isFormulaIn scope l && isFormulaIn scope r
  | all v x | ex v x => v.isVariable && isFormulaIn (v :: scope) x
  | const .. | var .. | app .. => false
termination_by structural s

def areFormulasIn (scope : List Sentence) (xs : List Sentence) : Bool :=
  match xs with
  | [] => true
  | x :: xs => isFormulaIn scope x && areFormulasIn scope xs
termination_by structural xs

end

/-- A formula without free variables. -/
def isClosedFormula (s : Sentence) : Bool := s.isFormulaIn []

/-- A term without variables. -/
def isClosedTerm (s : Sentence) : Bool := s.isTermIn []

variable {scope scope' : List Sentence} {s target term : Sentence}

section Lists

attribute [local simp] isTermIn areTermsIn isFormulaIn areFormulasIn

theorem areTermsIn_iff {xs : List Sentence} :
    areTermsIn scope xs = true ↔ ∀ x ∈ xs, x.isTermIn scope = true := by
  induction xs with
  | nil => simp
  | cons x xs ih => simp [ih]

theorem areFormulasIn_iff {xs : List Sentence} :
    areFormulasIn scope xs = true ↔ ∀ x ∈ xs, x.isFormulaIn scope = true := by
  induction xs with
  | nil => simp
  | cons x xs ih => simp [ih]

end Lists

theorem isTermIn_mono (h : s.isTermIn scope = true) (hscope : scope ⊆ scope') :
    s.isTermIn scope' = true := by
  induction s using partsInduction with
  | step s ih =>
      cases s with
      | const => rfl
      | var name sort =>
          simp only [isTermIn, List.contains_iff_mem] at h ⊢
          exact hscope h
      | app name sort xs =>
          have hxs := areTermsIn_iff.mp h
          exact areTermsIn_iff.mpr fun x hx => ih x hx (hxs x hx)
      | _ => simp [isTermIn] at h

theorem isFormulaIn_mono (h : s.isFormulaIn scope = true) (hscope : scope ⊆ scope') :
    s.isFormulaIn scope' = true := by
  induction s using partsInduction generalizing scope scope' with
  | step s ih =>
      cases s with
      | atom => rfl
      | pred name xs | equal xs =>
          have hxs := areTermsIn_iff.mp h
          exact areTermsIn_iff.mpr fun x hx => isTermIn_mono (hxs x hx) hscope
      | neg x => exact ih x (by simp [parts]) h hscope
      | conj xs | disj xs =>
          have hxs := areFormulasIn_iff.mp h
          exact areFormulasIn_iff.mpr fun x hx => ih x hx (hxs x hx) hscope
      | imp l r | iff l r =>
          simp only [isFormulaIn, Bool.and_eq_true] at h ⊢
          exact ⟨ih l (by simp [parts]) h.1 hscope, ih r (by simp [parts]) h.2 hscope⟩
      | all v x | ex v x =>
          simp only [isFormulaIn, Bool.and_eq_true] at h ⊢
          exact ⟨h.1, ih x (by simp [parts]) h.2 (List.cons_subset_cons v hscope)⟩
      | const | var | app => simp [isFormulaIn] at h

/-! A closed term may be put for a variable, which then goes out of scope. -/

section Subst

variable (hscope : ∀ v ∈ scope, v = target ∨ v ∈ scope') (hterm : term.isClosedTerm = true)
include hscope hterm

theorem isTermIn_subst (h : s.isTermIn scope = true) :
    (s.subst target term).isTermIn scope' = true := by
  induction s using partsInduction with
  | step s ih =>
      by_cases hs : s = target
      · rw [hs, subst_self]
        exact isTermIn_mono hterm (List.nil_subset _)
      · cases s with
        | const => simp [subst, hs, isTermIn]
        | var name sort =>
            simp only [isTermIn, List.contains_iff_mem] at h
            have hmem := (hscope _ h).resolve_left hs
            simpa [subst, hs, isTermIn] using hmem
        | app name sort xs =>
            have hxs := areTermsIn_iff.mp h
            simp only [subst, hs, if_false, isTermIn, substAll_eq_map, areTermsIn_iff,
              List.forall_mem_map]
            exact fun x hx => ih x hx (hxs x hx)
        | _ => simp [isTermIn] at h

theorem isFormulaIn_subst (htarget : target.isVariable = true) (h : s.isFormulaIn scope = true) :
    (s.subst target term).isFormulaIn scope' = true := by
  induction s using partsInduction generalizing scope scope' with
  | step s ih =>
      have hs : s ≠ target := by
        rintro rfl
        cases s <;> simp_all [isVariable, isFormulaIn]
      cases s with
      | atom => simp [subst, hs, isFormulaIn]
      | pred name xs | equal xs =>
          have hxs := areTermsIn_iff.mp h
          simp only [subst, hs, if_false, isFormulaIn, substAll_eq_map, areTermsIn_iff,
            List.forall_mem_map]
          exact fun x hx => isTermIn_subst hscope hterm (hxs x hx)
      | neg x =>
          simp only [subst, hs, if_false, isFormulaIn]
          exact ih x (by simp [parts]) hscope h
      | conj xs | disj xs =>
          have hxs := areFormulasIn_iff.mp h
          simp only [subst, hs, if_false, isFormulaIn, substAll_eq_map, areFormulasIn_iff,
            List.forall_mem_map]
          exact fun x hx => ih x hx hscope (hxs x hx)
      | imp l r | iff l r =>
          simp only [isFormulaIn, Bool.and_eq_true] at h
          simp only [subst, hs, if_false, isFormulaIn, Bool.and_eq_true]
          exact ⟨ih l (by simp [parts]) hscope h.1, ih r (by simp [parts]) hscope h.2⟩
      | all v x | ex v x =>
          simp only [isFormulaIn, Bool.and_eq_true] at h
          simp only [subst, hs, if_false, isFormulaIn, Bool.and_eq_true]
          refine ⟨h.1, ?_⟩
          split
          · next hv =>
              refine isFormulaIn_mono h.2 (List.cons_subset.mpr ⟨List.mem_cons_self, ?_⟩)
              intro w hw
              rcases hscope w hw with rfl | hmem
              · exact hv ▸ List.mem_cons_self
              · exact List.mem_cons_of_mem v hmem
          · refine ih x (by simp [parts]) ?_ h.2
            intro w hw
            rcases List.mem_cons.mp hw with rfl | hw
            · exact Or.inr List.mem_cons_self
            · exact (hscope w hw).imp_right (List.mem_cons_of_mem v)
      | const | var | app => simp [isFormulaIn] at h

end Subst

/-! Ground terms inside well-formed sentences. -/

theorem isGround_of_isClosedTerm (h : s.isClosedTerm = true) : s.isGround = true := by
  induction s using partsInduction with
  | step s ih =>
      cases s with
      | const => rfl
      | var => simp [isClosedTerm, isTermIn] at h
      | app name sort xs =>
          have hxs := areTermsIn_iff.mp h
          exact areGround_iff.mpr fun x hx => ih x hx (hxs x hx)
      | _ => simp [isClosedTerm, isTermIn] at h

theorem isGroundTerm_of_isClosedTerm (h : s.isClosedTerm = true) : s.isGroundTerm = true := by
  have hground := isGround_of_isClosedTerm h
  cases s with
  | const => rfl
  | app => exact hground
  | _ => simp [isClosedTerm, isTermIn] at h

theorem isClosedTerm_of_isGround (h : s.isTermIn scope = true) (hground : s.isGround = true) :
    s.isClosedTerm = true := by
  induction s using partsInduction with
  | step s ih =>
      cases s with
      | const => rfl
      | var => simp [isGround] at hground
      | app name sort xs =>
          have hxs := areTermsIn_iff.mp h
          have hgrounds := areGround_iff.mp hground
          exact areTermsIn_iff.mpr fun x hx => ih x hx (hxs x hx) (hgrounds x hx)
      | _ => simp [isTermIn] at h

theorem isClosedTerm_of_mem_subsentences_term (h : s.isTermIn scope = true)
    (hmem : term ∈ s.subsentences) (hground : term.isGroundTerm = true) :
    term.isClosedTerm = true := by
  induction s using partsInduction with
  | step s ih =>
      rcases mem_subsentences.mp hmem with rfl | ⟨x, hx, hmem⟩
      · exact isClosedTerm_of_isGround h (isGround_of_isGroundTerm hground)
      · refine ih x hx ?_ hmem
        cases s with
        | app name sort xs => exact areTermsIn_iff.mp h x hx
        | const | var => simp [parts] at hx
        | _ => simp [isTermIn] at h

/-- The ground terms inside a formula are terms throughout. -/
theorem isClosedTerm_of_mem_subsentences (h : s.isFormulaIn scope = true)
    (hmem : term ∈ s.subsentences) (hground : term.isGroundTerm = true) :
    term.isClosedTerm = true := by
  induction s using partsInduction generalizing scope with
  | step s ih =>
      rcases mem_subsentences.mp hmem with rfl | ⟨x, hx, hin⟩
      · cases term <;> simp [isGroundTerm, isFormulaIn] at hground h
      · cases s with
        | atom => simp [parts] at hx
        | pred name xs | equal xs =>
            exact isClosedTerm_of_mem_subsentences_term (areTermsIn_iff.mp h x hx) hin hground
        | neg y =>
            obtain rfl : x = y := by simpa [parts] using hx
            exact ih x (by simp [parts]) h hin
        | conj xs | disj xs => exact ih x hx (areFormulasIn_iff.mp h x hx) hin
        | imp l r | iff l r =>
            simp only [isFormulaIn, Bool.and_eq_true] at h
            have hx' : x = l ∨ x = r := by simpa [parts] using hx
            rcases hx' with rfl | rfl
            · exact ih x hx h.1 hin
            · exact ih x hx h.2 hin
        | all v y | ex v y =>
            simp only [isFormulaIn, Bool.and_eq_true] at h
            have hx' : x = v ∨ x = y := by simpa [parts] using hx
            rcases hx' with rfl | rfl
            · cases x <;> simp_all [isVariable, subsentences, isGroundTerm]
            · exact ih x hx h.2 hin
        | const | var | app => simp [isFormulaIn] at h

/-- The rules lead from closed formulas to closed formulas. -/
theorem hereditary_isClosedFormula (sorts : Sorts) :
    Rule.Hereditary sorts (·.isClosedFormula = true) (·.isClosedTerm = true) where
  alternative := by
    intro s value alternatives halts hs facts hfacts fact hfact
    rcases mem_parts_of_alternatives? halts hfacts hfact with ⟨-, heq⟩ | ⟨hequal, hpart⟩
    · rwa [heq]
    · generalize fact.sentence = x at hpart
      cases s with
      | atom | pred | const | var | app | all | ex => simp [alternatives?] at halts
      | equal xs => exact absurd rfl (hequal xs)
      | neg y =>
          obtain rfl : x = y := by simpa [parts] using hpart
          exact hs
      | conj xs | disj xs => exact areFormulasIn_iff.mp hs x hpart
      | imp l r | iff l r =>
          simp only [isClosedFormula, isFormulaIn, Bool.and_eq_true] at hs
          have hx : x = l ∨ x = r := by simpa [parts] using hpart
          rcases hx with rfl | rfl
          · exact hs.1
          · exact hs.2
  dualAll binder body h := h
  dualEx binder body h := h
  instAll binder body term h _ hterm := by
    simp only [isClosedFormula, isFormulaIn, Bool.and_eq_true] at h
    exact isFormulaIn_subst (by simp) hterm h.1 h.2
  instEx binder body term h _ hterm := by
    simp only [isClosedFormula, isFormulaIn, Bool.and_eq_true] at h
    exact isFormulaIn_subst (by simp) hterm h.1 h.2
  const _ _ := rfl
  mentioned s term hs hmem hground := isClosedTerm_of_mem_subsentences hs hmem hground

end Tableau.Sentence
