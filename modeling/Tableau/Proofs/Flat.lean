/-
Flat sentences: no function is applied in them, and no quantifier stands in the body of
another.  The rules lead from flat sentences to flat sentences, and the instances of a
quantified one have no quantifiers left.  What the rules of a sentence may still lead to on a
branch with so many terms is bounded by its weight, which instances share with the body.
-/
import Mathlib.Algebra.GroupWithZero.Nat
import Mathlib.Algebra.Order.BigOperators.Group.List
import Mathlib.Algebra.Order.Group.Nat
import Tableau.Proofs.Formula
import Tableau.Proofs.Occurrence

namespace Tableau

namespace Sentence

variable {s x v term : Sentence}

/-- A function with its arguments. -/
def isApplication : Sentence → Bool
  | app .. => true
  | _ => false

/-- A quantifier with another one in its body. -/
def isNested : Sentence → Bool
  | all _ x | ex _ x => !x.lacks isQuantifier
  | _ => false

/-- What a flat sentence does not contain. -/
def isDeep (s : Sentence) : Bool := s.isApplication || s.isNested

/-- A closed formula without applications of functions and nested quantifiers. -/
def IsFlat (s : Sentence) : Prop := s.isClosedFormula = true ∧ s.lacks isDeep = true

def IsFlatTerm (term : Sentence) : Prop := term.isClosedTerm = true ∧ term.lacks isDeep = true

theorem lacks_isDeep (happlication : s.lacks isApplication = true)
    (hnested : s.lacks isNested = true) : s.lacks isDeep = true :=
  lacks_iff.mpr fun y hy => by
    simp [isDeep, lacks_iff.mp happlication y hy, lacks_iff.mp hnested y hy]

/-- Without functions the ground terms are the constants. -/
theorem isConstant_of_isGroundTerm (hground : term.isGroundTerm = true)
    (hshallow : term.lacks isDeep = true) : term.isConstant = true := by
  have hself := lacks_iff.mp hshallow term (self_mem_subsentences term)
  cases term <;> simp_all [isGroundTerm, isConstant, isDeep, isApplication]

/-- Instances for constants have no more quantifiers than the body. -/
theorem lacks_isQuantifier_subst (h : s.lacks isQuantifier = true)
    (hterm : term.isConstant = true) : (s.subst v term).lacks isQuantifier = true := by
  refine lacks_subst h (lacks_iff.mpr fun y hy => ?_) fun y hne hy => ?_
  · cases term <;> simp_all [isConstant, subsentences, isQuantifier]
  · cases y <;> simp_all [subst, isQuantifier]

theorem IsFlatTerm.isConstant (h : term.IsFlatTerm) : term.isConstant = true :=
  isConstant_of_isGroundTerm (isGroundTerm_of_isClosedTerm h.1) h.2

theorem hereditary_lacks_isDeep (sorts : Sorts) :
    Rule.Hereditary sorts (·.lacks isDeep = true) (·.lacks isDeep = true) := by
  have hneg : ∀ x : Sentence, (neg x).lacks isQuantifier = x.lacks isQuantifier := by
    intro x
    rw [Bool.eq_iff_iff, lacks_iff_parts]
    simp [isQuantifier, parts]
  refine hereditary_lacks sorts (by simp [isDeep, isApplication, isNested])
    (by simp [isDeep, isApplication, isNested]) (by simp [isDeep, isApplication, isNested, hneg])
    (by simp [isDeep, isApplication, isNested, hneg]) ?_
  intro v x y term _ hground hterm hne hy
  have hconstant := isConstant_of_isGroundTerm hground hterm
  cases y with
  | all w z | ex w z =>
      simp only [isDeep, isApplication, isNested, Bool.false_or, Bool.not_eq_false'] at hy
      simp only [subst, hne, if_false, isDeep, isApplication, isNested, Bool.false_or,
        Bool.not_eq_false']
      split
      · exact hy
      · exact lacks_isQuantifier_subst hy hconstant
  | app => simp [isDeep, isApplication] at hy
  | _ => simp [subst, hne, isDeep, isApplication, isNested]

/-- The rules lead from flat sentences to flat sentences. -/
theorem hereditary_isFlat (sorts : Sorts) : Rule.Hereditary sorts IsFlat IsFlatTerm :=
  (hereditary_isClosedFormula sorts).and (hereditary_lacks_isDeep sorts)

/-! Quantifiers. -/

/-- The number of quantifiers in a sentence. -/
def quantifierCount (s : Sentence) : Nat := s.subsentences.countP isQuantifier

theorem countP_subsentencesAll (test : Sentence → Bool) (xs : List Sentence) :
    (subsentencesAll xs).countP test = (xs.map fun x => x.subsentences.countP test).sum := by
  induction xs with
  | nil => rfl
  | cons x xs ih => simp [subsentencesAll, ih]

theorem quantifierCount_eq (s : Sentence) :
    s.quantifierCount =
      (s.parts.map quantifierCount).sum + if s.isQuantifier then 1 else 0 := by
  have hsubsentences : s.subsentences = s :: subsentencesAll s.parts := by
    cases s <;> simp [subsentences, parts, subsentencesAll]
  rw [quantifierCount, hsubsentences, List.countP_cons, countP_subsentencesAll]
  rfl

theorem quantifierCount_neg (x : Sentence) : (neg x).quantifierCount = x.quantifierCount := by
  simp [quantifierCount_eq (neg x), parts, isQuantifier]

/-- A quantified sentence has one quantifier more than its binder and its body. -/
theorem quantifierCount_quantified {binder body : Sentence}
    (h : s = all binder body ∨ s = ex binder body) :
    s.quantifierCount = binder.quantifierCount + body.quantifierCount + 1 := by
  rw [quantifierCount_eq]
  rcases h with rfl | rfl <;> simp [parts, isQuantifier]

theorem quantifierCount_eq_zero (h : s.lacks isQuantifier = true) : s.quantifierCount = 0 := by
  simpa [quantifierCount, List.countP_eq_zero] using lacks_iff.mp h

section Quantified

variable {binder body : Sentence} (hs : s.IsFlat)
  (hquantified : s = all binder body ∨ s = ex binder body)
include hs hquantified

theorem IsFlat.isVariable_binder : binder.isVariable = true := by
  rcases hquantified with rfl | rfl <;> exact (Bool.and_eq_true_iff.mp hs.1).1

theorem IsFlat.lacks_isQuantifier_body : body.lacks isQuantifier = true := by
  have hself := lacks_iff.mp hs.2 s (self_mem_subsentences s)
  rcases hquantified with rfl | rfl <;> simpa [isDeep, isApplication, isNested] using hself

theorem IsFlat.quantifierCount_eq_one : s.quantifierCount = 1 := by
  have hbinder : binder.quantifierCount = 0 := by
    have hvariable := hs.isVariable_binder hquantified
    cases binder <;> simp_all [isVariable, quantifierCount, subsentences, isQuantifier]
  have hbody := quantifierCount_eq_zero (hs.lacks_isQuantifier_body hquantified)
  rw [quantifierCount_quantified hquantified, hbinder, hbody]

/-- The instances of a flat sentence have no quantifiers. -/
theorem IsFlat.quantifierCount_instance (hterm : term.isConstant = true) :
    (body.subst binder term).quantifierCount = 0 :=
  quantifierCount_eq_zero
    (lacks_isQuantifier_subst (hs.lacks_isQuantifier_body hquantified) hterm)

/-- An instance has no ground terms but those of the sentence and the one that it is for. -/
theorem IsFlat.mem_subsentences_of_instance (hterm : term.isConstant = true)
    (hx : x ∈ (body.subst binder term).subsentences) (hground : x.isGroundTerm = true) :
    x = term ∨ x ∈ s.subsentences := by
  have hbody : ∀ y ∈ body.subsentences, y ∈ s.subsentences := by
    intro y hy
    rcases hquantified with rfl | rfl <;> exact mem_subsentences_of_part (by simp [parts]) hy
  rcases mem_subsentences_subst hx with hmem | ⟨y, hy, rfl | ⟨hne, rfl⟩⟩
  · cases term <;> simp_all [isConstant, subsentences]
  · exact Or.inr (hbody x hy)
  · -- without functions a ground term is put together from nothing
    have hdeep := lacks_iff.mp hs.2 y (hbody y hy)
    have hsame : y.subst binder term = y := by
      cases y <;> simp_all [subst, isGroundTerm, isDeep, isApplication]
    rw [hsame]
    exact Or.inr (hbody y hy)

end Quantified

/-! Weights. -/

mutual

/-- What the rules of a sentence may lead to on a branch with so many terms.  A connective
leads to its parts, and may be put off before.  A quantifier may turn into its dual and leads
to a negated instance for every term. -/
def weight (terms : Nat) : Sentence → Nat
  | atom .. | const .. | var .. | app .. | pred .. => 0
  | equal _ => 2
  | neg x => weight terms x + 2
  | conj xs | disj xs => weightAll terms xs + 2
  | imp l r | iff l r => weight terms l + weight terms r + 2
  | all _ x | ex _ x => terms * (weight terms x + 3) + 2
termination_by structural s => s

def weightAll (terms : Nat) : List Sentence → Nat
  | [] => 0
  | x :: xs => weight terms x + weightAll terms xs
termination_by structural xs => xs

end

theorem weightAll_eq (terms : Nat) (xs : List Sentence) :
    weightAll terms xs = (xs.map (weight terms)).sum := by
  induction xs with
  | nil => rfl
  | cons x xs ih => simp [weightAll, ih]

theorem weight_eq_zero_of_isTerm (terms : Nat) (h : s.isTerm = true) : s.weight terms = 0 := by
  cases s <;> simp_all [isTerm, weight]

/-- The weight of a connective is that of its parts, and more. -/
theorem weight_eq_of_connective (terms : Nat) (hterminal : s.isTerminal = false)
    (hquantifier : s.isQuantifier = false) (hequal : ∀ xs, s ≠ equal xs) :
    s.weight terms = (s.parts.map (weight terms)).sum + 2 := by
  cases s with
  | atom | pred | const | var | app => simp [isTerminal, isTerm] at hterminal
  | all | ex => simp [isQuantifier] at hquantifier
  | equal xs => exact absurd rfl (hequal xs)
  | conj xs | disj xs => simp [weight, parts, weightAll_eq]
  | neg x | imp l r | iff l r => simp [weight, parts]

/-- An instance weighs as much as the body. -/
theorem weight_subst (terms : Nat) (htarget : v.isVariable = true) (hterm : term.isTerm = true)
    (s : Sentence) : (s.subst v term).weight terms = s.weight terms := by
  induction s using partsInduction with
  | step s ih =>
      by_cases hs : s = v
      · rw [hs, subst_self, weight_eq_zero_of_isTerm terms hterm,
          weight_eq_zero_of_isTerm terms (isTerm_of_isVariable htarget)]
      · cases s with
        | atom | const | var | app | pred | equal => simp [subst, hs, weight]
        | neg x => simp [subst, hs, weight, ih x (by simp [parts])]
        | conj xs | disj xs =>
            have hmap : xs.map (fun x => (x.subst v term).weight terms) = xs.map (weight terms) :=
              List.map_congr_left fun x hx => ih x hx
            simp only [subst, hs, if_false, weight, substAll_eq_map, weightAll_eq, List.map_map]
            exact congrArg (·.sum + 2) hmap
        | imp l r | iff l r =>
            simp [subst, hs, weight, ih l (by simp [parts]), ih r (by simp [parts])]
        | all w x | ex w x =>
            have hx := ih x (by simp [parts])
            simp only [subst, hs, if_false, weight]
            split
            · rfl
            · rw [hx]

/-! Alternatives. -/

/-- The facts of an alternative are about different parts of a connective. -/
theorem sublist_parts_of_alternatives? {value : Bool} {alternatives : List Outcome}
    (h : s.alternatives? value = some alternatives) {facts : Outcome}
    (hfacts : facts ∈ alternatives)
    (hequal : ∀ xs, s ≠ equal xs) : (facts.map Fact.sentence).Sublist s.parts := by
  have hvalued : ∀ (value : Bool) (xs : List Sentence),
      (xs.map (valued value)).map Fact.sentence = xs := by
    intro value xs
    rw [List.map_map]
    exact List.map_id xs
  cases s with
  | atom | pred | const | var | app | all | ex => simp [alternatives?] at h
  | equal xs => exact absurd rfl (hequal xs)
  | neg x =>
      obtain rfl := Option.some.inj h
      obtain rfl := List.mem_singleton.mp hfacts
      exact List.Sublist.refl [x]
  | conj xs =>
      cases value <;> obtain rfl := Option.some.inj h
      · obtain ⟨x, hx, rfl⟩ := List.mem_map.mp hfacts
        exact List.singleton_sublist.mpr hx
      · obtain rfl := List.mem_singleton.mp hfacts
        rw [hvalued]
        exact List.Sublist.refl xs
  | disj xs =>
      cases value <;> obtain rfl := Option.some.inj h
      · obtain rfl := List.mem_singleton.mp hfacts
        rw [hvalued]
        exact List.Sublist.refl xs
      · obtain ⟨x, hx, rfl⟩ := List.mem_map.mp hfacts
        exact List.singleton_sublist.mpr hx
  | imp l r =>
      cases value <;> obtain rfl := Option.some.inj h
      · obtain rfl := List.mem_singleton.mp hfacts
        exact List.Sublist.refl [l, r]
      · have hfacts : facts = [⟨l, false⟩] ∨ facts = [⟨r, true⟩] := by simpa using hfacts
        rcases hfacts with rfl | rfl
        · exact List.singleton_sublist.mpr (by simp [parts])
        · exact List.singleton_sublist.mpr (by simp [parts])
  | iff l r =>
      obtain rfl := Option.some.inj h
      have hfacts : facts = [⟨l, true⟩, ⟨r, value⟩] ∨ facts = [⟨l, false⟩, ⟨r, !value⟩] := by
        simpa using hfacts
      rcases hfacts with rfl | rfl
      · exact List.Sublist.refl [l, r]
      · exact List.Sublist.refl [l, r]

/-- A sum over an alternative is no more than the sum over the parts of the connective. -/
theorem sum_alternative_le {value : Bool} {alternatives : List Outcome}
    (h : s.alternatives? value = some alternatives) {facts : Outcome}
    (hfacts : facts ∈ alternatives)
    (hequal : ∀ xs, s ≠ equal xs) {share : Fact → Nat} {size : Sentence → Nat}
    (hshare : ∀ fact, share fact ≤ size fact.sentence) :
    (facts.map share).sum ≤ (s.parts.map size).sum := by
  calc (facts.map share).sum ≤ (facts.map fun fact => size fact.sentence).sum :=
        List.sum_le_sum fun fact _ => hshare fact
    _ = ((facts.map Fact.sentence).map size).sum := by rw [List.map_map]; rfl
    _ ≤ (s.parts.map size).sum :=
        ((sublist_parts_of_alternatives? h hfacts hequal).map size).sum_le_sum
          fun _ _ => Nat.zero_le _

end Sentence

end Tableau
