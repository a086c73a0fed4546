/-
Sentences and their parts.  A property of sentences is proved from the immediate parts
upwards, and what a sentence contains is what its parts contain.
-/
import Tableau.Sentence.Subsentences
import Tableau.Sentence.Substitution

namespace Tableau

namespace Sentence

theorem sizeOf_lt_of_mem_parts {s x : Sentence} (h : x ∈ s.parts) : sizeOf x < sizeOf s := by
  cases s with
  | atom | const | var => simp [parts] at h
  | app _ _ xs | pred _ xs | conj xs | disj xs | equal xs =>
      have hlt : sizeOf x < sizeOf xs := List.sizeOf_lt_of_mem h
      simp only [app.sizeOf_spec, pred.sizeOf_spec, conj.sizeOf_spec, disj.sizeOf_spec,
        equal.sizeOf_spec]
      omega
  | neg y =>
      obtain rfl : x = y := by simpa [parts] using h
      simp
  | imp l r | iff l r | all l r | ex l r =>
      have h : x = l ∨ x = r := by simpa [parts] using h
      rcases h with rfl | rfl <;>
        simp only [imp.sizeOf_spec, iff.sizeOf_spec, all.sizeOf_spec, ex.sizeOf_spec] <;> omega

/-- Induction from the immediate parts of a sentence to the sentence. -/
@[elab_as_elim]
theorem partsInduction {motive : Sentence → Prop}
    (step : ∀ s, (∀ x ∈ s.parts, motive x) → motive s) (s : Sentence) : motive s :=
  step s fun x hx =>
    have := sizeOf_lt_of_mem_parts hx
    partsInduction step x
termination_by sizeOf s

theorem mem_subsentencesAll {t : Sentence} {xs : List Sentence} :
    t ∈ subsentencesAll xs ↔ ∃ x ∈ xs, t ∈ x.subsentences := by
  induction xs with
  | nil => simp [subsentencesAll]
  | cons x xs ih => simp [subsentencesAll, ih]

/-- A sentence contains itself and what its parts contain. -/
theorem mem_subsentences {s t : Sentence} :
    t ∈ s.subsentences ↔ t = s ∨ ∃ x ∈ s.parts, t ∈ x.subsentences := by
  cases s <;> simp [subsentences, parts, mem_subsentencesAll]

theorem self_mem_subsentences (s : Sentence) : s ∈ s.subsentences :=
  mem_subsentences.mpr (Or.inl rfl)

theorem mem_subsentences_of_part {s x t : Sentence} (hx : x ∈ s.parts) (ht : t ∈ x.subsentences) :
    t ∈ s.subsentences :=
  mem_subsentences.mpr (Or.inr ⟨x, hx, ht⟩)

theorem mem_subsentences_trans {s x t : Sentence} (hx : x ∈ s.subsentences)
    (ht : t ∈ x.subsentences) : t ∈ s.subsentences := by
  induction s using partsInduction with
  | step s ih =>
      rcases mem_subsentences.mp hx with rfl | ⟨y, hy, hxy⟩
      · exact ht
      · exact mem_subsentences_of_part hy (ih y hy hxy)

theorem subst_self (target term : Sentence) : target.subst target term = term := by
  cases target <;> simp [subst]

/-- What a sentence with a term for a variable contains is in the term, was there before
or comes from what was there. -/
theorem mem_subsentences_subst {s x target term : Sentence}
    (h : x ∈ (s.subst target term).subsentences) :
    x ∈ term.subsentences ∨ ∃ y ∈ s.subsentences, x = y ∨ y ≠ target ∧ x = y.subst target term := by
  induction s using partsInduction with
  | step s ih =>
      by_cases hs : s = target
      · rw [hs, subst_self] at h
        exact Or.inl h
      · rcases mem_subsentences.mp h with rfl | ⟨z, hz, hxz⟩
        · exact Or.inr ⟨s, self_mem_subsentences s, Or.inr ⟨hs, rfl⟩⟩
        · have hpart : z ∈ s.parts ∨ ∃ y ∈ s.parts, z = y.subst target term := by
            cases s <;> simp [subst, hs, parts, substAll_eq_map] at hz ⊢ <;> grind
          rcases hpart with hz | ⟨y, hy, rfl⟩
          · exact Or.inr ⟨x, mem_subsentences_of_part hz hxz, Or.inl rfl⟩
          · rcases ih y hy hxz with hterm | ⟨w, hw, heq⟩
            · exact Or.inl hterm
            · exact Or.inr ⟨w, mem_subsentences_of_part hy hw, heq⟩

theorem areGround_iff {xs : List Sentence} : areGround xs = true ↔ ∀ x ∈ xs, x.isGround = true := by
  induction xs with
  | nil => simp [areGround]
  | cons x xs ih => simp [areGround, ih]

theorem isTerm_of_isVariable {s : Sentence} (h : s.isVariable = true) : s.isTerm = true := by
  cases s <;> simp_all [isVariable, isTerm]

theorem isTerm_of_isGroundTerm {s : Sentence} (h : s.isGroundTerm = true) : s.isTerm = true := by
  cases s <;> simp_all [isGroundTerm, isTerm]

theorem isGround_of_isGroundTerm {s : Sentence} (h : s.isGroundTerm = true) :
    s.isGround = true := by
  cases s <;> simp_all [isGroundTerm, isGround]

/-- The parts of a connective have a smaller rank. -/
theorem rank_lt_of_mem_parts {s x : Sentence} (hterminal : s.isTerminal = false)
    (hquantifier : s.isQuantifier = false) (hequal : ∀ xs, s ≠ equal xs) (hx : x ∈ s.parts) :
    x.rank < s.rank := by
  cases s with
  | atom | pred | const | var | app => simp [isTerminal, isTerm] at hterminal
  | all | ex => simp [isQuantifier] at hquantifier
  | equal xs => exact absurd rfl (hequal xs)
  | neg y =>
      obtain rfl : x = y := by simpa [parts] using hx
      exact Nat.lt_succ_self _
  | conj xs | disj xs => exact Nat.lt_succ_of_le (rank_le_rankAll hx)
  | imp l r | iff l r =>
      have hx : x = l ∨ x = r := by simpa [parts] using hx
      rcases hx with rfl | rfl <;> simp only [rank] <;> omega

end Sentence

end Tableau
