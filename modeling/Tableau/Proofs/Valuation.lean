/-
Valuations.  A valuation gives a truth value to every sentence and respects the
connectives.  The rules for connectives are exact: a valuation gives a sentence its
value if and only if it agrees with all facts of one of the alternatives.
-/
import Tableau.Rule.Propositional
import Tableau.Proofs.Assignment

namespace Tableau

/-- Truth that respects the connectives and the reflexivity of equality. -/
structure IsValuation (truth : Sentence → Prop) : Prop where
  neg : ∀ x, truth (.neg x) ↔ ¬ truth x
  conj : ∀ xs, truth (.conj xs) ↔ ∀ x ∈ xs, truth x
  disj : ∀ xs, truth (.disj xs) ↔ ∃ x ∈ xs, truth x
  imp : ∀ l r, truth (.imp l r) ↔ (truth l → truth r)
  iff : ∀ l r, truth (.iff l r) ↔ (truth l ↔ truth r)
  equal : ∀ xs, allEqual xs = true → truth (.equal xs)

/-- A fact agrees with a notion of truth. -/
def Fact.Agrees (truth : Sentence → Prop) (fact : Fact) : Prop :=
  truth fact.sentence ↔ fact.value = true

section Agrees

variable {truth : Sentence → Prop}

@[simp]
theorem Fact.agrees_true (k : Key) : (Fact.mk k true).Agrees truth ↔ truth k.sentence := by
  simp [Fact.Agrees]

@[simp]
theorem Fact.agrees_false (k : Key) : (Fact.mk k false).Agrees truth ↔ ¬ truth k.sentence := by
  simp [Fact.Agrees]

@[simp]
theorem Fact.agrees_not (k : Key) (value : Bool) :
    (Fact.mk k (!value)).Agrees truth ↔ ¬ (Fact.mk k value).Agrees truth := by
  cases value <;> simp

end Agrees

namespace IsValuation

variable {truth : Sentence → Prop} {s : Sentence} {value : Bool} {alternatives : List Outcome}

/-- A valuation that agrees with a sentence's value agrees with all facts of an
alternative. -/
theorem exists_alternative (hv : IsValuation truth)
    (h : s.alternatives? value = some alternatives) (hs : (Fact.mk s value).Agrees truth) :
    ∃ facts ∈ alternatives, ∀ fact ∈ facts, fact.Agrees truth := by
  unfold Sentence.alternatives? at h
  split at h
  · cases h
    refine ⟨_, List.mem_singleton_self _, ?_⟩
    cases value <;> simp_all [hv.neg]
  · cases h
    refine ⟨_, List.mem_singleton_self _, ?_⟩
    simp_all [hv.conj, Sentence.valued]
  · cases h
    simp only [Fact.agrees_false, Key.sentence_key, hv.conj, Classical.not_forall] at hs
    obtain ⟨x, hx, hfalse⟩ := hs
    exact ⟨_, List.mem_map_of_mem hx, by simp [Sentence.valued, hfalse]⟩
  · cases h
    simp only [Fact.agrees_true, Key.sentence_key, hv.disj] at hs
    obtain ⟨x, hx, htrue⟩ := hs
    exact ⟨_, List.mem_map_of_mem hx, by simp [Sentence.valued, htrue]⟩
  · cases h
    refine ⟨_, List.mem_singleton_self _, ?_⟩
    simp_all [hv.disj, Sentence.valued]
  · next l r =>
      cases h
      simp only [Fact.agrees_true, Key.sentence_key, hv.imp] at hs
      by_cases hl : truth l
      · exact ⟨_, List.mem_cons_of_mem _ (List.mem_singleton_self _), by simp [hs hl]⟩
      · exact ⟨_, List.mem_cons_self, by simp [hl]⟩
  · cases h
    refine ⟨_, List.mem_singleton_self _, ?_⟩
    simp_all [hv.imp]
  · next l r =>
      cases h
      by_cases hl : truth l
      · refine ⟨_, List.mem_cons_self, ?_⟩
        cases value <;> simp_all [hv.iff]
      · refine ⟨_, List.mem_cons_of_mem _ (List.mem_singleton_self _), ?_⟩
        cases value <;> simp_all [hv.iff]
  · next xs =>
      cases h
      refine ⟨_, List.mem_singleton_self _, ?_⟩
      intro fact hfact
      split at hfact
      · next heq =>
          obtain rfl : fact = _ := by simpa using hfact
          simp [hv.equal xs heq]
      · simp at hfact
  · contradiction

/-- A valuation that agrees with all facts of an alternative agrees with the value of
the sentence, unless the sentence is an equality, of which too little is known. -/
theorem agrees_of_alternative (hv : IsValuation truth)
    (h : s.alternatives? value = some alternatives) (hequal : ∀ xs, s ≠ .equal xs)
    {facts : Outcome} (hfacts : facts ∈ alternatives) (hall : ∀ fact ∈ facts, fact.Agrees truth) :
    (Fact.mk s value).Agrees truth := by
  unfold Sentence.alternatives? at h
  split at h
  · cases h
    obtain rfl : facts = _ := by simpa using hfacts
    cases value <;> simp_all [hv.neg]
  · cases h
    obtain rfl : facts = _ := by simpa using hfacts
    simp_all [hv.conj, Sentence.valued]
  · cases h
    obtain ⟨x, hx, rfl⟩ := List.mem_map.mp hfacts
    have hfalse : ¬ truth x := by simpa [Sentence.valued] using hall
    simp only [Fact.agrees_false, Key.sentence_key, hv.conj]
    exact fun htrue => hfalse (htrue x hx)
  · cases h
    obtain ⟨x, hx, rfl⟩ := List.mem_map.mp hfacts
    have htrue : truth x := by simpa [Sentence.valued] using hall
    simp only [Fact.agrees_true, Key.sentence_key, hv.disj]
    exact ⟨x, hx, htrue⟩
  · cases h
    obtain rfl : facts = _ := by simpa using hfacts
    simp_all [hv.disj, Sentence.valued]
  · cases h
    simp only [List.mem_cons, List.not_mem_nil, or_false] at hfacts
    rcases hfacts with rfl | rfl <;> simp_all [hv.imp]
  · cases h
    obtain rfl : facts = _ := by simpa using hfacts
    simp_all [hv.imp]
  · cases h
    simp only [List.mem_cons, List.not_mem_nil, or_false] at hfacts
    rcases hfacts with rfl | rfl
    all_goals cases value <;> simp_all [hv.iff]
  · next xs => exact absurd rfl (hequal xs)
  · contradiction

end IsValuation

/-! Boolean valuations. -/

namespace Sentence

mutual

/-- The truth value of a sentence, given those of the sentences that no connective
builds. -/
def truth (v : Sentence → Bool) : Sentence → Bool
  | neg x => !truth v x
  | conj xs => truthAll v xs
  | disj xs => truthAny v xs
  | imp l r => !truth v l || truth v r
  | iff l r => truth v l == truth v r
  | s@(equal xs) => allEqual xs || v s
  | s@(atom _) | s@(const ..) | s@(var ..) | s@(app ..) | s@(pred ..) | s@(all ..)
      | s@(ex ..) => v s
termination_by structural s => s

/-- All sentences are true. -/
def truthAll (v : Sentence → Bool) : List Sentence → Bool
  | [] => true
  | x :: xs => truth v x && truthAll v xs
termination_by structural xs => xs

/-- Some sentence is true. -/
def truthAny (v : Sentence → Bool) : List Sentence → Bool
  | [] => false
  | x :: xs => truth v x || truthAny v xs
termination_by structural xs => xs

end

variable {v : Sentence → Bool}

theorem truthAll_iff {xs : List Sentence} : truthAll v xs = true ↔ ∀ x ∈ xs, truth v x = true := by
  induction xs with
  | nil => simp [truthAll]
  | cons x xs ih => simp [truthAll, ih]

theorem truthAny_iff {xs : List Sentence} : truthAny v xs = true ↔ ∃ x ∈ xs, truth v x = true := by
  induction xs with
  | nil => simp [truthAny]
  | cons x xs ih => simp [truthAny, ih]

/-- Truth values that are computed from given ones are a valuation. -/
theorem isValuation_truth (v : Sentence → Bool) : IsValuation (fun s => truth v s = true) where
  neg x := by simp [truth]
  conj xs := by simp [truth, truthAll_iff]
  disj xs := by simp [truth, truthAny_iff]
  imp l r := by cases hl : truth v l <;> simp [truth, hl]
  iff l r := by cases hl : truth v l <;> cases hr : truth v r <;> simp [truth, hl, hr]
  equal xs h := by simp [truth, h]

mutual

/-- Built from atomic formulas by connectives only. -/
def isPropositional : Sentence → Bool
  | atom _ | pred .. => true
  | neg x => isPropositional x
  | conj xs | disj xs => arePropositional xs
  | imp l r | iff l r => isPropositional l && isPropositional r
  | const .. | var .. | app .. | equal .. | all .. | ex .. => false
termination_by structural s => s

def arePropositional : List Sentence → Bool
  | [] => true
  | x :: xs => isPropositional x && arePropositional xs
termination_by structural xs => xs

end

theorem arePropositional_iff {xs : List Sentence} :
    arePropositional xs = true ↔ ∀ x ∈ xs, x.isPropositional = true := by
  induction xs with
  | nil => simp [arePropositional]
  | cons x xs ih => simp [arePropositional, ih]

/-- A propositional sentence is atomic, or it is a connective of propositional
sentences. -/
theorem isPropositional_iff {s : Sentence} :
    s.isPropositional = true ↔ s.isAtomic = true ∨
      s.isTerminal = false ∧ s.isQuantifier = false ∧ (∀ xs, s ≠ .equal xs) ∧
        ∀ x ∈ s.parts, x.isPropositional = true := by
  cases s <;>
    simp [isPropositional, isAtomic, isTerminal, isTerm, isQuantifier, parts, arePropositional_iff]

theorem isQuantifier_of_isPropositional {s : Sentence} (h : s.isPropositional = true) :
    s.isQuantifier = false := by
  cases s <;> simp_all [isPropositional, isQuantifier]

end Sentence

end Tableau
