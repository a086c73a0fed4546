/-
The rules for connectives are exact.  When the rule of a sentence fires, a valuation gives the
sentence its value if and only if it agrees with all facts of one of the outcomes.  An empty
disjunction that is true and an empty conjunction that is false have no alternative; no valuation
agrees with them, and they get the opposite value.
-/
import Tableau.Proofs.Firing
import Tableau.Proofs.Valuation

namespace Tableau

/-- An empty disjunction that is to be true, or an empty conjunction that is to be false. -/
def Sentence.isAbsurd : Sentence → Bool → Bool
  | disj [], true | conj [], false => true
  | _, _ => false

/-- Only absurd sentences have a rule without alternatives. -/
theorem Sentence.alternatives_eq_nil_iff {s : Sentence} {value : Bool} {alternatives : List Outcome}
    (h : s.alternatives? value = some alternatives) :
    alternatives = [] ↔ s.isAbsurd value = true := by
  cases s with
  | conj xs | disj xs => cases value <;> cases h <;> cases xs <;> simp [isAbsurd]
  | neg | imp | iff | equal => cases value <;> cases h <;> simp [isAbsurd]
  | atom | const | var | app | pred | all | ex => contradiction

/-- A Boolean valuation agrees with a fact if it gives the sentence the value of the fact. -/
theorem Fact.agrees_iff {truth : Sentence → Bool} {fact : Fact} :
    fact.Agrees (fun s => truth s = true) ↔ truth fact.sentence = fact.value :=
  Bool.eq_iff_iff.symm

theorem Lexicon.arrange_singleton (lex : Lexicon) (fact : Fact) : lex.arrange [fact] = [fact] := rfl

namespace Rule

variable {lex : Lexicon} {tree : Tree} {node : NodeId} {k : Key} {number : Nat} {inf : Inference}

/-- The outcomes are the alternatives for the value of the sentence, or that it has the opposite
value if there is none. -/
theorem outcomes_of_decompose? (h : decompose? lex tree node k number = some inf) :
    ∃ value alternatives, (tree.branch node).models k = some value ∧
      k.sentence.alternatives? value = some alternatives ∧
      inf.outcomes = if alternatives = [] then [[⟨k, !value⟩]]
        else alternatives.map lex.arrange := by
  obtain ⟨-, value, alternatives, hvalue, halts, rfl⟩ := decompose?_eq_some_iff.mp h
  refine ⟨value, alternatives, hvalue, halts, ?_⟩
  rw [outcomes_effect rfl, Lexicon.arrange_singleton, Key.key_sentence]

/-- A valuation that gives a sentence its value agrees with all facts of an outcome of its rule,
unless the sentence is absurd; then there is no such valuation, and the only outcome is the
opposite value.  And a valuation that agrees with an outcome gives the sentence its value, unless
the sentence is absurd or an equality. -/
theorem outcomes_exact (h : decompose? lex tree node k number = some inf) :
    ∃ value, (tree.branch node).models k = some value ∧
      (k.sentence.isAbsurd value = true →
        inf.outcomes = [[⟨k, !value⟩]] ∧
        ∀ truth : Sentence → Bool, (IsValuation fun s => truth s = true) →
          truth k.sentence ≠ value) ∧
      (k.sentence.isAbsurd value = false →
        ∀ truth : Sentence → Bool, (IsValuation fun s => truth s = true) →
          (truth k.sentence = value →
            ∃ outcome ∈ inf.outcomes, ∀ fact ∈ outcome, truth fact.sentence = fact.value) ∧
          ((∀ xs, k.sentence ≠ .equal xs) → ∀ outcome ∈ inf.outcomes,
            (∀ fact ∈ outcome, truth fact.sentence = fact.value) → truth k.sentence = value)) := by
  obtain ⟨value, alternatives, hvalue, halts, houtcomes⟩ := outcomes_of_decompose? h
  have hnil := Sentence.alternatives_eq_nil_iff halts
  refine ⟨value, hvalue, fun habsurd => ?_, fun hsound truth hv => ?_⟩
  · obtain rfl := hnil.mpr habsurd
    refine ⟨houtcomes, fun truth hv hs => ?_⟩
    obtain ⟨facts, hfacts, -⟩ := hv.exists_alternative halts (Fact.agrees_iff.mpr hs)
    exact List.not_mem_nil hfacts
  · have hne : alternatives ≠ [] := fun heq => by simp [hnil.mp heq] at hsound
    rw [if_neg hne] at houtcomes
    rw [houtcomes]
    refine ⟨fun hs => ?_, fun hequal outcome houtcome hall => ?_⟩
    · obtain ⟨facts, hfacts, hagree⟩ := hv.exists_alternative halts (Fact.agrees_iff.mpr hs)
      refine ⟨lex.arrange facts, List.mem_map_of_mem hfacts, fun fact hfact => ?_⟩
      exact Fact.agrees_iff.mp (hagree fact (Lexicon.mem_arrange.mp hfact))
    · obtain ⟨facts, hfacts, rfl⟩ := List.mem_map.mp houtcome
      refine Fact.agrees_iff.mp (hv.agrees_of_alternative halts hequal hfacts fun fact hfact => ?_)
      exact Fact.agrees_iff.mpr (hall fact (Lexicon.mem_arrange.mpr hfact))

/-- An equivalence with a repeated operand, which is false, and an empty disjunction, which is
true. -/
theorem outcomes_exact_of_repetition :
    let A : Sentence := .atom "A"
    let s : Sentence := .iff A (.conj [A, A])
    let empty : Sentence := .disj []
    let lex := (({} : Lexicon).intern s).intern empty
    let tree := Tree.ofRoot (Assignment.ofFacts [⟨s, false⟩, ⟨empty, true⟩] 0)
    ∃ inf inf', decompose? lex tree 0 s 1 = some inf ∧ decompose? lex tree 0 empty 2 = some inf' ∧
      inf.outcomes = [[⟨A, true⟩, ⟨Sentence.conj [A, A], false⟩],
        [⟨A, false⟩, ⟨Sentence.conj [A, A], true⟩]] ∧
      (∀ truth : Sentence → Bool, (IsValuation fun s => truth s = true) →
        (truth s = false ↔
          ∃ outcome ∈ inf.outcomes, ∀ fact ∈ outcome, truth fact.sentence = fact.value)) ∧
      inf'.outcomes = [[⟨empty, false⟩]] ∧
      ∀ truth : Sentence → Bool, (IsValuation fun s => truth s = true) → truth empty ≠ true := by
  intro A s empty lex tree
  have hfires : (decompose? lex tree 0 s 1).any (fun inf => decide (inf.outcomes =
      [[⟨A, true⟩, ⟨Sentence.conj [A, A], false⟩], [⟨A, false⟩, ⟨Sentence.conj [A, A], true⟩]])) =
      true := by
    decide +kernel
  have hfires' : (decompose? lex tree 0 empty 2).isSome = true := by decide +kernel
  have hvalue : (tree.branch 0).models s = some false := by decide +kernel
  have hvalue' : (tree.branch 0).models empty = some true := by decide +kernel
  obtain ⟨inf, hinf, houtcomes⟩ := (Option.any_eq_true _ _).mp hfires
  obtain ⟨inf', hinf'⟩ := Option.isSome_iff_exists.mp hfires'
  obtain ⟨value, hmodels, -, hsound⟩ := outcomes_exact hinf
  obtain ⟨value', hmodels', habsurd, -⟩ := outcomes_exact hinf'
  obtain rfl : false = value := Option.some.inj (hvalue.symm.trans hmodels)
  obtain rfl : true = value' := Option.some.inj (hvalue'.symm.trans hmodels')
  refine ⟨inf, inf', hinf, hinf', of_decide_eq_true houtcomes, fun truth hv => ?_, habsurd rfl⟩
  obtain ⟨hforth, hback⟩ := hsound rfl truth hv
  refine ⟨hforth, ?_⟩
  rintro ⟨outcome, houtcome, hall⟩
  exact hback (fun xs h => by cases h) outcome houtcome hall

end Rule

end Tableau
