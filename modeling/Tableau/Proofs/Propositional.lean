/-
Propositional arguments are decided.  Only subsentences of the premises and goals ever
occur in the search, so that it ends.  If it ends without an open leaf, no valuation
refutes the argument; if it ends with a complete leaf, the branch of the leaf is a
valuation that does.
-/
import Tableau.Proofs.Hintikka
import Tableau.Proofs.Search.Heredity
import Tableau.Proofs.Search.Potential
import Tableau.Proofs.Soundness

namespace Tableau

/-! Completeness. -/

/-- The valuation that makes true what a branch makes true. -/
def Branch.valuation (branch : Branch) (s : Sentence) : Bool := branch.has s true

/-- The valuation of a complete branch agrees with all its propositional facts. -/
theorem Branch.IsHintikka.agrees_valuation {sorts : Sorts} {branch : Branch}
    (h : branch.IsHintikka sorts) {s : Sentence} (hs : s.isPropositional = true) {value : Bool}
    (hgives : branch.Gives ⟨s, value⟩) :
    (Fact.mk s value).Agrees fun x => x.truth branch.valuation = true := by
  induction s using Sentence.partsInduction generalizing value with
  | step s ih =>
      rcases Sentence.isPropositional_iff.mp hs with hatomic
        | ⟨hterminal, hquantifier, hequal, hparts⟩
      · have htruth : s.truth branch.valuation = branch.has s true := by
          cases s with
          | atom | pred => rfl
          | _ => simp [Sentence.isAtomic] at hatomic
        exact h.agrees_of_iff_gives hgives (by rw [htruth, Branch.Gives])
      · refine h.agrees_of_parts (Sentence.isValuation_truth _) hgives hterminal
          hquantifier hequal ?_
        intro x hx v hv
        exact ih x hx (hparts x hx) hv

/-! Termination. -/

theorem Sentence.length_alternatives?_le {s : Sentence} {value : Bool} {alternatives : List Outcome}
    (h : s.alternatives? value = some alternatives) : alternatives.length ≤ s.parts.length + 1 := by
  unfold Sentence.alternatives? at h
  split at h <;> cases h <;> simp [Sentence.parts]

namespace Prover

variable {lexicon : Lexicon} {premises goals : List Sentence} {options : Options} {p : Prover}

/-- All sentences that can occur in the search: the parts of those that it begins with. -/
def stock (premises goals : List Sentence) : List Sentence :=
  (rootFacts premises goals).flatMap fun fact => fact.sentence.subsentences

/-- A propositional sentence of the stock. -/
def IsStocked (premises goals : List Sentence) (s : Sentence) : Prop :=
  s.isPropositional = true ∧ s ∈ stock premises goals

/-- The rules stay within the stock. -/
theorem hereditary_isStocked (sorts : Sorts) (premises goals : List Sentence) :
    Rule.Hereditary sorts (IsStocked premises goals) (fun _ => True) where
  alternative := by
    rintro s value alternatives halts ⟨hs, hstock⟩ facts hfacts fact hfact
    have hpart : fact.sentence ∈ s.parts := by
      rcases Sentence.mem_parts_of_alternatives? halts hfacts hfact with ⟨⟨xs, rfl⟩, -⟩ | ⟨-, hpart⟩
      · simp [Sentence.isPropositional] at hs
      · exact hpart
    refine ⟨?_, ?_⟩
    · rcases Sentence.isPropositional_iff.mp hs with hatomic | ⟨-, -, -, hparts⟩
      · cases s <;> simp [Sentence.isAtomic, Sentence.alternatives?] at hatomic halts
      · exact hparts _ hpart
    · obtain ⟨root, hroot, hmem⟩ := List.mem_flatMap.mp hstock
      refine List.mem_flatMap.mpr ⟨root, hroot, Sentence.mem_subsentences_trans hmem ?_⟩
      exact Sentence.mem_subsentences_of_part hpart (Sentence.self_mem_subsentences _)
  dualAll binder body h := by simp [IsStocked, Sentence.isPropositional] at h
  dualEx binder body h := by simp [IsStocked, Sentence.isPropositional] at h
  instAll binder body term h := by simp [IsStocked, Sentence.isPropositional] at h
  instEx binder body term h := by simp [IsStocked, Sentence.isPropositional] at h
  const _ _ := trivial
  mentioned _ _ _ _ _ := trivial

/-- More than the outcomes that any sentence of the stock can have. -/
def width (premises goals : List Sentence) : Nat :=
  ((stock premises goals).map fun s => s.parts.length).sum + 2

theorem isTame_of_isStocked (hp : p.Coherent)
    (h : p.Inherits (IsStocked premises goals) fun _ => True) :
    p.IsTame (stock premises goals) (width premises goals) where
  decomposes := by
    intro leaf k value inf lex hfires
    obtain ⟨hs, hstock⟩ := h.has leaf k value (Branch.has_of_models hfires.models)
    refine ⟨hstock, fun binder terms facts heffect => ?_⟩
    have hyields := hfires.yields
    rw [heffect] at hyields
    obtain ⟨body, hbody, -⟩ := hyields.of_universal
    simp [hbody, Sentence.isPropositional] at hs
  few := by
    intro inf hinf
    obtain ⟨value, hvalue, hyields⟩ := (hp.queued inf hinf).exists_value
    obtain ⟨hs, hstock⟩ := h.has inf.node inf.origin value hvalue
    have hparts : inf.origin.parts.length ≤
        ((stock premises goals).map fun s => s.parts.length).sum :=
      List.single_le_sum (fun _ _ => Nat.zero_le _) _ (List.mem_map_of_mem hstock)
    obtain ⟨lex, alternatives, halts, heffect⟩ :=
      hyields.of_not_isQuantifier (Sentence.isQuantifier_of_isPropositional hs)
    have hlength := Sentence.length_alternatives?_le halts
    rw [Rule.outcomes_effect heffect]
    unfold width
    split
    · simp
    · rw [List.length_map]
      omega
  quantifierFree := by
    rw [List.eq_nil_iff_forall_not_mem]
    intro ob hob
    obtain ⟨hopen, hvalue⟩ := Rule.mem_openQuantifiers.mp (mem_obligations.mp hob).2
    obtain ⟨hquantifier, -, -⟩ := Rule.of_isOpenQuantifier hopen
    obtain ⟨hs, -⟩ := h.has ob.leaf ob.fact.key ob.fact.value (Branch.has_of_models hvalue)
    rw [Sentence.isQuantifier_of_isPropositional hs] at hquantifier
    contradiction

/-! The decision. -/

theorem isStocked_of_mem_rootFacts (hpremises : ∀ s ∈ premises, s.isPropositional = true)
    (hgoals : ∀ s ∈ goals, s.isPropositional = true) :
    ∀ fact ∈ rootFacts premises goals, IsStocked premises goals fact.sentence := by
  have hpropositional : ∀ fact ∈ rootFacts premises goals, fact.sentence.isPropositional = true :=
    of_mem_rootFacts hpremises hgoals fun _ hxs => Sentence.arePropositional_iff.mpr hxs
  exact fun fact hfact => ⟨hpropositional fact hfact,
    List.mem_flatMap.mpr ⟨fact, hfact, Sentence.self_mem_subsentences _⟩⟩

/-- A complete leaf refutes a propositional argument. -/
theorem exists_refutes_of_hasCountermodel {s : Search}
    (hs : (start lexicon premises goals options).Reaches s)
    (hroot : ∀ fact ∈ rootFacts premises goals, fact.sentence.isPropositional = true)
    (h : s.prover.hasCountermodel = true) :
    ∃ v : Sentence → Bool, Refutes (fun x => x.truth v = true) premises goals := by
  obtain ⟨leaf, hleaf, hcomplete⟩ := List.any_eq_true.mp h
  have hhintikka := isHintikka_of_isComplete hs.coherent hs.isAccountable hleaf hcomplete
  refine ⟨(s.prover.tree.branch leaf).valuation, ?_⟩
  apply (Sentence.isValuation_truth _).agrees_rootFacts.mp
  intro fact hfact
  have hgives := hs.gives_of_mem_rootFacts hfact (hs.coherent.open_lt leaf hleaf)
  have hagrees := hhintikka.agrees_valuation (hroot fact hfact) (by simpa using hgives)
  simpa using hagrees

/-- No valuation refutes a propositional argument that a search finds valid. -/
theorem not_refutes_of_isStocked {q : Prover}
    (h : (start lexicon premises goals options).MayReturn (q, .ok .valid))
    (hinherits : ∀ p, (start lexicon premises goals options).Leads p →
      p.Inherits (IsStocked premises goals) fun _ => True) (v : Sentence → Bool) :
    ¬ Refutes (fun s => s.truth v = true) premises goals := by
  have hvaluation := Sentence.isValuation_truth v
  refine not_refutes_of_valid (fun truth => truth = fun s => s.truth v = true)
    (fun truth htruth => htruth ▸ hvaluation) h ?_ rfl
  rintro p q hp htransition leaf hleaf inf hdue truth rfl hreal
  obtain ⟨value, hgives, hyields⟩ := hdue.exists_value (Leads.coherent hp coherent_start)
  obtain ⟨hs, -⟩ := (hinherits p hp).has leaf inf.origin value hgives
  exact ⟨_, rfl, hreal, hvaluation.exists_outcome hyields
    (Sentence.isQuantifier_of_isPropositional hs) (hreal _ hgives)⟩

/-- A search decides a propositional argument: without a time budget it ends, it finds the
argument invalid if a valuation of the atomic formulas refutes it, and valid if none
does. -/
theorem prove?_decides_propositional (lexicon : Lexicon) {premises goals : List Sentence}
    (hpremises : ∀ s ∈ premises, s.isPropositional = true)
    (hgoals : ∀ s ∈ goals, s.isPropositional = true) {options : Options}
    (hbudget : options.maxRuntime = none) :
    ∃ prover verdict enough,
      (∀ fuel ≥ enough,
        (start lexicon premises goals options).prove? fuel = some (prover, .ok verdict)) ∧
      (verdict = .invalid ↔
        ∃ v : Sentence → Bool, Refutes (fun s => s.truth v = true) premises goals) ∧
      (verdict = .valid ↔
        ¬ ∃ v : Sentence → Bool, Refutes (fun s => s.truth v = true) premises goals) := by
  have hroot := isStocked_of_mem_rootFacts hpremises hgoals
  have hinherits : ∀ p, (start lexicon premises goals options).Leads p →
      p.Inherits (IsStocked premises goals) fun _ => True := fun p hp =>
    (Leads.inherits hp (hereditary_isStocked _ premises goals) hroot).2
  have htame : ∀ p, (start lexicon premises goals options).Leads p →
      p.IsTame (stock premises goals) (width premises goals) := fun p hp =>
    isTame_of_isStocked (Leads.coherent hp coherent_start) (hinherits p hp)
  obtain ⟨⟨prover, result⟩, enough, hreturns⟩ :=
    exists_prove?_of_isTame (Nat.le_add_left 2 _) htame
  have hmay := mayReturn_of_prove? (hreturns enough (Nat.le_refl _))
  obtain ⟨verdict, rfl⟩ := hmay.exists_verdict fun p hp => by
    simp [instantiate_of_obligations_eq_nil (htame p hp).quantifierFree]
  refine ⟨prover, verdict, enough, hreturns, ?_⟩
  obtain ⟨s, hs, -, hdeserves⟩ := hmay.deserves
  cases verdict with
  | unfinished =>
      have hbudget' : s.prover.options.maxRuntime.isSome = true := hdeserves
      simp [hs.sameProblem.options, hbudget] at hbudget'
  | invalid =>
      have hrefuted :=
        exists_refutes_of_hasCountermodel hs (fun fact h => (hroot fact h).1) hdeserves
      exact ⟨by simpa using hrefuted, by simpa using hrefuted⟩
  | valid =>
      have hvalid :
          ¬ ∃ v : Sentence → Bool, Refutes (fun s => s.truth v = true) premises goals := by
        rintro ⟨v, hrefutes⟩
        exact not_refutes_of_isStocked hmay hinherits v hrefutes
      exact ⟨by simpa using hvalid, by simpa using hvalid⟩

/-- The law of Peirce is found valid, and the converse of an implication invalid. -/
theorem prove?_decides_peirce_and_converse :
    (∃ problem lexicon',
      Problem.read {} "(goals (implies (implies (implies A (B b)) A) A))" =
        (.ok problem, lexicon') ∧ ∃ prover enough, ∀ fuel ≥ enough,
          (start lexicon' problem.premises problem.goals {}).prove? fuel =
            some (prover, .ok .valid)) ∧
    ∃ problem lexicon',
      Problem.read {} "(premises (implies A (B b)) (or (B b) (B b)) (and)) (goals A)" =
        (.ok problem, lexicon') ∧ ∃ prover enough, ∀ fuel ≥ enough,
          (start lexicon' problem.premises problem.goals {}).prove? fuel =
            some (prover, .ok .invalid) := by
  let A : Sentence := .atom "A"
  let B : Sentence := .pred "B" [.const "b" SortId.object]
  let peirce : Sentence := .imp (.imp (.imp A B) A) A
  constructor
  · obtain ⟨problem, lexicon', hread, htest⟩ := Problem.exists_read_of_any {}
      "(goals (implies (implies (implies A (B b)) A) A))"
      (fun problem _ => decide (problem.premises = [] ∧ problem.goals = [peirce]))
      (by decide +kernel)
    obtain ⟨hpremises, hgoals⟩ := of_decide_eq_true htest
    refine ⟨problem, lexicon', hread, ?_⟩
    rw [hpremises, hgoals]
    obtain ⟨prover, verdict, enough, hreturns, -, hvalid⟩ :=
      prove?_decides_propositional lexicon'
        (by decide : ∀ s ∈ ([] : List Sentence), s.isPropositional = true)
        (by decide : ∀ s ∈ [peirce], s.isPropositional = true)
        (rfl : ({} : Options).maxRuntime = none)
    obtain rfl : verdict = .valid := hvalid.mpr <| by
      rintro ⟨v, -, hfalse⟩
      obtain ⟨goal, hgoal, hfalse⟩ := hfalse (List.cons_ne_nil _ _)
      obtain rfl : goal = peirce := by simpa using hgoal
      revert hfalse
      cases hA : v A <;> cases hB : v B <;> simp_all [peirce, A, B, Sentence.truth]
    exact ⟨prover, enough, hreturns⟩
  · obtain ⟨problem, lexicon', hread, htest⟩ := Problem.exists_read_of_any {}
      "(premises (implies A (B b)) (or (B b) (B b)) (and)) (goals A)"
      (fun problem _ => decide (problem.premises = [.imp A B, .disj [B, B], .conj []] ∧
        problem.goals = [A]))
      (by decide +kernel)
    obtain ⟨hpremises, hgoals⟩ := of_decide_eq_true htest
    refine ⟨problem, lexicon', hread, ?_⟩
    rw [hpremises, hgoals]
    obtain ⟨prover, verdict, enough, hreturns, hinvalid, -⟩ :=
      prove?_decides_propositional lexicon'
        (by decide : ∀ s ∈ [Sentence.imp A B, .disj [B, B], .conj []], s.isPropositional = true)
        (by decide : ∀ s ∈ [A], s.isPropositional = true)
        (rfl : ({} : Options).maxRuntime = none)
    obtain rfl : verdict = .invalid := hinvalid.mpr ⟨fun s => s == B, by decide⟩
    exact ⟨prover, enough, hreturns⟩

end Prover

end Tableau
