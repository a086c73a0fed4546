/-
What the rules yield.  A rule is fired for a sentence with a value at a node, and
its effect is determined by the sentence, the value and the terms of the branch.
A rule has been carried out on a branch that has all facts of one of its outcomes.
-/
import Tableau.Proofs.Lexicon
import Tableau.Proofs.Tree

namespace Tableau

namespace Rule

variable {sorts : Sorts} {s : Sentence} {value : Bool}

/-- A ground term that the variable of a quantifier ranges over. -/
structure Instantiates (sorts : Sorts) (binder term : Sentence) : Prop where
  ground : term.isGroundTerm = true
  sorted : ∃ bound sort, binder.sort? = some bound ∧ term.sort? = some sort ∧
    sorts.compatible sort bound = true

/-- The rule of a sentence with a value has been carried out: all facts of one of
its outcomes are there.  A sentence without any alternative is absurd and gets the
opposite value.  A true universal sentence is never done with. -/
inductive IsCarriedOut (sorts : Sorts) (given : Fact → Prop) : Sentence → Bool → Prop where
  | alternative {s : Sentence} {value : Bool} {alternatives : List Outcome} {facts : Outcome} :
      s.alternatives? value = some alternatives → facts ∈ alternatives →
      (∀ fact ∈ facts, given fact) → IsCarriedOut sorts given s value
  | absurd {s : Sentence} {value : Bool} :
      s.alternatives? value = some [] → given ⟨s, !value⟩ → IsCarriedOut sorts given s value
  | dualAll {binder body : Sentence} :
      given ⟨Sentence.ex binder (.neg body), true⟩ →
        IsCarriedOut sorts given (.all binder body) false
  | dualEx {binder body : Sentence} :
      given ⟨Sentence.all binder (.neg body), true⟩ →
        IsCarriedOut sorts given (.ex binder body) false
  | witness {binder body term : Sentence} :
      Instantiates sorts binder term → given ⟨body.subst binder term, true⟩ →
      IsCarriedOut sorts given (.ex binder body) true

/-- More facts do not undo what has been carried out. -/
theorem IsCarriedOut.mono {given given' : Fact → Prop} (h : IsCarriedOut sorts given s value)
    (himp : ∀ fact, given fact → given' fact) : IsCarriedOut sorts given' s value := by
  cases h with
  | alternative halts hfacts hgiven =>
      exact .alternative halts hfacts fun fact hfact => himp fact (hgiven fact hfact)
  | absurd halts hgiven => exact .absurd halts (himp _ hgiven)
  | dualAll hgiven => exact .dualAll (himp _ hgiven)
  | dualEx hgiven => exact .dualEx (himp _ hgiven)
  | witness hterm hgiven => exact .witness hterm (himp _ hgiven)

/-- The outcomes that the rule of a sentence with a value can have: an alternative of a
connective, the dual of a false quantified sentence, or an instance of a true existential
one. -/
inductive IsOutcome (sorts : Sorts) : Sentence → Bool → Outcome → Prop where
  | alternative {s : Sentence} {value : Bool} {alternatives : List Outcome} {facts : Outcome} :
      s.alternatives? value = some alternatives → facts ∈ alternatives →
      IsOutcome sorts s value facts
  | dualAll {binder body : Sentence} :
      IsOutcome sorts (.all binder body) false [⟨Sentence.ex binder (.neg body), true⟩]
  | dualEx {binder body : Sentence} :
      IsOutcome sorts (.ex binder body) false [⟨Sentence.all binder (.neg body), true⟩]
  | witness {binder body term : Sentence} :
      Instantiates sorts binder term →
      IsOutcome sorts (.ex binder body) true [⟨body.subst binder term, true⟩]

/-- A rule that has been carried out has one of its outcomes, or the sentence is absurd. -/
theorem IsCarriedOut.exists_outcome {given : Fact → Prop} (h : IsCarriedOut sorts given s value) :
    (∃ outcome, IsOutcome sorts s value outcome ∧ ∀ fact ∈ outcome, given fact) ∨
      given ⟨s, !value⟩ := by
  cases h with
  | alternative halts hfacts hgiven => exact Or.inl ⟨_, .alternative halts hfacts, hgiven⟩
  | absurd _ hgiven => exact Or.inr hgiven
  | dualAll hgiven => exact Or.inl ⟨_, .dualAll, by simpa using hgiven⟩
  | dualEx hgiven => exact Or.inl ⟨_, .dualEx, by simpa using hgiven⟩
  | witness hterm hgiven => exact Or.inl ⟨_, .witness hterm, by simpa using hgiven⟩

/-- The effects that the rule of a sentence with a value can have.  The lexicon
only decides in which order facts are listed. -/
inductive Yields (sorts : Sorts) : Sentence → Bool → Effect → Prop where
  | connective {s : Sentence} {value : Bool} {alternatives : List Outcome} (lex : Lexicon) :
      s.alternatives? value = some alternatives →
      Yields sorts s value (effect lex s value alternatives)
  | dualAll {binder body : Sentence} (lex : Lexicon) :
      Yields sorts (.all binder body) false
        (.decomposition (lex.arrange [⟨Sentence.ex binder (.neg body), true⟩]))
  | dualEx {binder body : Sentence} (lex : Lexicon) :
      Yields sorts (.ex binder body) false
        (.decomposition (lex.arrange [⟨Sentence.all binder (.neg body), true⟩]))
  | universal {binder body : Sentence} {terms : List Sentence} (lex : Lexicon) :
      terms ≠ [] → (∀ term ∈ terms, Instantiates sorts binder term) →
      Yields sorts (.all binder body) true
        (.universal binder terms
          (lex.arrange (terms.map fun term => (body.subst binder term).valued true)))
  | existential {binder body : Sentence} {terms : List Sentence} {name : String} {sort : SortId}
      (lex : Lexicon) :
      binder.sort? = some sort → terms.getLast? = some (.const name sort) →
      (∀ term ∈ terms, Instantiates sorts binder term) →
      Yields sorts (.ex binder body) true
        (.existential binder terms
          (terms.map fun term => lex.arrange [(body.subst binder term).valued true]))

/-- The outcomes of the rule for a connective are its alternatives, or that the
sentence has the opposite value if there is none. -/
theorem outcomes_effect {inf : Inference} {lex : Lexicon} {alternatives : List Outcome}
    (h : inf.effect = effect lex s value alternatives) :
    inf.outcomes =
      if alternatives = [] then [lex.arrange [⟨s, !value⟩]] else alternatives.map lex.arrange := by
  unfold Inference.outcomes
  rw [h]
  match alternatives with
  | [] => rfl
  | [facts] => rfl
  | first :: second :: rest => rfl

/-- The rule for a sentence that is not quantified follows its alternatives. -/
theorem Yields.of_not_isQuantifier {eff : Effect} (h : Yields sorts s value eff)
    (hs : s.isQuantifier = false) :
    ∃ lex alternatives, s.alternatives? value = some alternatives ∧
      eff = effect lex s value alternatives := by
  cases h with
  | connective lex halts => exact ⟨lex, _, halts, rfl⟩
  | dualAll | dualEx | universal | existential => simp [Sentence.isQuantifier] at hs

/-- Only a true universal sentence is instantiated for many terms at once. -/
theorem Yields.of_universal {binder : Sentence} {terms : List Sentence} {facts : Outcome}
    (h : Yields sorts s value (.universal binder terms facts)) :
    ∃ body, s = .all binder body ∧ value = true ∧
      (∀ term ∈ terms, Instantiates sorts binder term) ∧
      ∀ fact, fact ∈ facts ↔ ∃ term ∈ terms, (body.subst binder term).valued true = fact := by
  generalize heffect : Effect.universal binder terms facts = eff at h
  cases h with
  | @connective _ _ alternatives lex halts =>
      match alternatives with
      | [] | [facts] | first :: second :: rest => simp [effect] at heffect
  | dualAll | dualEx | existential => cases heffect
  | @universal _ body _ lex hne hterms =>
      cases heffect
      exact ⟨body, rfl, rfl, hterms, by simp⟩

/-- A true universal sentence has no other rule. -/
theorem Yields.exists_universal {binder body : Sentence} {eff : Effect}
    (h : Yields sorts (.all binder body) true eff) :
    ∃ terms facts, eff = .universal binder terms facts := by
  cases h with
  | connective lex halts => simp [Sentence.alternatives?] at halts
  | universal lex hne hterms => exact ⟨_, _, rfl⟩

/-- Every outcome carries out the rule, unless a universal sentence is instantiated. -/
theorem Yields.isCarriedOut {inf : Inference} (h : Yields sorts s value inf.effect)
    (huniversal : ∀ binder terms facts, inf.effect ≠ .universal binder terms facts)
    {outcome : Outcome} (houtcome : outcome ∈ inf.outcomes) :
    IsCarriedOut sorts (· ∈ outcome) s value := by
  generalize heffect : inf.effect = eff at h
  cases h with
  | @connective _ _ alternatives lex halts =>
      rw [outcomes_effect heffect] at houtcome
      split at houtcome
      · next hnil =>
          obtain rfl : outcome = _ := by simpa using houtcome
          exact .absurd (hnil ▸ halts) (by simp)
      · obtain ⟨facts, hfacts, rfl⟩ := List.mem_map.mp houtcome
        exact .alternative halts hfacts fun fact hfact => by simpa using hfact
  | dualAll lex =>
      obtain rfl : outcome = _ := by simpa [Inference.outcomes, heffect] using houtcome
      exact .dualAll (by simp)
  | dualEx lex =>
      obtain rfl : outcome = _ := by simpa [Inference.outcomes, heffect] using houtcome
      exact .dualEx (by simp)
  | universal lex hne hterms => exact absurd heffect (huniversal _ _ _)
  | existential lex hsort hlast hterms =>
      simp only [Inference.outcomes, heffect, List.mem_map] at houtcome
      obtain ⟨term, hterm, rfl⟩ := houtcome
      exact .witness (hterms term hterm) (by simp [Sentence.valued])

/-- A rule has at least one outcome. -/
theorem Yields.outcomes_ne_nil {inf : Inference} (h : Yields sorts s value inf.effect) :
    inf.outcomes ≠ [] := by
  generalize heffect : inf.effect = eff at h
  cases h with
  | connective lex halts =>
      rw [outcomes_effect heffect]
      split <;> simp_all
  | dualAll | dualEx | universal => simp [Inference.outcomes, heffect]
  | existential lex hsort hlast hterms =>
      simp only [Inference.outcomes, heffect, ne_eq, List.map_eq_nil_iff]
      rintro rfl
      simp at hlast

/-- A rule that does not split has only one outcome. -/
theorem Yields.outcomes_of_not_isBranching {inf : Inference}
    (h : Yields sorts s value inf.effect) (hsplit : inf.isBranching = false) :
    ∃ outcome, inf.outcomes = [outcome] := by
  unfold Inference.isBranching at hsplit
  unfold Inference.outcomes
  generalize inf.effect = eff at h hsplit
  cases h with
  | @connective _ _ alternatives lex halts =>
      match alternatives with
      | [] | [facts] => exact ⟨_, rfl⟩
      | first :: second :: rest => simp [effect] at hsplit
  | dualAll | dualEx | universal => exact ⟨_, rfl⟩
  | @existential binder body terms name sort lex hsort hlast hterms =>
      match terms with
      | [] => simp at hlast
      | [term] => exact ⟨_, rfl⟩
      | first :: second :: rest => simp at hsplit

end Rule

namespace Inference

/-- What an inference that does not split adds at its node. -/
def addition (inf : Inference) : Addition :=
  match inf.effect with
  | .universal _ terms facts => { facts, terms := terms.map (inf.origin.key, ·) }
  | _ => { facts := inf.outcomes.flatten, marks := [inf.origin.key] }

/-- What is added is all that the outcomes hold. -/
theorem mem_facts_addition {inf : Inference} {fact : Fact} :
    fact ∈ inf.addition.facts ↔ ∃ outcome ∈ inf.outcomes, fact ∈ outcome := by
  unfold addition
  split
  · next heffect => simp [outcomes, heffect]
  · simp

theorem mem_marks_addition {inf : Inference} {k : Key} (h : k ∈ inf.addition.marks) :
    k = inf.origin.key ∧ ∀ binder terms facts, inf.effect ≠ .universal binder terms facts := by
  unfold addition at h
  split at h
  · simp at h
  · next hne => exact ⟨by simpa using h, hne⟩

theorem origin_mem_marks_addition {inf : Inference}
    (h : ∀ binder terms facts, inf.effect ≠ .universal binder terms facts) :
    inf.origin.key ∈ inf.addition.marks := by
  unfold addition
  split
  · next heffect => exact absurd heffect (h _ _ _)
  · exact List.mem_cons_self

theorem mem_terms_addition {inf : Inference} {k : Key} {term : Sentence} :
    (k, term) ∈ inf.addition.terms ↔
      k = inf.origin.key ∧ ∃ binder terms facts,
        inf.effect = .universal binder terms facts ∧ term ∈ terms := by
  unfold addition
  split
  · next binder terms facts heffect =>
      simp only [heffect, List.mem_map, Prod.mk.injEq]
      constructor
      · rintro ⟨t, ht, rfl, rfl⟩
        exact ⟨rfl, binder, terms, facts, rfl, ht⟩
      · rintro ⟨rfl, _, _, _, heq, ht⟩
        cases heq
        exact ⟨term, ht, rfl, rfl⟩
  · next hne =>
      simp only [List.not_mem_nil, false_iff]
      rintro ⟨-, binder, terms, facts, heffect, -⟩
      exact hne binder terms facts heffect

/-- The instances that are remembered are among the facts that are added. -/
theorem exists_of_mem_terms_addition {sorts : Sorts} {value : Bool} {inf : Inference} {k : Key}
    {term : Sentence} (h : Rule.Yields sorts inf.origin value inf.effect)
    (hterm : (k, term) ∈ inf.addition.terms) :
    ∃ binder body, k.sentence = .all binder body ∧ Rule.Instantiates sorts binder term ∧
      ⟨body.subst binder term, true⟩ ∈ inf.addition.facts := by
  obtain ⟨rfl, binder, terms, facts, heffect, hterm⟩ := mem_terms_addition.mp hterm
  rw [heffect] at h
  obtain ⟨body, hbody, -, hinst, hfacts⟩ := h.of_universal
  refine ⟨binder, body, hbody, hinst term hterm, mem_facts_addition.mpr ⟨facts, ?_, ?_⟩⟩
  · simp [outcomes, heffect]
  · exact (hfacts _).mpr ⟨term, hterm, rfl⟩

/-- An inference that does not split merges its only outcome into its node.  Then it marks its
origin, or remembers the terms that it has instantiated it for. -/
theorem apply_cases {sorts : Sorts} {s : Sentence} {value : Bool} {inf : Inference}
    (h : Rule.Yields sorts s value inf.effect) (hsplit : inf.isBranching = false) :
    ∃ facts,
      (inf.addition = { facts, marks := [inf.origin.key] } ∧ ∀ tree leaves,
        (inf.apply tree leaves).1 = (inf.decomposeOrigin (inf.mergeFacts facts tree).1).1) ∨
      ∃ terms, inf.addition = { facts, terms := terms.map (inf.origin.key, ·) } ∧
        ∀ tree leaves, (inf.apply tree leaves).1 =
          (Update.each (Tree.instantiate inf.node inf.origin) terms
            (inf.mergeFacts facts tree).1).1 := by
  have hplain : ∀ facts, (inf.effect = .decomposition facts ∨
      ∃ binder witnesses, inf.effect = .existential binder witnesses [facts]) →
      inf.addition = { facts, marks := [inf.origin.key] } ∧ ∀ tree leaves,
        (inf.apply tree leaves).1 = (inf.decomposeOrigin (inf.mergeFacts facts tree).1).1 := by
    rintro facts (heffect | ⟨binder, witnesses, heffect⟩)
    all_goals
      refine ⟨by simp [addition, outcomes, heffect], fun tree leaves => ?_⟩
      simp only [apply, heffect]
      rfl
  simp only [isBranching] at hsplit
  generalize heffect : inf.effect = eff at h hsplit
  cases h with
  | @connective _ _ alternatives lex halts =>
      match alternatives with
      | [] | [facts] => exact ⟨_, Or.inl (hplain _ (Or.inl heffect))⟩
      | first :: second :: rest => simp [Rule.effect] at hsplit
  | dualAll lex | dualEx lex => exact ⟨_, Or.inl (hplain _ (Or.inl heffect))⟩
  | @universal binder body terms lex hne hterms =>
      refine ⟨lex.arrange (terms.map fun term => (body.subst binder term).valued true),
        Or.inr ⟨terms, by simp only [addition, heffect], fun tree leaves => ?_⟩⟩
      simp only [apply, heffect]
      rfl
  | @existential binder body terms name sort lex hsort hlast hterms =>
      match terms with
      | [] => simp at hlast
      | [term] => exact ⟨_, Or.inl (hplain _ (Or.inr ⟨_, _, heffect⟩))⟩
      | first :: second :: rest => simp at hsplit

/-- An inference that does not split adds its only outcome. -/
theorem adds_apply {tree : Tree} {sorts : Sorts} {s : Sentence} {value : Bool} {inf : Inference}
    (h : Rule.Yields sorts s value inf.effect) (hsplit : inf.isBranching = false)
    (hcoh : tree.Coherent) (hnode : inf.node < tree.size) (leaves : List NodeId) :
    tree.Adds inf.node inf.addition (inf.apply tree leaves).1 := by
  obtain ⟨facts, ⟨hadded, happly⟩ | ⟨terms, hadded, happly⟩⟩ := apply_cases h hsplit
  all_goals
    rw [hadded, happly]
    have hfacts := Tree.adds_merge_ofFacts hcoh hnode facts inf.number
  · have hmark := Tree.adds_decompose (hfacts.coherent hcoh) (by rwa [hfacts.size]) inf.origin.key
    exact (hfacts.trans hmark).congr (by simp) (by simp) (by simp)
  · have hused := Tree.adds_each_instantiate (hfacts.coherent hcoh) (by rwa [hfacts.size])
      inf.origin.key terms
    exact (hfacts.trans hused).congr (by simp) (by simp) (by simp)

/-- An inference that splits grafts its outcomes below the leaves. -/
theorem apply_eq_split {inf : Inference} (h : inf.isBranching = true) (tree : Tree)
    (leaves : List NodeId) :
    inf.apply tree leaves = inf.split inf.outcomes (inf.decomposeOrigin tree).1 leaves := by
  unfold isBranching at h
  unfold apply outcomes
  split at h
  · next heffect => rw [heffect]
  · next alternatives heffect =>
      rw [heffect]
      match alternatives with
      | [] => simp at h
      | [facts] => simp at h
      | first :: second :: rest => rfl
  all_goals contradiction

end Inference

end Tableau
