/-
What sentences inherit.  A property that every rule hands down, from its sentence to
the facts that it yields, holds of all sentences in a search if it holds of the
premises and of what is to be refuted.
-/
import Tableau.Proofs.Search.Reach

namespace Tableau

namespace Rule

/-- Every rule hands a property down, from its sentence and the terms that it is
instantiated for to what it yields. -/
structure HandsDown (sorts : Sorts) (onSentence onTerm : Sentence → Prop) : Prop where
  alternative : ∀ s value alternatives, s.alternatives? value = some alternatives → onSentence s →
    ∀ facts ∈ alternatives, ∀ fact ∈ facts, onSentence fact.sentence
  dualAll : ∀ binder body, onSentence (.all binder body) → onSentence (.ex binder (.neg body))
  dualEx : ∀ binder body, onSentence (.ex binder body) → onSentence (.all binder (.neg body))
  instAll : ∀ binder body term, onSentence (.all binder body) → Instantiates sorts binder term →
    onTerm term → onSentence (body.subst binder term)
  instEx : ∀ binder body term, onSentence (.ex binder body) → Instantiates sorts binder term →
    onTerm term → onSentence (body.subst binder term)

/-- A property of sentences, with one of ground terms, that is handed down and passes from
sentences to the terms inside. -/
structure Hereditary (sorts : Sorts) (onSentence onTerm : Sentence → Prop) : Prop
    extends HandsDown sorts onSentence onTerm where
  const : ∀ name sort, onTerm (.const name sort)
  mentioned : ∀ s term, onSentence s → term ∈ s.subsentences → term.isGroundTerm = true →
    onTerm term

/-- Two properties that are handed down are handed down together. -/
theorem Hereditary.and {sorts : Sorts} {onSentence onTerm onSentence' onTerm' : Sentence → Prop}
    (h : Hereditary sorts onSentence onTerm) (h' : Hereditary sorts onSentence' onTerm') :
    Hereditary sorts (fun s => onSentence s ∧ onSentence' s)
      (fun term => onTerm term ∧ onTerm' term) where
  alternative s value alternatives halts hs facts hfacts fact hfact :=
    ⟨h.alternative s value alternatives halts hs.1 facts hfacts fact hfact,
      h'.alternative s value alternatives halts hs.2 facts hfacts fact hfact⟩
  dualAll binder body hs := ⟨h.dualAll binder body hs.1, h'.dualAll binder body hs.2⟩
  dualEx binder body hs := ⟨h.dualEx binder body hs.1, h'.dualEx binder body hs.2⟩
  instAll binder body term hs hinst hterm :=
    ⟨h.instAll binder body term hs.1 hinst hterm.1, h'.instAll binder body term hs.2 hinst hterm.2⟩
  instEx binder body term hs hinst hterm :=
    ⟨h.instEx binder body term hs.1 hinst hterm.1, h'.instEx binder body term hs.2 hinst hterm.2⟩
  const name sort := ⟨h.const name sort, h'.const name sort⟩
  mentioned s term hs hmem hground :=
    ⟨h.mentioned s term hs.1 hmem hground, h'.mentioned s term hs.2 hmem hground⟩

/-- What a rule yields inherits the property. -/
theorem HandsDown.outcomes {sorts : Sorts} {onSentence onTerm : Sentence → Prop}
    (h : HandsDown sorts onSentence onTerm) {s : Sentence} {value : Bool} {inf : Inference}
    (hyields : Yields sorts s value inf.effect) (hs : onSentence s)
    (hterms : ∀ term ∈ inf.terms, onTerm term) :
    ∀ outcome ∈ inf.outcomes, ∀ fact ∈ outcome, onSentence fact.sentence := by
  intro outcome houtcome fact hfact
  generalize heffect : inf.effect = eff at hyields
  cases hyields with
  | connective lex halts =>
      rw [outcomes_effect heffect] at houtcome
      split at houtcome
      · obtain rfl : outcome = _ := by simpa using houtcome
        obtain rfl : fact = _ := by simpa using hfact
        exact hs
      · obtain ⟨facts, hfacts, rfl⟩ := List.mem_map.mp houtcome
        exact h.alternative _ _ _ halts hs facts hfacts fact (Lexicon.mem_arrange.mp hfact)
  | dualAll lex =>
      obtain rfl : outcome = _ := by simpa [Inference.outcomes, heffect] using houtcome
      obtain rfl : fact = _ := by simpa using hfact
      exact h.dualAll _ _ hs
  | dualEx lex =>
      obtain rfl : outcome = _ := by simpa [Inference.outcomes, heffect] using houtcome
      obtain rfl : fact = _ := by simpa using hfact
      exact h.dualEx _ _ hs
  | universal lex hne hinst =>
      simp only [Inference.terms, heffect] at hterms
      obtain rfl : outcome = _ := by simpa [Inference.outcomes, heffect] using houtcome
      obtain ⟨term, hterm, rfl⟩ := List.mem_map.mp (Lexicon.mem_arrange.mp hfact)
      exact h.instAll _ _ term hs (hinst term hterm) (hterms term hterm)
  | existential lex hsort hlast hinst =>
      simp only [Inference.terms, heffect] at hterms
      simp only [Inference.outcomes, heffect, List.mem_map] at houtcome
      obtain ⟨term, hterm, rfl⟩ := houtcome
      obtain rfl : fact = _ := by simpa using hfact
      exact h.instEx _ _ term hs (hinst term hterm) (hterms term hterm)

end Rule

namespace Prover

variable {p q : Prover} {onSentence onTerm : Sentence → Prop}

/-- All sentences with a value, all terms that universal sentences have been
instantiated for and all that is pending have a property. -/
structure Inherits (p : Prover) (onSentence onTerm : Sentence → Prop) : Prop where
  has : ∀ id k value, (p.tree.branch id).has k value = true → onSentence k.sentence
  instances : ∀ id k term, term ∈ (p.tree.branch id).instancesOf k → onTerm term
  pending : ∀ inf ∈ p.pending, ∀ outcome ∈ inf.outcomes, ∀ fact ∈ outcome,
    onSentence fact.sentence

/-- A transition hands on what all fired rules have, and what was there before. -/
theorem Transition.inherits_of_fired {onSentence' onTerm' : Sentence → Prop} (h : Transition p q)
    (hp : p.Coherent) (hinh : p.Inherits onSentence onTerm)
    (hsentence : ∀ s, onSentence s → onSentence' s) (hterm : ∀ term, onTerm term → onTerm' term)
    (hfired : ∀ inf, IsFired p inf q.lexicon → (∀ term ∈ inf.terms, onTerm' term) ∧
      ∀ outcome ∈ inf.outcomes, ∀ fact ∈ outcome, onSentence' fact.sentence) :
    q.Inherits onSentence' onTerm' := by
  have hactive : ∀ inf, inf ∈ p.pending ∨ IsFired p inf q.lexicon →
      ∀ outcome ∈ inf.outcomes, ∀ fact ∈ outcome, onSentence' fact.sentence := by
    rintro inf (hold | hnew) outcome houtcome fact hfact
    · exact hsentence _ (hinh.pending inf hold outcome houtcome fact hfact)
    · exact (hfired inf hnew).2 outcome houtcome fact hfact
  have hperforms : ∀ inf, Performs p q inf → inf ∈ p.pending ∨ IsFired p inf q.lexicon :=
    fun inf hinf => hinf.imp (fun hperm => hperm.mem_iff.mpr List.mem_cons_self) And.left
  refine ⟨?_, ?_, ?_⟩
  · intro id k value hhas
    rcases h.has_cases hp hhas with ⟨id, hold⟩ | ⟨inf, hinf, outcome, houtcome, hfact⟩
    · exact hsentence _ (hinh.has id k value hold)
    · exact hactive inf (hperforms inf hinf) outcome houtcome _ hfact
  · intro id k term hinst
    rcases h.instances_cases hp hinst with
      ⟨id', hold, -⟩ | ⟨leaf, hleaf, value, inf, hfires, -, hnew, -⟩
    · exact hterm _ (hinh.instances id' k term hold)
    · exact (hfired inf ⟨leaf, hleaf, k, value, hfires⟩).1 term
        (Inference.mem_terms_of_mem_terms_addition hnew)
  · exact fun inf hinf => hactive inf (h.pending_cases hinf)

variable (hrules : Rule.Hereditary p.lexicon.sorts onSentence onTerm)
include hrules

theorem Inherits.visible (h : p.Inherits onSentence onTerm) {id : NodeId} {term : Sentence}
    (hvisible : (p.tree.branch id).Visible term) : onTerm term := by
  rcases hvisible with ⟨k, value, hvalue, hterm, hground⟩ | ⟨k, hterm⟩
  · exact hrules.mentioned _ term (h.has id k value hvalue) hterm hground
  · exact h.instances id k term hterm

/-- What a rule that is fired yields inherits the property. -/
theorem Inherits.fired (h : p.Inherits onSentence onTerm) {inf : Inference} {lex : Lexicon}
    (hfired : Transition.IsFired p inf lex) :
    (∀ term ∈ inf.terms, onTerm term) ∧
      ∀ outcome ∈ inf.outcomes, ∀ fact ∈ outcome, onSentence fact.sentence := by
  obtain ⟨leaf, -, k, value, hfires⟩ := hfired
  have hterms : ∀ term ∈ inf.terms, onTerm term := by
    intro term hterm
    rcases hfires.terms term hterm with hvisible | ⟨sort, rfl, -⟩
    · exact h.visible hrules hvisible
    · exact hrules.const _ sort
  have hk := h.has leaf k value (Branch.has_of_models hfires.models)
  exact ⟨hterms, hrules.outcomes hfires.yields hk hterms⟩

theorem Transition.inherits (h : Transition p q) (hp : p.Coherent)
    (hinh : p.Inherits onSentence onTerm) : q.Inherits onSentence onTerm :=
  h.inherits_of_fired hp hinh (fun _ hs => hs) (fun _ hterm => hterm)
    fun _ hfired => hinh.fired hrules hfired

end Prover

namespace Prover

/-- A property that the rules hand down holds of all sentences in a search if it holds of
those that the search begins with. -/
theorem Leads.inherits {lexicon : Lexicon} {premises goals : List Sentence} {options : Options}
    {p : Prover} {onSentence onTerm : Sentence → Prop}
    (h : Leads (start lexicon premises goals options) p)
    (hrules : Rule.Hereditary lexicon.sorts onSentence onTerm)
    (hroot : ∀ fact ∈ rootFacts premises goals, onSentence fact.sentence) :
    p.lexicon.sorts = lexicon.sorts ∧ p.Inherits onSentence onTerm := by
  refine (h.preserves (P := fun p =>
    p.lexicon.sorts = lexicon.sorts ∧ p.Inherits onSentence onTerm) ?_ coherent_start ?_).2
  · rintro p q hp ⟨hsorts, hinh⟩ htransition
    refine ⟨htransition.lexicon_growsTo.sorts.trans hsorts, ?_⟩
    exact htransition.inherits (hsorts ▸ hrules) hp hinh
  · refine ⟨(growsTo_lexicon_start ..).sorts, ?_, ?_, ?_⟩
    · intro id k value hhas
      exact hroot _ (has_branch_start.mp hhas).2
    · intro id k term hterm
      rw [instancesOf_branch_start] at hterm
      simp at hterm
    · simp

end Prover

end Tableau
