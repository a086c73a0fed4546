/-
Evaluating countermodels.  On a complete branch the values of basic sentences decide all
others: every sentence that has a value evaluates to it, if quantifiers range over the
terms of the branch.  So the countermodels of a search make the premises true and what
is to be refuted false.
-/
import Tableau.Proofs.ClosedBranch
import Tableau.Proofs.FirstOrder

namespace Tableau

/-! Kleene combinations. -/

section Kleene

variable {α : Type} {value : α → Option Bool} {dominant truth : Bool} {xs : List α} {x : α}

/-- The dominant value needs one element, the other one needs all of them. -/
theorem kleene_eq_some_iff : kleene dominant value xs = some truth ↔
    if truth = dominant then ∃ x ∈ xs, value x = some truth
      else ∀ x ∈ xs, value x = some truth := by
  induction xs with
  | nil => cases truth <;> cases dominant <;> simp [kleene]
  | cons x xs ih =>
      cases hx : value x with
      | none => cases truth <;> cases dominant <;> simp_all [kleene]
      | some first => cases first <;> cases truth <;> cases dominant <;> simp_all [kleene]

theorem kleene_of_mem (hx : x ∈ xs) (h : value x = some truth) :
    kleene truth value xs = some truth := by
  rw [kleene_eq_some_iff, if_pos rfl]
  exact ⟨x, hx, h⟩

theorem kleene_of_forall (h : ∀ x ∈ xs, value x = some truth) :
    kleene (!truth) value xs = some truth := by
  rw [kleene_eq_some_iff, if_neg (by simp)]
  exact h

theorem kleene_attach (dominant : Bool) (value : α → Option Bool) (xs : List α) :
    kleene dominant (fun x : { x // x ∈ xs } => value x.1) xs.attach =
      kleene dominant value xs := by
  rw [← kleene_map dominant value Subtype.val, List.attach_map_subtype_val]

theorem kleeneInstances_of_mem (hx : x ∈ xs) (h : value x = some truth) :
    kleeneInstances truth value xs = some truth := by
  rw [kleeneInstances, if_neg (by simp [List.ne_nil_of_mem hx])]
  exact kleene_of_mem hx h

theorem kleeneInstances_of_forall (hx : x ∈ xs) (h : ∀ x ∈ xs, value x = some truth) :
    kleeneInstances (!truth) value xs = some truth := by
  rw [kleeneInstances, if_neg (by simp [List.ne_nil_of_mem hx])]
  exact kleene_of_forall h

theorem kleeneInstances_attach (dominant : Bool) (value : α → Option Bool) (xs : List α) :
    kleeneInstances dominant (fun x : { x // x ∈ xs } => value x.1) xs.attach =
      kleeneInstances dominant value xs := by
  have hempty : xs.attach.isEmpty = xs.isEmpty := by cases xs <;> simp
  rw [kleeneInstances, kleene_attach, hempty, kleeneInstances]

end Kleene

namespace Lexicon

variable {lex : Lexicon} {lookup : Sentence → Option Bool} {domain : List Sentence}
  {s v x inst : Sentence} {xs : List Sentence} {value : Bool}

/-- The value of a sentence if it is entered. -/
def evaluateEntered (lex : Lexicon) (lookup : Sentence → Option Bool) (domain : List Sentence)
    (s : Sentence) : Option Bool :=
  if lex.contains s then lex.evaluate lookup domain s else none

theorem evaluateEntered_of_mem (hs : s ∈ lex.entries) :
    lex.evaluateEntered lookup domain s = lex.evaluate lookup domain s :=
  if_pos (contains_iff.mpr hs)

theorem mem_instances : inst ∈ lex.instances domain v x ↔
    ∃ sort, v.sort? = some sort ∧ ∃ term ∈ lex.values sort domain, x.subst v term = inst := by
  unfold instances
  cases v.sort? <;> simp

theorem evaluate_of_lookup (h : lookup s = some value) :
    lex.evaluate lookup domain s = some value := by
  rw [evaluate.eq_def, h]

theorem evaluate_conj (h : lookup (.conj xs) = none) :
    lex.evaluate lookup domain (.conj xs) = kleene false (lex.evaluate lookup domain) xs := by
  rw [evaluate, h]
  exact kleene_attach ..

theorem evaluate_disj (h : lookup (.disj xs) = none) :
    lex.evaluate lookup domain (.disj xs) = kleene true (lex.evaluate lookup domain) xs := by
  rw [evaluate, h]
  exact kleene_attach ..

theorem evaluate_all (h : lookup (.all v x) = none) : lex.evaluate lookup domain (.all v x) =
    kleeneInstances false (lex.evaluateEntered lookup domain) (lex.instances domain v x) := by
  rw [evaluate, h]
  exact kleeneInstances_attach _ (lex.evaluateEntered lookup domain) _

theorem evaluate_ex (h : lookup (.ex v x) = none) : lex.evaluate lookup domain (.ex v x) =
    kleeneInstances true (lex.evaluateEntered lookup domain) (lex.instances domain v x) := by
  rw [evaluate, h]
  exact kleeneInstances_attach _ (lex.evaluateEntered lookup domain) _

/-- A connective evaluates to a value if all facts of an alternative for it evaluate to
theirs. -/
theorem evaluate_of_alternative {alternatives : List Outcome} {facts : Outcome}
    (hnone : lookup s = none) (halts : s.alternatives? value = some alternatives)
    (hequal : ∀ xs, s ≠ .equal xs) (hfacts : facts ∈ alternatives)
    (hall : ∀ fact ∈ facts, lex.evaluate lookup domain fact.sentence = some fact.value) :
    lex.evaluate lookup domain s = some value := by
  unfold Sentence.alternatives? at halts
  split at halts
  · cases halts
    obtain rfl : facts = _ := by simpa using hfacts
    rw [evaluate, hnone]
    simp_all
  · cases halts
    obtain rfl : facts = _ := by simpa using hfacts
    rw [evaluate_conj hnone]
    exact kleene_of_forall (by simpa [Sentence.valued] using hall)
  · cases halts
    obtain ⟨x, hx, rfl⟩ := List.mem_map.mp hfacts
    rw [evaluate_conj hnone]
    exact kleene_of_mem hx (by simpa [Sentence.valued] using hall)
  · cases halts
    obtain ⟨x, hx, rfl⟩ := List.mem_map.mp hfacts
    rw [evaluate_disj hnone]
    exact kleene_of_mem hx (by simpa [Sentence.valued] using hall)
  · cases halts
    obtain rfl : facts = _ := by simpa using hfacts
    rw [evaluate_disj hnone]
    exact kleene_of_forall (by simpa [Sentence.valued] using hall)
  · cases halts
    simp only [List.mem_cons, List.not_mem_nil, or_false] at hfacts
    rw [evaluate, hnone]
    rcases hfacts with rfl | rfl
    · exact kleene_of_mem (x := some true) (by simp_all) rfl
    · exact kleene_of_mem (x := some true) (by simp_all) rfl
  · cases halts
    obtain rfl : facts = _ := by simpa using hfacts
    rw [evaluate, hnone]
    simp_all [kleene]
  · cases halts
    simp only [List.mem_cons, List.not_mem_nil, or_false] at hfacts
    rw [evaluate, hnone]
    rcases hfacts with rfl | rfl
    all_goals simp_all
  · next xs => exact absurd rfl (hequal xs)
  · contradiction

end Lexicon

namespace Branch

/-- A setting that evaluates from what a branch has: its basic sentences, and its
terms for the quantifiers. -/
structure IsSetting (branch : Branch) (lex : Lexicon) (lookup : Sentence → Option Bool)
    (domain : List Sentence) : Prop where
  basic : ∀ (s : Sentence) value, branch.Gives ⟨s, value⟩ → s.isBasic = true → lookup s = some value
  compound : ∀ s : Sentence, s.isBasic = false → lookup s = none
  entered : ∀ (s : Sentence) value, branch.Gives ⟨s, value⟩ → s ∈ lex.entries
  domain : ∀ term, term ∈ domain ↔ branch.Visible term

variable {branch : Branch} {lex : Lexicon} {lookup : Sentence → Option Bool}
  {domain : List Sentence} {binder body s : Sentence} {value : Bool}

/-- The instances are those for the terms of the branch. -/
theorem IsSetting.mem_instances (hset : branch.IsSetting lex lookup domain)
    (hform : branch.IsWellFormed) {inst : Sentence} :
    inst ∈ lex.instances domain binder body ↔ ∃ term, branch.Visible term ∧
      Rule.Instantiates lex.sorts binder term ∧ body.subst binder term = inst := by
  simp only [Lexicon.mem_instances, Lexicon.mem_values, hset.domain]
  constructor
  · rintro ⟨bound, hbound, term, ⟨hvisible, sort, hsort, hranges⟩, rfl⟩
    have hground := Sentence.isGroundTerm_of_isClosedTerm (hform.terms term hvisible)
    exact ⟨term, hvisible, ⟨hground, bound, sort, hbound, hsort, hranges⟩, rfl⟩
  · rintro ⟨term, hvisible, ⟨-, bound, sort, hbound, hsort, hranges⟩, rfl⟩
    exact ⟨bound, hbound, term, ⟨hvisible, sort, hsort, hranges⟩, rfl⟩

theorem evaluate_of_isUniversal (hset : branch.IsSetting lex lookup domain)
    (hs : IsUniversal s value binder body) : lex.evaluate lookup domain s =
      kleeneInstances (!value) (lex.evaluateEntered lookup domain)
        (lex.instances domain binder body) := by
  cases hs with
  | all => exact Lexicon.evaluate_all (hset.compound _ rfl)
  | ex => exact Lexicon.evaluate_ex (hset.compound _ rfl)

theorem evaluate_of_isExistential (hset : branch.IsSetting lex lookup domain)
    (hs : IsExistential s value binder body) : lex.evaluate lookup domain s =
      kleeneInstances value (lex.evaluateEntered lookup domain)
        (lex.instances domain binder body) := by
  cases hs with
  | all => exact Lexicon.evaluate_all (hset.compound _ rfl)
  | ex => exact Lexicon.evaluate_ex (hset.compound _ rfl)

theorem occursFreeIn_of_isExistential (hs : IsExistential s value binder body)
    (h : s.lacks Sentence.isVacuous = true) : binder.occursFreeIn body = true := by
  obtain ⟨hself, -⟩ := Sentence.lacks_iff_parts.mp h
  cases hs <;> simpa [Sentence.isVacuous] using hself

/-- What a complete branch gives a value evaluates to it. -/
theorem IsHintikka.evaluate_eq (h : branch.IsHintikka lex.sorts) (hform : branch.IsWellFormed)
    (hset : branch.IsSetting lex lookup domain)
    (hoccurs : ∀ fact, branch.Gives fact → fact.sentence.lacks Sentence.isVacuous = true)
    (hgives : branch.Gives ⟨s, value⟩) : lex.evaluate lookup domain s = some value := by
  refine h.induction (motive := fun s value => lex.evaluate lookup domain s = some value)
    ?basic ?connective ?universal ?existential hform hgives
  case basic =>
    exact fun s value hgiven hbasic => Lexicon.evaluate_of_lookup (hset.basic s value hgiven hbasic)
  case connective =>
    intro s value alternatives facts hbasic halts hfacts hall
    refine Lexicon.evaluate_of_alternative (hset.compound s hbasic) halts ?_ hfacts hall
    rintro xs rfl
    simp [Sentence.isBasic, Sentence.isEquality] at hbasic
  case universal =>
    rintro s value binder body - hs - hall ⟨term, hvisible, hterm⟩
    rw [evaluate_of_isUniversal hset hs]
    refine kleeneInstances_of_forall
      ((hset.mem_instances hform).mpr ⟨term, hvisible, hterm, rfl⟩) ?_
    intro inst hinst
    obtain ⟨other, hvisible, hother, rfl⟩ := (hset.mem_instances hform).mp hinst
    obtain ⟨hgiven, hinstance⟩ := hall other hvisible hother
    rwa [Lexicon.evaluateEntered_of_mem (hset.entered _ _ hgiven)]
  case existential =>
    rintro s value binder body hgiven hs - ⟨term, hterm, hgiven', hinstance⟩
    -- the variable occurs in the body, so that the term is on the branch
    have hmem := Sentence.mem_subsentences_subst_of_occursFreeIn term
      (occursFreeIn_of_isExistential hs (hoccurs _ hgiven))
    have hvisible : branch.Visible term := Or.inl ⟨_, value, hgiven', hmem, hterm.ground⟩
    rw [evaluate_of_isExistential hset hs]
    refine kleeneInstances_of_mem ((hset.mem_instances hform).mpr ⟨term, hvisible, hterm, rfl⟩) ?_
    rwa [Lexicon.evaluateEntered_of_mem (hset.entered _ _ hgiven')]

end Branch

namespace Countermodel

/-- The value that a countermodel gives to a basic sentence. -/
def basicValue? (cm : Countermodel) (s : Sentence) : Option Bool :=
  if s.isBasic then cm.get? s else none

/-- The value of a sentence by the basic sentences of a countermodel.  Quantifiers range
over the terms of its branch. -/
def evaluate (p : Prover) (cm : Countermodel) (s : Sentence) : Option Bool :=
  p.lexicon.evaluate cm.basicValue? ((p.tree.branch cm.leaf).groundTerms p.lexicon) s

variable {lex : Lexicon} {tree : Tree} {leaf : NodeId} {s : Sentence} {value : Bool}

theorem mem_filter_mapped (hcons : (tree.branch leaf).isConsistent = true) :
    s ∈ (((tree.branch leaf).mapped lex).filter fun k =>
        (tree.branch leaf).models k == some value).map (·.sentence) ↔
      (tree.branch leaf).Gives ⟨s, value⟩ := by
  simp only [List.mem_map, List.mem_filter, Branch.mem_mapped, Branch.isMapped_iff, beq_iff_eq,
    Branch.models_eq_some hcons]
  constructor
  · rintro ⟨k, ⟨-, hk⟩, rfl⟩
    simpa [Branch.Gives] using hk
  · exact fun hgives => ⟨s, ⟨⟨value, hgives⟩, hgives⟩, rfl⟩

theorem mem_asserted (hcons : (tree.branch leaf).isConsistent = true) :
    s ∈ (ofLeaf lex tree leaf).asserted ↔ (tree.branch leaf).Gives ⟨s, true⟩ :=
  mem_filter_mapped hcons

theorem mem_denied (hcons : (tree.branch leaf).isConsistent = true) :
    s ∈ (ofLeaf lex tree leaf).denied ↔ (tree.branch leaf).Gives ⟨s, false⟩ :=
  mem_filter_mapped hcons

/-- A countermodel gives the values that its branch gives. -/
theorem get?_ofLeaf (hcons : (tree.branch leaf).isConsistent = true)
    (hgives : (tree.branch leaf).Gives ⟨s, value⟩) :
    (ofLeaf lex tree leaf).get? s = some value := by
  have hopposite := Branch.isConsistent_iff.mp hcons s value hgives
  cases value with
  | true => simp [get?, mem_asserted hcons, hgives]
  | false =>
      have hnot : ¬ (tree.branch leaf).Gives ⟨s, true⟩ := by simpa [Branch.Gives] using hopposite
      simp [get?, mem_asserted hcons, mem_denied hcons, hgives, hnot]

end Countermodel

namespace Prover

variable {p : Prover}

/-- What a countermodel of a search for closed formulas is read off from. -/
theorem isSetting_ofLeaf {leaf : NodeId} (hentered : p.IsEntered)
    (hcons : (p.tree.branch leaf).isConsistent = true) :
    (p.tree.branch leaf).IsSetting p.lexicon (Countermodel.ofLeaf p.lexicon p.tree leaf).basicValue?
      ((p.tree.branch leaf).groundTerms p.lexicon) where
  basic s value hgives hbasic := by
    rw [Countermodel.basicValue?, if_pos hbasic, Countermodel.get?_ofLeaf hcons hgives]
  compound s hbasic := by simp [Countermodel.basicValue?, hbasic]
  entered s value hgives := hentered.has leaf _ value hgives
  domain term := Branch.mem_groundTerms

end Prover

namespace Problem

variable {lexicon lexicon' : Lexicon} {text : String} {problem : Problem} {options : Options}

/-- In the countermodels of a problem that has been read, all along the search, the basic
sentences decide the others, unless some quantifier is vacuous: what is asserted evaluates
to true and what is denied to false.  So do the premises and what is to be refuted, the
only goal or the conjunction of several. -/
theorem evaluate_of_mem_countermodels (hlexicon : lexicon.IsBuilt)
    (hread : read lexicon text = (.ok problem, lexicon'))
    (hoccurs : ∀ s ∈ problem.premises ++ problem.goals, s.lacks Sentence.isVacuous = true)
    {s : Search} (hs : (Prover.start lexicon' problem.premises problem.goals options).Reaches s)
    {cm : Countermodel} (hcm : cm ∈ s.prover.countermodels) :
    (∀ x ∈ cm.asserted, cm.evaluate s.prover x = some true) ∧
      (∀ x ∈ cm.denied, cm.evaluate s.prover x = some false) ∧
      (∀ x ∈ problem.premises, cm.evaluate s.prover x = some true) ∧
      ∀ x ∈ Prover.refutand? problem.goals, cm.evaluate s.prover x = some false := by
  obtain ⟨leaf, hleaf, hcomplete, rfl⟩ := Prover.mem_countermodels.mp hcm
  have hleads := hs.leads Prover.coherent_start
  obtain ⟨-, hentered, -, hclosed⟩ := inherits_isClosedFormula hlexicon hread hleads
  have hroot := Prover.lacks_of_mem_rootFacts (by simp [Sentence.isVacuous]) hoccurs
  obtain ⟨-, hlacks⟩ := Prover.Leads.inherits hleads (Sentence.hereditary_lacks_isVacuous _) hroot
  obtain ⟨-, -, hcons, -⟩ := Prover.isComplete_iff.mp hcomplete
  have hvalue : ∀ {x : Sentence} {value : Bool}, (s.prover.tree.branch leaf).Gives ⟨x, value⟩ →
      (Countermodel.ofLeaf s.prover.lexicon s.prover.tree leaf).evaluate s.prover x = some value :=
    fun hgives => Branch.IsHintikka.evaluate_eq
      (Prover.isHintikka_of_isComplete hs.coherent hs.isAccountable hleaf hcomplete)
      (Prover.isWellFormed_branch hleads.instancesOccur hclosed)
      (Prover.isSetting_ofLeaf hentered hcons)
      (fun fact hfact => hlacks.has leaf fact.key fact.value hfact) hgives
  obtain ⟨hpremises, hgoal⟩ := Prover.forall_mem_rootFacts.mp fun fact hfact =>
    hs.gives_of_mem_rootFacts hfact (hs.coherent.open_lt leaf hleaf)
  exact ⟨fun x hx => hvalue ((Countermodel.mem_asserted hcons).mp hx),
    fun x hx => hvalue ((Countermodel.mem_denied hcons).mp hx),
    fun x hx => hvalue (hpremises x hx), fun x hx => hvalue (hgoal x hx)⟩

/-- A text that allows for an exception, which the countermodel is about. -/
def exceptionText : String :=
  "(declarations (sort S) (constant a S))
  (premises (forall x (or (P x) (= x a))))
  (goals (forall x (P x)) (exists (y S) (P y)))"

theorem evaluate_of_mem_countermodels_exception :
    ∃ problem lexicon', read {} exceptionText = (.ok problem, lexicon') ∧
      ∃ s, (Prover.start lexicon' problem.premises problem.goals {}).Reaches s ∧
        ∃ cm ∈ s.prover.countermodels,
          (∀ x ∈ problem.premises, cm.evaluate s.prover x = some true) ∧
            ∀ x ∈ Prover.refutand? problem.goals, cm.evaluate s.prover x = some false := by
  obtain ⟨problem, lexicon', hread, q, hinvalid⟩ :=
    exists_mayReturn_of_toOption {} exceptionText {} 40 .invalid (by decide +kernel)
  have hoccurs : ((read {} exceptionText).1.toOption.all fun problem =>
      (problem.premises ++ problem.goals).all (·.lacks Sentence.isVacuous)) =
        true := by decide +kernel
  rw [hread] at hoccurs
  obtain ⟨s, hs, -, hdeserves⟩ := hinvalid.deserves
  obtain ⟨cm, hcm⟩ := Prover.exists_countermodel hdeserves
  obtain ⟨-, -, hpremises, hgoal⟩ :=
    evaluate_of_mem_countermodels .empty hread (List.all_eq_true.mp hoccurs) hs hcm
  exact ⟨problem, lexicon', hread, s, hs, cm, hcm, hpremises, hgoal⟩

end Problem

end Tableau
