/-
Where constants occur.  All that a search mentions is in its lexicon, so that a constant
occurs nowhere when it is minted.  As long as the inference that brings it in is pending,
it occurs in no sentence of the tree, because rules are instantiated for terms of the
branch only.
-/
import Tableau.Proofs.Search.Heredity

namespace Tableau

namespace Sentence

variable {s x target term : Sentence} {name : String}

/-- A constant with the given name, of whatever sort, occurs in a sentence. -/
def Mentions (s : Sentence) (name : String) : Prop := ∃ sort, .const name sort ∈ s.subsentences

theorem Mentions.of_part (hx : x ∈ s.parts) (h : x.Mentions name) : s.Mentions name := by
  obtain ⟨sort, hmem⟩ := h
  exact ⟨sort, mem_subsentences_of_part hx hmem⟩

theorem Mentions.of_mem_subsentences (hx : x ∈ s.subsentences) (h : x.Mentions name) :
    s.Mentions name := by
  obtain ⟨sort, hmem⟩ := h
  exact ⟨sort, mem_subsentences_trans hx hmem⟩

theorem Mentions.of_subst (h : (s.subst target term).Mentions name) :
    s.Mentions name ∨ term.Mentions name := by
  obtain ⟨sort, hmem⟩ := h
  rcases mem_subsentences_subst hmem with hterm | ⟨y, hy, rfl | ⟨hne, heq⟩⟩
  · exact Or.inr ⟨sort, hterm⟩
  · exact Or.inl ⟨sort, hy⟩
  · have hconst : y = .const name sort := by cases y <;> simp_all [subst]
    exact Or.inl ⟨sort, hconst ▸ hy⟩

end Sentence

/-- A name that is not mentioned by a sentence, nor by the terms that it is instantiated
for, is not mentioned by what its rule yields. -/
theorem Rule.handsDown_not_mentions (sorts : Sorts) (name : String) :
    Rule.HandsDown sorts (fun s => ¬ s.Mentions name) (fun s => ¬ s.Mentions name) where
  alternative := by
    intro s value alternatives halts hs facts hfacts fact hfact
    rcases Sentence.mem_parts_of_alternatives? halts hfacts hfact with ⟨-, heq⟩ | ⟨-, hpart⟩
    · rwa [heq]
    · exact fun hmentions => hs (hmentions.of_part hpart)
  dualAll binder body hs := by
    rintro ⟨sort, hmem⟩
    exact hs ⟨sort, by simpa [Sentence.subsentences] using hmem⟩
  dualEx binder body hs := by
    rintro ⟨sort, hmem⟩
    exact hs ⟨sort, by simpa [Sentence.subsentences] using hmem⟩
  instAll binder body term hs _ hterm hmentions := by
    rcases hmentions.of_subst with hbody | hmem
    · exact hs (hbody.of_part (by simp [Sentence.parts]))
    · exact hterm hmem
  instEx binder body term hs _ hterm hmentions := by
    rcases hmentions.of_subst with hbody | hmem
    · exact hs (hbody.of_part (by simp [Sentence.parts]))
    · exact hterm hmem

namespace Inference

/-- No outcome mentions a constant with the given name. -/
def Avoids (inf : Inference) (name : String) : Prop :=
  ∀ outcome ∈ inf.outcomes, ∀ fact ∈ outcome, ¬ fact.sentence.Mentions name

/-- Neither of two inferences mentions the constant that the other one brings in. -/
def Apart (a b : Inference) : Prop :=
  (∀ name, a.freshName? = some name → b.Avoids name) ∧
    ∀ name, b.freshName? = some name → a.Avoids name

theorem Apart.symm {a b : Inference} (h : Apart a b) : Apart b a := ⟨h.2, h.1⟩

theorem mem_terms_of_freshName? {inf : Inference} {name : String}
    (h : inf.freshName? = some name) : ∃ sort, .const name sort ∈ inf.terms := by
  unfold freshName? at h
  split at h
  · next heffect =>
    obtain ⟨term, hlast, hname⟩ := Option.bind_eq_some_iff.mp h
    cases term with
    | const other sort =>
        obtain rfl : other = name := by simpa [Sentence.constantName?] using hname
        exact ⟨sort, by simpa [terms, heffect] using List.mem_of_getLast? hlast⟩
    | _ => simp [Sentence.constantName?] at hname
  all_goals contradiction

end Inference

namespace Prover

variable {p q : Prover} {inf : Inference} {lex : Lexicon} {name : String}

/-! All that is mentioned is entered. -/

/-- All sentences and terms of a search are in its lexicon, with all their parts and names. -/
structure IsEntered (p : Prover) : Prop
    extends p.Inherits (· ∈ p.lexicon.entries) (· ∈ p.lexicon.entries) where
  isThorough : p.lexicon.IsThorough

theorem IsEntered.visible (h : p.IsEntered) {id : NodeId} {term : Sentence}
    (hvisible : (p.tree.branch id).Visible term) : term ∈ p.lexicon.entries := by
  rcases hvisible with ⟨k, value, hvalue, hterm, -⟩ | ⟨k, hterm⟩
  · exact h.isThorough.hasParts.mem_of_mem_subsentences (h.has id k value hvalue) hterm
  · exact h.instances id k term hterm

theorem IsEntered.fired (h : p.IsEntered) (hfired : Transition.IsFired p inf lex) :
    (∀ term ∈ inf.terms, term ∈ lex.entries) ∧
      ∀ outcome ∈ inf.outcomes, ∀ fact ∈ outcome, fact.sentence ∈ lex.entries := by
  obtain ⟨leaf, -, k, value, hfires⟩ := hfired
  refine ⟨fun term hterm => ?_, ?_⟩
  · rcases hfires.terms term hterm with hvisible | ⟨sort, -, hminted⟩
    · exact hfires.grows.mem (h.visible hvisible)
    · exact hminted
  · exact hfires.entered h.isThorough.hasParts
      (h.has leaf k value (Branch.has_of_models hfires.models))

theorem Transition.isEntered (h : Transition p q) (hp : p.Coherent) (hentered : p.IsEntered) :
    q.IsEntered where
  toInherits := h.inherits_of_fired hp hentered.toInherits
    (fun _ hs => h.lexicon_growsTo.mem hs) (fun _ hterm => h.lexicon_growsTo.mem hterm)
    fun _ hfired => hentered.fired hfired
  isThorough := by
    cases h with
    | noted hlex | closed hlex => exact hlex ▸ hentered.isThorough
    | expanded _ _ _ _ hlex => exact hlex ▸ hentered.isThorough
    | added _ _ _ _ _ hfires | queued _ _ _ _ _ hfires =>
        exact hfires.isThorough hentered.isThorough

/-! A constant stays out of the tree until it is brought in. -/

/-- No constant with the given name occurs in the tree. -/
structure Avoids (p : Prover) (name : String) : Prop where
  has : ∀ id k value, (p.tree.branch id).has k value = true → ¬ k.sentence.Mentions name
  instances : ∀ id k term, term ∈ (p.tree.branch id).instancesOf k → ¬ term.Mentions name

theorem IsEntered.not_mentions (h : p.IsEntered)
    (hfresh : ∀ sort, .const name sort ∉ p.lexicon.entries)
    {s : Sentence} (hs : s ∈ p.lexicon.entries) : ¬ s.Mentions name := by
  rintro ⟨sort, hmem⟩
  exact hfresh sort (h.isThorough.hasParts.mem_of_mem_subsentences hs hmem)

/-- A name that is not in the lexicon does not occur in the tree. -/
theorem IsEntered.avoids (h : p.IsEntered) (hfresh : ∀ sort, .const name sort ∉ p.lexicon.entries) :
    p.Avoids name where
  has id k value hvalue := h.not_mentions hfresh (h.has id k value hvalue)
  instances id k term hterm := h.not_mentions hfresh (h.instances id k term hterm)

/-- A rule that is fired does not mention a constant that is in the lexicon, but not in
the tree. -/
theorem Avoids.fired (h : p.Avoids name) (hnames : p.lexicon.HasNames) {sort : SortId}
    (hentry : .const name sort ∈ p.lexicon.entries) (hfired : Transition.IsFired p inf lex) :
    (∀ term ∈ inf.terms, ¬ term.Mentions name) ∧ inf.Avoids name := by
  obtain ⟨leaf, -, k, value, hfires⟩ := hfired
  have hterms : ∀ term ∈ inf.terms, ¬ term.Mentions name := by
    intro term hterm hmentions
    rcases hfires.terms term hterm with (⟨k, value, hvalue, hmem, -⟩ | ⟨k, hinst⟩) | ⟨sort', heq, -⟩
    · exact h.has leaf k value hvalue (hmentions.of_mem_subsentences hmem)
    · exact h.instances leaf k term hinst hmentions
    · obtain ⟨minted, hminted, hfresh⟩ := hnames.mint_fresh sort'
      obtain ⟨sort'', hmem⟩ := hmentions
      rw [heq, hminted] at hmem
      obtain ⟨rfl, -⟩ : name = minted ∧ sort'' = sort' := by
        simpa [Sentence.subsentences] using hmem
      exact hfresh sort hentry
  have hk := h.has leaf k value (Branch.has_of_models hfires.models)
  exact ⟨hterms, (Rule.handsDown_not_mentions _ name).outcomes hfires.yields hk hterms⟩

/-- The constants that pending inferences are to bring in are in the lexicon, but they
occur neither in the tree nor in other pending inferences. -/
structure IsFresh (p : Prover) : Prop where
  tree : ∀ inf ∈ p.pending, ∀ name, inf.freshName? = some name → p.Avoids name
  apart : p.pending.Pairwise Inference.Apart
  entered : ∀ inf ∈ p.pending, ∀ name, inf.freshName? = some name →
    ∃ sort, .const name sort ∈ p.lexicon.entries

namespace Transition

variable (h : Transition p q) (hentered : p.IsEntered) (hfresh : p.IsFresh)
include h hentered hfresh

theorem avoids_of_freshName? (hp : p.Coherent) (hinf : inf ∈ q.pending)
    (hname : inf.freshName? = some name) :
    q.Avoids name := by
  by_cases hold : inf ∈ p.pending
  · have havoids := hfresh.tree inf hold name hname
    obtain ⟨sort, hentry⟩ := hfresh.entered inf hold name hname
    refine ⟨fun id k value hvalue => ?_, fun id k term hterm => ?_⟩
    · rcases h.has_cases hp hvalue with ⟨id, hbefore⟩ | ⟨other, hother, outcome, houtcome, hfact⟩
      · exact havoids.has id k value hbefore
      · rcases hother with hperm | ⟨hfired, -⟩
        · have hpairwise := (hperm.pairwise_iff Inference.Apart.symm).mp hfresh.apart
          exact ((List.pairwise_cons.mp hpairwise).1 inf hinf).2 name hname outcome houtcome _ hfact
        · exact (havoids.fired hentered.isThorough.hasNames hentry hfired).2 outcome
            houtcome _ hfact
    · rcases h.instances_cases hp hterm with
        ⟨id', hbefore, -⟩ | ⟨leaf, hleaf, value, other, hfires, -, hnew, -⟩
      · exact havoids.instances id' k term hbefore
      · exact (havoids.fired hentered.isThorough.hasNames hentry
          ⟨leaf, hleaf, k, value, hfires⟩).1 term
          (Inference.mem_terms_of_mem_terms_addition hnew)
  · obtain ⟨leaf, -, k, value, hfires⟩ := (h.pending_cases hinf).resolve_left hold
    have hnew := hfires.fresh hentered.isThorough.hasNames name hname
    have havoids := hentered.avoids hnew
    refine ⟨fun id k value hvalue => ?_, fun id k term hterm => ?_⟩
    · rcases h.has_cases hp hvalue with ⟨id, hbefore⟩ | ⟨other, hother, outcome, houtcome, hfact⟩
      · exact havoids.has id k value hbefore
      · rcases hother with hperm | ⟨-, hsame⟩
        · have hother := hperm.mem_iff.mpr List.mem_cons_self
          exact hentered.not_mentions hnew (hentered.pending other hother outcome houtcome _ hfact)
        · exact absurd (hsame ▸ hinf) hold
    · rcases h.instances_cases hp hterm with
        ⟨id', hbefore, -⟩ | ⟨leaf, hleaf, value, other, hfires, hsame, -⟩
      · exact havoids.instances id' k term hbefore
      · exact absurd (hsame ▸ hinf) hold

theorem apart : q.pending.Pairwise Inference.Apart := by
  cases h with
  | noted _ _ _ hpending | added _ _ _ _ _ _ _ _ _ hpending => exact hpending ▸ hfresh.apart
  | closed _ _ _ hpending => exact hpending ▸ hfresh.apart.filter _
  | expanded _ _ _ hsub => exact hfresh.apart.sublist hsub
  | queued leaf k value inf hleaf hfires _ _ _ hpending =>
      have hfired : IsFired p inf q.lexicon := ⟨leaf, hleaf, k, value, hfires⟩
      rw [hpending]
      refine List.pairwise_append.mpr ⟨hfresh.apart, List.pairwise_singleton _ _, ?_⟩
      intro other hother new hnew
      obtain rfl : new = inf := by simpa using hnew
      refine ⟨fun name hname => ?_, fun name hname outcome houtcome fact hfact => ?_⟩
      · obtain ⟨sort, hentry⟩ := hfresh.entered other hother name hname
        exact ((hfresh.tree other hother name hname).fired hentered.isThorough.hasNames
          hentry hfired).2
      · exact hentered.not_mentions (hfires.fresh hentered.isThorough.hasNames name hname)
          (hentered.pending other hother outcome houtcome fact hfact)

theorem isFresh (hp : p.Coherent) : q.IsFresh where
  tree _ hinf _ hname := h.avoids_of_freshName? hentered hfresh hp hinf hname
  apart := h.apart hentered hfresh
  entered := by
    intro inf hinf name hname
    rcases h.pending_cases hinf with hold | hfired
    · obtain ⟨sort, hentry⟩ := hfresh.entered inf hold name hname
      exact ⟨sort, h.lexicon_growsTo.mem hentry⟩
    · obtain ⟨sort, hmem⟩ := Inference.mem_terms_of_freshName? hname
      exact ⟨sort, (hentered.fired hfired).1 _ hmem⟩

end Transition

/-- All along a search that begins with sentences of the lexicon, what is mentioned is
entered, and constants that are still to be brought in are fresh. -/
theorem Leads.isFresh {lexicon : Lexicon} {premises goals : List Sentence} {options : Options}
    (h : Leads (start lexicon premises goals options) p) (hthorough : lexicon.IsThorough)
    (hpremises : ∀ s ∈ premises, s ∈ lexicon.entries) : p.IsEntered ∧ p.IsFresh := by
  refine (h.preserves (P := fun p => p.IsEntered ∧ p.IsFresh) ?_ coherent_start ⟨?_, ?_⟩).2
  · rintro p q hp ⟨hentered, hfresh⟩ htransition
    exact ⟨htransition.isEntered hp hentered, htransition.isFresh hentered hfresh hp⟩
  · refine ⟨⟨?_, ?_, by simp⟩, isThorough_lexicon_start premises goals options hthorough⟩
    · have hroot : ∀ fact ∈ rootFacts premises goals,
          fact.sentence ∈ (start lexicon premises goals options).lexicon.entries := by
        refine forall_mem_rootFacts.mpr ⟨fun s hs => ?_, fun goal hgoal => ?_⟩
        · exact (growsTo_lexicon_start ..).mem (hpremises s hs)
        · exact refutand_mem_entries_start _ _ _ _ hgoal
      exact fun id k value hhas => hroot _ (has_branch_start.mp hhas).2
    · intro id k term hterm
      rw [instancesOf_branch_start] at hterm
      simp at hterm
  · exact ⟨by simp, by simp, by simp⟩

end Prover

end Tableau
