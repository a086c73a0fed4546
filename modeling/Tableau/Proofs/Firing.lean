/-
Firing a rule.  A rule that fires has found a value and no mark on the branch, it
yields what its sentence and its value prescribe, and it enters in the lexicon
whatever it mentions.  Its terms are terms of the branch or freshly minted.
-/
import Tableau.Proofs.Rule

namespace Tableau

namespace Sentence

/-- The facts of an alternative are about parts of the sentence, or about the sentence
itself if it is an equality. -/
theorem mem_parts_of_alternatives? {s : Sentence} {value : Bool} {alternatives : List Outcome}
    (h : s.alternatives? value = some alternatives) {facts : Outcome}
    (hfacts : facts ∈ alternatives) {fact : Fact} (hfact : fact ∈ facts) :
    (∃ xs, s = equal xs) ∧ fact.sentence = s ∨
      (∀ xs, s ≠ equal xs) ∧ fact.sentence ∈ s.parts := by
  unfold alternatives? at h
  split at h <;> cases h <;> grind [parts, valued, Fact.sentence, Key.sentence_key]

/-- Every sentence that is neither terminal nor quantified has a rule. -/
theorem exists_alternatives? {s : Sentence} (hterminal : s.isTerminal = false)
    (hquantifier : s.isQuantifier = false) (value : Bool) :
    ∃ alternatives, s.alternatives? value = some alternatives := by
  cases s with
  | atom | pred | const | var | app => simp [isTerminal, isTerm] at hterminal
  | all | ex => simp [isQuantifier] at hquantifier
  | neg | equal | iff => exact ⟨_, rfl⟩
  | conj | disj | imp => cases value <;> exact ⟨_, rfl⟩

end Sentence

/-- The terms that a quantified sentence is instantiated for. -/
def Inference.terms (inf : Inference) : List Sentence :=
  match inf.effect with
  | .universal _ terms _ | .existential _ terms _ => terms
  | .decomposition _ | .branch _ | .closure _ => []

theorem Inference.mem_terms_of_mem_terms_addition {inf : Inference} {k : Key} {term : Sentence}
    (h : (k, term) ∈ inf.addition.terms) : term ∈ inf.terms := by
  obtain ⟨-, binder, terms, facts, heffect, hterm⟩ := mem_terms_addition.mp h
  simpa [Inference.terms, heffect] using hterm

/-- The name of the constant that an existential sentence brings in, its last
witness. -/
def Inference.freshName? (inf : Inference) : Option String :=
  match inf.effect with
  | .existential _ witnesses _ => witnesses.getLast?.bind Sentence.constantName?
  | .decomposition _ | .branch _ | .closure _ | .universal .. => none

namespace Rule

variable {lex lex' : Lexicon} {branch : Branch} {binder body term : Sentence}

theorem compatible_self (sorts : Sorts) (sort : SortId) : sorts.compatible sort sort = true := by
  simp [Sorts.compatible, Sorts.isSubsort, Sorts.ancestors]

theorem mem_candidates :
    term ∈ candidates lex branch binder ↔ branch.Visible term ∧
      ∃ bound sort, binder.sort? = some bound ∧ term.sort? = some sort ∧
        lex.sorts.compatible sort bound = true := by
  unfold candidates
  cases hbinder : binder.sort? with
  | none => simp
  | some bound => simp [Lexicon.mem_values, Lexicon.ranges]

/-- Where all terms of the branch are ground, the candidates are the terms that
the variable ranges over. -/
theorem instantiates_of_mem_candidates
    (hground : ∀ t, branch.Visible t → t.isGroundTerm = true)
    (h : term ∈ candidates lex branch binder) : Instantiates lex.sorts binder term := by
  obtain ⟨hvisible, hsorted⟩ := mem_candidates.mp h
  exact ⟨hground term hvisible, hsorted⟩

/-- A universal sentence has terms left if it has not been instantiated at all, or not for
some candidate. -/
theorem isUnexhausted_iff {k : Key} :
    isUnexhausted lex branch branch.termsMentioned k binder = true ↔
      branch.instancesOf k = [] ∨
        ∃ term ∈ candidates lex branch binder, term ∉ branch.instancesOf k := by
  have hvalues : ∀ term,
      term ∈ (binder.sort?.map fun sort => lex.values sort branch.termsMentioned).getD [] ↔
        term ∈ candidates lex branch binder := by
    intro term
    rw [mem_candidates]
    cases binder.sort? with
    | none => simp
    | some bound => simp [Lexicon.mem_values, Lexicon.ranges]
  simp only [isUnexhausted, Bool.or_eq_true, Bool.and_eq_true, List.isEmpty_iff, List.any_eq_true,
    Bool.not_eq_true', List.contains_eq_mem, decide_eq_false_iff_not, hvalues]
  constructor
  · rintro (⟨-, hnone⟩ | hsome)
    · exact Or.inl hnone
    · exact Or.inr hsome
  · rintro (hnone | hsome)
    · -- where there has been no instance, any candidate is left
      by_cases hempty :
          (binder.sort?.map fun sort => lex.values sort branch.termsMentioned).getD [] = []
      · exact Or.inl ⟨hempty, hnone⟩
      · obtain ⟨term, hterm⟩ := List.exists_mem_of_ne_nil _ hempty
        exact Or.inr ⟨term, (hvalues term).mp hterm, by simp [hnone]⟩
    · exact Or.inr hsome

theorem instantiates_mint {sort : SortId} (hbinder : binder.sort? = some sort) :
    Instantiates lex.sorts binder (lex.mint sort).1 :=
  ⟨rfl, sort, sort, hbinder, rfl, compatible_self ..⟩

/-! Instances are entered one after the other. -/

@[simp]
theorem fst_instancesFor (lex : Lexicon) (binder body : Sentence) (terms : List Sentence) :
    (instancesFor lex binder body terms).1 = terms.map (body.subst binder) := by
  induction terms generalizing lex with
  | nil => rfl
  | cons term terms ih => simp [instancesFor, Lexicon.substitute, ih]

theorem growsTo_instancesFor (lex : Lexicon) (binder body : Sentence) (terms : List Sentence) :
    lex.GrowsTo (instancesFor lex binder body terms).2 := by
  induction terms generalizing lex with
  | nil => exact .refl lex
  | cons term terms ih => exact (lex.growsTo_intern _).trans (ih _)

theorem mem_entries_instancesFor {terms : List Sentence} (h : term ∈ terms) :
    body.subst binder term ∈ (instancesFor lex binder body terms).2.entries := by
  induction terms generalizing lex with
  | nil => simp at h
  | cons first terms ih =>
      rcases List.mem_cons.mp h with rfl | h
      · exact (growsTo_instancesFor _ binder body terms).mem (lex.mem_entries_intern _)
      · exact ih h

theorem isThorough_instancesFor (h : lex.IsThorough) (binder body : Sentence)
    (terms : List Sentence) : (instancesFor lex binder body terms).2.IsThorough := by
  induction terms generalizing lex with
  | nil => exact h
  | cons term terms ih => exact ih (h.intern _)

/-- The terms for a variable on a branch, with the lexicon that they are entered
in: candidates of the branch, and a constant if one had to be minted. -/
structure Supplies (lex : Lexicon) (branch : Branch) (binder : Sentence) (sort : SortId)
    (terms : List Sentence) (lex' : Lexicon) : Prop where
  origin : ∀ term ∈ terms, term ∈ candidates lex branch binder ∨
    term = (lex.mint sort).1 ∧ lex' = (lex.mint sort).2
  grows : lex.GrowsTo lex'
  isThorough : lex.IsThorough → lex'.IsThorough

theorem supplies_universalTerms (lex : Lexicon) (branch : Branch) (k : Key) (binder : Sentence)
    (sort : SortId) :
    Supplies lex branch binder sort (universalTerms lex branch k binder sort).1
      (universalTerms lex branch k binder sort).2 := by
  unfold universalTerms
  simp only
  split
  · refine ⟨fun term hterm => Or.inr ⟨by simpa using hterm, rfl⟩, lex.growsTo_mint sort, ?_⟩
    exact fun h => h.mint sort
  · refine ⟨fun term hterm => Or.inl ?_, .refl lex, fun h => h⟩
    exact (List.mem_filter.mp hterm).1

theorem universalTerms_ne_nil (lex : Lexicon) (branch : Branch) (k : Key) (binder : Sentence)
    (sort : SortId) : (universalTerms lex branch k binder sort).1 ≠ [] := by
  unfold universalTerms
  simp only
  split
  · simp
  · next h => simpa using h

/-- A universal sentence is instantiated for different terms. -/
theorem nodup_universalTerms (lex : Lexicon) (branch : Branch) (k : Key) (binder : Sentence)
    (sort : SortId) : (universalTerms lex branch k binder sort).1.Nodup := by
  unfold universalTerms
  simp only
  split
  · simp
  · unfold unusedCandidates candidates
    split
    · exact ((branch.nodup_groundTerms lex).filter _).filter _
    · exact List.nodup_nil

/-- A universal sentence that has been instantiated and still has terms left is instantiated
for terms of the branch that are new to it. -/
theorem visible_of_mem_universalTerms {k : Key} {sort : SortId}
    (hleft : isUnexhausted lex branch branch.termsMentioned k binder = true)
    (hused : branch.instancesOf k ≠ [])
    (hterm : term ∈ (universalTerms lex branch k binder sort).1) :
    branch.Visible term ∧ term ∉ branch.instancesOf k := by
  obtain ⟨left, hleft, hnew⟩ := (isUnexhausted_iff.mp hleft).resolve_left hused
  have hunused : left ∈ unusedCandidates lex branch k binder :=
    List.mem_filter.mpr ⟨hleft, by simpa using hnew⟩
  have hsome : (unusedCandidates lex branch k binder).isEmpty = false :=
    List.isEmpty_eq_false_iff.mpr (List.ne_nil_of_mem hunused)
  simp only [universalTerms, hsome, Bool.false_eq_true, if_false] at hterm
  obtain ⟨hcandidate, hnew⟩ := List.mem_filter.mp hterm
  exact ⟨(mem_candidates.mp hcandidate).1, by simpa using hnew⟩

theorem supplies_witnesses (lex : Lexicon) (branch : Branch) (binder : Sentence) (sort : SortId) :
    Supplies lex branch binder sort (witnesses lex branch binder sort).1
      (witnesses lex branch binder sort).2 := by
  refine ⟨fun term hterm => ?_, lex.growsTo_mint sort, fun h => h.mint sort⟩
  rcases List.mem_append.mp hterm with hcandidate | hminted
  · exact Or.inl hcandidate
  · exact Or.inr ⟨by simpa using hminted, rfl⟩

theorem Supplies.instantiates {sort : SortId} {terms : List Sentence}
    (h : Supplies lex branch binder sort terms lex') (hbinder : binder.sort? = some sort)
    (hground : ∀ t, branch.Visible t → t.isGroundTerm = true) :
    ∀ term ∈ terms, Instantiates lex.sorts binder term := by
  intro term hterm
  rcases h.origin term hterm with hcandidate | ⟨rfl, -⟩
  · exact instantiates_of_mem_candidates hground hcandidate
  · exact instantiates_mint hbinder

/-- An inference is what the rule of a sentence with a value yields on a branch,
and the lexicon has all that it mentions. -/
structure Infers (lex : Lexicon) (branch : Branch) (s : Sentence) (value : Bool) (inf : Inference)
    (lex' : Lexicon) : Prop where
  yields : Yields lex.sorts s value inf.effect
  grows : lex.GrowsTo lex'
  isThorough : lex.IsThorough → lex'.IsThorough
  entered : lex.HasParts → s ∈ lex.entries →
    ∀ outcome ∈ inf.outcomes, ∀ fact ∈ outcome, fact.sentence ∈ lex'.entries
  terms : ∀ term ∈ inf.terms, branch.Visible term ∨
    ∃ sort, term = (lex.mint sort).1 ∧ term ∈ lex'.entries
  fresh : lex.HasNames → ∀ name, inf.freshName? = some name → ∀ sort, .const name sort ∉ lex.entries

/-- A sentence has a value and no mark at a node, its rule waits there, and it is fired, with
the inference that gave the value as its justification.  Quantifiers are instantiated on
consistent branches only.  A universal sentence gets different terms, and if it has been
instantiated before, terms of the branch that are new to it. -/
structure Fires (lex : Lexicon) (tree : Tree) (node : NodeId) (k : Key) (value : Bool)
    (inf : Inference) (lex' : Lexicon) : Prop
    extends Infers lex (tree.branch node) k.sentence value inf lex' where
  node_eq : inf.node = node
  origin_eq : inf.origin = k.sentence
  not_decomposed : (tree.branch node).isDecomposed k = false
  models : (tree.branch node).models k = some value
  justified : (tree.branch node).justification k value = some inf.justification
  isReady : isUndecomposed (tree.branch node) k = true ∨
    isOpenQuantifier lex (tree.branch node) k = true
  consistent : k.sentence.isQuantifier = true → tree.isPathConsistent node = true
  unused : ∀ binder terms facts, inf.effect = .universal binder terms facts →
    (tree.branch node).instancesOf k = [] ∨
      ∀ term ∈ terms, (tree.branch node).Visible term ∧ term ∉ (tree.branch node).instancesOf k
  nodup : ∀ binder terms facts, inf.effect = .universal binder terms facts → terms.Nodup

variable {tree : Tree} {node : NodeId} {k : Key} {number : Nat} {inf : Inference}

/-- The rule of a connective fires on a sentence that waits for it, and on no other. -/
theorem decompose?_eq_some_iff :
    decompose? lex tree node k number = some inf ↔
      isUndecomposed (tree.branch node) k = true ∧
        ∃ value alternatives, (tree.branch node).models k = some value ∧
          k.sentence.alternatives? value = some alternatives ∧
          inf = {
            node, number
            origin := k.sentence
            justification := ((tree.branch node).justification k value).getD 0
            effect := effect lex k.sentence value alternatives } := by
  unfold decompose?
  simp only
  split
  · next hnot =>
      constructor
      · intro h
        contradiction
      · rintro ⟨hwaits, -⟩
        simp only [isUndecomposed, Bool.and_eq_true, Bool.not_eq_true'] at hwaits
        simp [hwaits] at hnot
  · next hwaits =>
      simp only [Bool.or_eq_true, not_or, Bool.not_eq_true] at hwaits
      simp only [isUndecomposed, hwaits, Option.bind_eq_bind, Option.bind_eq_some_iff,
        Option.pure_def, Option.some.injEq, Bool.not_false, Bool.true_and]
      constructor
      · rintro ⟨value, hvalue, alternatives, halts, rfl⟩
        exact ⟨by rw [hvalue]; rfl, value, alternatives, hvalue, halts, rfl⟩
      · rintro ⟨-, value, alternatives, hvalue, halts, rfl⟩
        exact ⟨value, hvalue, alternatives, halts, rfl⟩

theorem fires_decompose? (h : decompose? lex tree node k number = some inf) :
    ∃ value, Fires lex tree node k value inf lex := by
  obtain ⟨hwaiting, value, alternatives, hvalue, halts, rfl⟩ := decompose?_eq_some_iff.mp h
  have hwaits := hwaiting
  simp only [isUndecomposed, Bool.and_eq_true, Bool.not_eq_true'] at hwaits
  obtain ⟨⟨⟨-, hquantifier⟩, hmark⟩, -⟩ := hwaits
  refine ⟨value, ⟨.connective lex halts, .refl lex, fun h => h, ?_, ?_, ?_⟩, rfl, rfl,
    hmark, hvalue, Branch.justification_of_models hvalue, Or.inl hwaiting, by simp [hquantifier],
    ?_, ?_⟩
  · intro hparts hmem outcome houtcome fact hfact
    rw [outcomes_effect rfl] at houtcome
    split at houtcome
    · obtain rfl : outcome = _ := by simpa using houtcome
      obtain rfl : fact = _ := by simpa using hfact
      exact hmem
    · obtain ⟨facts, hfacts, rfl⟩ := List.mem_map.mp houtcome
      rw [Lexicon.mem_arrange] at hfact
      rcases Sentence.mem_parts_of_alternatives? halts hfacts hfact with ⟨-, heq⟩ | ⟨-, hpart⟩
      · exact heq ▸ hmem
      · exact hparts _ hmem _ hpart
  all_goals
    match alternatives with
    | [] | [facts] | first :: second :: rest =>
        simp [Inference.terms, Inference.freshName?, effect]

/-- A sentence that waits for its rule gets it. -/
theorem exists_decompose? (h : isUndecomposed (tree.branch node) k = true) (lex : Lexicon)
    (number : Nat) : ∃ inf, decompose? lex tree node k number = some inf := by
  have hwaits := h
  simp only [isUndecomposed, Bool.and_eq_true, Bool.not_eq_true',
    Option.isSome_iff_exists] at hwaits
  obtain ⟨⟨⟨hterminal, hquantifier⟩, -⟩, value, hvalue⟩ := hwaits
  obtain ⟨alternatives, halts⟩ := k.sentence.exists_alternatives? hterminal hquantifier value
  exact ⟨_, decompose?_eq_some_iff.mpr ⟨h, value, alternatives, hvalue, halts, rfl⟩⟩

theorem Supplies.visible_or_minted {sort : SortId} {terms : List Sentence}
    (h : Supplies lex branch binder sort terms lex') {lex'' : Lexicon}
    (hgrows : lex'.GrowsTo lex'') :
    ∀ term ∈ terms, branch.Visible term ∨ ∃ sort, term = (lex.mint sort).1 ∧
      term ∈ lex''.entries := by
  intro term hterm
  rcases h.origin term hterm with hcandidate | ⟨rfl, rfl⟩
  · exact Or.inl (mem_candidates.mp hcandidate).1
  · exact Or.inr ⟨sort, rfl, hgrows.mem (lex.mem_entries_mint sort)⟩

theorem infers_dual {value : Bool} {s dual : Sentence}
    (hyields : Yields lex.sorts s value (dualEffect lex dual).1)
    (heffect : inf.effect = (dualEffect lex dual).1) :
    Infers lex branch s value inf (dualEffect lex dual).2 where
  yields := by rwa [heffect]
  grows := lex.growsTo_intern dual
  isThorough h := h.intern dual
  entered := by
    intro _ _ outcome houtcome fact hfact
    simp only [Inference.outcomes, heffect, dualEffect, List.mem_singleton] at houtcome
    subst houtcome
    obtain rfl : fact = _ := by simpa using hfact
    exact lex.mem_entries_intern dual
  terms := by simp [Inference.terms, heffect, dualEffect]
  fresh := by simp [Inference.freshName?, heffect, dualEffect]

theorem infers_universal {terms : List Sentence} {sort : SortId}
    (hbinder : binder.sort? = some sort) (hground : ∀ t, branch.Visible t → t.isGroundTerm = true)
    (hne : terms ≠ []) (hterms : Supplies lex branch binder sort terms lex')
    (heffect : inf.effect = .universal binder terms
      ((instancesFor lex' binder body terms).2.arrange
        ((instancesFor lex' binder body terms).1.map (Sentence.valued true)))) :
    Infers lex branch (.all binder body) true inf (instancesFor lex' binder body terms).2 where
  yields := by
    rw [heffect, fst_instancesFor, List.map_map]
    exact .universal _ hne (hterms.instantiates hbinder hground)
  grows := hterms.grows.trans (growsTo_instancesFor ..)
  isThorough h := isThorough_instancesFor (hterms.isThorough h) binder body terms
  entered := by
    intro _ _ outcome houtcome fact hfact
    simp only [Inference.outcomes, heffect, List.mem_singleton] at houtcome
    subst houtcome
    simp only [fst_instancesFor, Lexicon.mem_arrange, List.map_map, List.mem_map] at hfact
    obtain ⟨term, hterm, rfl⟩ := hfact
    exact mem_entries_instancesFor hterm
  terms := by
    simp only [Inference.terms, heffect]
    exact hterms.visible_or_minted (growsTo_instancesFor ..)
  fresh := by simp [Inference.freshName?, heffect]

theorem infers_existential {sort : SortId} (hbinder : binder.sort? = some sort)
    (hground : ∀ t, branch.Visible t → t.isGroundTerm = true)
    (heffect : inf.effect = .existential binder (witnesses lex branch binder sort).1
      ((instancesFor lex' binder body (witnesses lex branch binder sort).1).1.map fun inst =>
        (instancesFor lex' binder body (witnesses lex branch binder sort).1).2.arrange
          [inst.valued true]))
    (hlex : lex' = (witnesses lex branch binder sort).2) :
    Infers lex branch (.ex binder body) true inf
      (instancesFor lex' binder body (witnesses lex branch binder sort).1).2 := by
  subst hlex
  have hterms := supplies_witnesses lex branch binder sort
  have hlast : (witnesses lex branch binder sort).1.getLast? = some (lex.mint sort).1 := by
    simp [witnesses]
  refine ⟨?_, hterms.grows.trans (growsTo_instancesFor ..),
    fun h => isThorough_instancesFor (hterms.isThorough h) binder body _, ?_, ?_, ?_⟩
  · rw [heffect, fst_instancesFor, List.map_map]
    exact .existential _ hbinder hlast (hterms.instantiates hbinder hground)
  · intro _ _ outcome houtcome fact hfact
    simp only [Inference.outcomes, heffect, fst_instancesFor, List.map_map, List.mem_map]
      at houtcome
    obtain ⟨term, hterm, rfl⟩ := houtcome
    obtain rfl : fact = _ := by simpa using hfact
    exact mem_entries_instancesFor hterm
  · simp only [Inference.terms, heffect]
    exact hterms.visible_or_minted (growsTo_instancesFor ..)
  · intro hnames other hother
    obtain ⟨name, hname, hfresh⟩ := hnames.mint_fresh sort
    obtain rfl : name = other := by
      simpa [Inference.freshName?, heffect, hlast, hname, Sentence.constantName?] using hother
    exact hfresh

/-- A quantified sentence that is open has a value, and no mark. -/
theorem of_isOpenQuantifier (h : isOpenQuantifier lex branch k = true) :
    k.sentence.isQuantifier = true ∧ branch.isDecomposed k = false ∧
      ∃ value, branch.models k = some value := by
  unfold isOpenQuantifier isOpenAmong at h
  split at h
  · contradiction
  · next hmark =>
      refine ⟨?_, by simpa using hmark, ?_⟩
      all_goals split at h
      all_goals simp_all [Sentence.isQuantifier]

/-- The rule of a quantified sentence fires if the sentence is open and its binder has a sort,
where it needs one. -/
theorem instantiate?_eq_some_iff :
    instantiate? lex tree node k number = some (inf, lex') ↔
      isOpenQuantifier lex (tree.branch node) k = true ∧
        ∃ value r, (tree.branch node).models k = some value ∧
          quantifierEffect? lex (tree.branch node) k value = some r ∧
          inf = {
            node, number
            justification := ((tree.branch node).justification k value).getD 0
            origin := k.sentence
            effect := r.1 } ∧ lex' = r.2 := by
  unfold instantiate?
  simp only
  split
  · next hopen =>
      simp only [hopen, true_and, Option.bind_eq_bind, Option.bind_eq_some_iff, Option.pure_def,
        Option.some.injEq, Prod.mk.injEq]
      constructor
      · rintro ⟨value, hvalue, r, hr, hinf, hlex⟩
        exact ⟨value, r, hvalue, hr, hinf.symm, hlex.symm⟩
      · rintro ⟨value, r, hvalue, hr, hinf, hlex⟩
        exact ⟨value, hvalue, r, hr, hinf.symm, hlex.symm⟩
  · next hclosed => simp [hclosed]

theorem fires_instantiate? (hground : ∀ t, (tree.branch node).Visible t → t.isGroundTerm = true)
    (hconsistent : tree.isPathConsistent node = true)
    (h : instantiate? lex tree node k number = some (inf, lex')) :
    ∃ value, Fires lex tree node k value inf lex' := by
  obtain ⟨hopen, value, r, hvalue, hr, hinf, rfl⟩ := instantiate?_eq_some_iff.mp h
  have heffect : inf.effect = r.1 := by rw [hinf]
  have hmark : (tree.branch node).isDecomposed k = false := (of_isOpenQuantifier hopen).2.1
  have hunexhausted : ∀ binder body, k.sentence = .all binder body → value = true →
      isUnexhausted lex (tree.branch node) (tree.branch node).termsMentioned k binder = true := by
    intro binder body hk htrue
    simpa [isOpenQuantifier, isOpenAmong, hmark, hk, hvalue, htrue] using hopen
  have hinfers : Infers lex (tree.branch node) k.sentence value inf r.2 ∧
      ∀ binder terms facts, inf.effect = .universal binder terms facts →
        ((tree.branch node).instancesOf k = [] ∨ ∀ term ∈ terms,
          (tree.branch node).Visible term ∧ term ∉ (tree.branch node).instancesOf k) ∧
        terms.Nodup := by
    unfold quantifierEffect? at hr
    split at hr
    · next binder body hk =>
        simp only [Option.bind_eq_bind, Option.bind_eq_some_iff, Option.pure_def,
          Option.some.injEq] at hr
        obtain ⟨sort, hsort, rfl⟩ := hr
        refine ⟨hk ▸ infers_universal hsort hground (universalTerms_ne_nil _ _ _ _ _)
          (supplies_universalTerms ..) heffect, fun _ terms _ huniversal => ?_⟩
        rw [heffect, Effect.universal.injEq] at huniversal
        obtain ⟨-, rfl, -⟩ := huniversal
        refine ⟨?_, nodup_universalTerms ..⟩
        by_cases hused : (tree.branch node).instancesOf k = []
        · exact Or.inl hused
        · exact Or.inr fun term =>
            visible_of_mem_universalTerms (hunexhausted binder body hk rfl) hused
    · next binder body hk =>
        simp only [Option.bind_eq_bind, Option.bind_eq_some_iff, Option.pure_def,
          Option.some.injEq] at hr
        obtain ⟨sort, hsort, rfl⟩ := hr
        exact ⟨hk ▸ infers_existential hsort hground heffect rfl, by simp [heffect]⟩
    · next binder body hk =>
        obtain rfl := Option.some.inj hr
        exact ⟨hk ▸ infers_dual (.dualAll _) heffect, by simp [heffect, dualEffect]⟩
    · next binder body hk =>
        obtain rfl := Option.some.inj hr
        exact ⟨hk ▸ infers_dual (.dualEx _) heffect, by simp [heffect, dualEffect]⟩
    · contradiction
  subst hinf
  exact ⟨value, hinfers.1, rfl, rfl, hmark, hvalue, Branch.justification_of_models hvalue,
    Or.inr hopen, fun _ => hconsistent,
    fun binder terms facts heffect => (hinfers.2 binder terms facts heffect).1,
    fun binder terms facts heffect => (hinfers.2 binder terms facts heffect).2⟩

/-! An inference has the number that it is fired with. -/

theorem number_of_decompose? (h : decompose? lex tree node k number = some inf) :
    inf.number = number := by
  obtain ⟨-, value, alternatives, -, -, rfl⟩ := decompose?_eq_some_iff.mp h
  rfl

theorem number_of_instantiate? (h : instantiate? lex tree node k number = some (inf, lex')) :
    inf.number = number := by
  obtain ⟨-, value, r, -, -, rfl, -⟩ := instantiate?_eq_some_iff.mp h
  rfl

end Rule

end Tableau
