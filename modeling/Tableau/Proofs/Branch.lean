/-
What a branch says.  A branch says what any of its assignments says.  It is
consistent if it gives no sentence both values, and then the value of a sentence
at the nearest node is its only one.
-/
import Tableau.Proofs.Assignment
import Tableau.Proofs.Ordering
import Tableau.Rule.Propositional
import Tableau.Rule.Quantifier

namespace Tableau

namespace Branch

variable {branch above : Branch} {a : Assignment} {k : Key} {value : Bool} {lex : Lexicon}

theorem has_iff : branch.has k value = true ↔ ∃ a ∈ branch, a.has k value = true := by
  simp [has, justification, Assignment.has]

@[simp]
theorem has_cons :
    has (a :: above) k value = true ↔ a.has k value = true ∨ has above k value = true := by
  simp [has_iff]

/-- A branch gives a fact if it gives the sentence that value. -/
def Gives (branch : Branch) (fact : Fact) : Prop := branch.has fact.key fact.value = true

/-- All facts of a branch. -/
def facts (branch : Branch) : List Fact := branch.flatMap Assignment.facts

@[simp]
theorem mem_facts {fact : Fact} : fact ∈ branch.facts ↔ branch.Gives fact := by
  simp [facts, Gives, has_iff, Assignment.mem_facts]

theorem isMapped_iff : branch.isMapped k = true ↔ ∃ value, branch.has k value = true := by
  simp only [isMapped, List.any_eq_true, Assignment.isMapped_iff, has_iff]
  constructor
  · rintro ⟨a, ha, value, hvalue⟩
    exact ⟨value, a, ha, hvalue⟩
  · rintro ⟨value, a, ha, hvalue⟩
    exact ⟨a, ha, value, hvalue⟩

theorem isDecomposed_iff :
    branch.isDecomposed k = true ↔ ∃ a ∈ branch, a.isDecomposed k = true := by
  simp [isDecomposed]

theorem mem_instancesOf {term : Sentence} :
    term ∈ branch.instancesOf k ↔ ∃ a ∈ branch, term ∈ a.instancesOf k := by
  simp [instancesOf]

/-! Consistency. -/

theorem clashes_cons :
    clashes (a :: above) = true ↔
      ∃ k value, a.has k value = true ∧ has (a :: above) k (!value) = true := by
  simp only [clashes, Table.any_eq, List.any_eq_true, Prod.exists, Table.mem_toList, has_cons]
  constructor
  · rintro ⟨k, tv, hfind, hopposes⟩
    have hhas : ∀ value, a.has k value = tv.has value := fun value => by
      unfold Assignment.has Assignment.justification Assignment.get?
      rw [hfind]
      rfl
    simp only [opposes, TruthValue.isTrue, TruthValue.isFalse, ← hhas, Bool.or_eq_true,
      Bool.and_eq_true] at hopposes
    rcases hopposes with ⟨htrue, hfalse⟩ | ⟨hfalse, htrue⟩
    · exact ⟨k, true, htrue, hfalse⟩
    · exact ⟨k, false, hfalse, Or.inr htrue⟩
  · rintro ⟨k, value, hvalue, hopposite⟩
    obtain ⟨tv, hfind, hhas⟩ := Assignment.has_iff.mp hvalue
    have hother : a.has k (!value) = tv.has (!value) := by
      unfold Assignment.has Assignment.justification
      rw [hfind]
      rfl
    refine ⟨k, tv, hfind, ?_⟩
    rw [hother] at hopposite
    cases value
    · simp only [opposes, TruthValue.isTrue, TruthValue.isFalse, Bool.not_false] at hhas hopposite ⊢
      rcases hopposite with htv | habove
      · simp [hhas, htv]
      · simp [hhas, habove]
    · simp only [opposes, TruthValue.isTrue, TruthValue.isFalse, Bool.not_true] at hhas hopposite ⊢
      rcases hopposite with htv | habove
      · simp [hhas, htv]
      · simp [hhas, habove]

/-- A branch is consistent if and only if it gives no sentence both values. -/
theorem isConsistent_iff :
    branch.isConsistent = true ↔
      ∀ k value, branch.has k value = true → branch.has k (!value) = false := by
  induction branch with
  | nil => simp [isConsistent, has, justification]
  | cons a above ih =>
      rw [isConsistent, Bool.and_eq_true, ih, Bool.not_eq_true', ← Bool.not_eq_true, clashes_cons]
      constructor
      · rintro ⟨hclash, habove⟩ k value hvalue
        rw [← Bool.not_eq_true]
        intro hopposite
        rcases has_cons.mp hvalue with hvalue' | hvalue'
        · exact hclash ⟨k, value, hvalue', hopposite⟩
        · rcases has_cons.mp hopposite with hopposite' | hopposite'
          · exact hclash ⟨k, !value, hopposite', by simpa using hvalue⟩
          · simp [habove k value hvalue'] at hopposite'
      · intro hall
        constructor
        · rintro ⟨k, value, hvalue, hopposite⟩
          simp [hall k value (has_cons.mpr (Or.inl hvalue))] at hopposite
        · intro k value hvalue
          have hnone := hall k value (has_cons.mpr (Or.inr hvalue))
          rw [← Bool.not_eq_true] at hnone ⊢
          exact fun hopposite => hnone (has_cons.mpr (Or.inr hopposite))

theorem isConsistent_iff_not_both :
    branch.isConsistent = true ↔ ¬∃ k, branch.has k true = true ∧ branch.has k false = true := by
  rw [isConsistent_iff]
  constructor
  · rintro hall ⟨k, htrue, hfalse⟩
    have hnone : branch.has k false = false := hall k true htrue
    rw [hnone] at hfalse
    contradiction
  · intro hnone k value hvalue
    rw [← Bool.not_eq_true]
    intro hopposite
    cases value
    · exact hnone ⟨k, hopposite, hvalue⟩
    · exact hnone ⟨k, hvalue, hopposite⟩

/-- The value at the nearest node is one that the branch gives. -/
theorem has_of_models (h : branch.models k = some value) : branch.has k value = true := by
  unfold models at h
  cases hfind : branch.find? (·.isMapped k) with
  | none => simp [hfind] at h
  | some a =>
      simp only [hfind, Option.bind_some, Assignment.models_eq_some] at h
      exact has_iff.mpr ⟨a, List.mem_of_find?_eq_some hfind, h.1⟩

/-- A value at the nearest node has been given by some inference. -/
theorem justification_of_models (h : branch.models k = some value) :
    branch.justification k value = some ((branch.justification k value).getD 0) := by
  obtain ⟨number, hnumber⟩ := Option.isSome_iff_exists.mp (has_of_models h)
  simp [hnumber]

/-- On a consistent branch the value at the nearest node is the only one. -/
theorem models_eq_some (hcons : branch.isConsistent = true) :
    branch.models k = some value ↔ branch.has k value = true := by
  constructor
  · exact has_of_models
  · intro hhas
    obtain ⟨a, ha, hvalue⟩ := has_iff.mp hhas
    have hmapped : a.isMapped k = true := Assignment.isMapped_iff.mpr ⟨value, hvalue⟩
    unfold models
    cases hfind : branch.find? (·.isMapped k) with
    | none =>
        have := List.find?_eq_none.mp hfind a ha
        exact absurd hmapped this
    | some nearest =>
        have hmem := List.mem_of_find?_eq_some hfind
        have hnearest := List.find?_some (p := fun a => Assignment.isMapped a k) hfind
        obtain ⟨v, hv⟩ := Assignment.isMapped_iff.mp hnearest
        have hopposite := isConsistent_iff.mp hcons k value hhas
        have hnot : nearest.has k (!value) = false := by
          rw [← Bool.not_eq_true] at hopposite ⊢
          exact fun h => hopposite (has_iff.mpr ⟨nearest, hmem, h⟩)
        by_cases hsame : v = value
        · subst hsame
          exact Assignment.models_eq_some.mpr ⟨hv, hnot⟩
        · rw [Bool.eq_not.mpr hsame, hnot] at hv
          contradiction

/-! The lists that are read off a branch. -/

/-- A sentence is listed at the node nearest to the root that gives it a value. -/
theorem mem_mappedWhere {test : Key → TruthValue → Bool} :
    k ∈ mappedWhere lex test branch ↔
      ∃ a above tv, a :: above <:+ branch ∧ a.get? k = some tv ∧ tv.isMapped = true ∧
        isMapped above k = false ∧ test k tv = true := by
  induction branch with
  | nil => simp [mappedWhere]
  | cons first rest ih =>
      simp only [mappedWhere, List.mem_append, Lexicon.mem_arrangeKeys,
        Assignment.mem_mappedWhere, ih]
      constructor
      · rintro (⟨a, above, tv, hsuffix, hrest⟩ | ⟨tv, hfind, hmapped, htest⟩)
        · exact ⟨a, above, tv, hsuffix.trans (List.suffix_cons first rest), hrest⟩
        · simp only [Bool.and_eq_true, Bool.not_eq_true'] at htest
          exact ⟨first, rest, tv, List.suffix_rfl, hfind, hmapped, htest.2, htest.1⟩
      · rintro ⟨a, above, tv, hsuffix, hfind, hmapped, habove, htest⟩
        rcases List.suffix_cons_iff.mp hsuffix with heq | hsuffix
        · simp only [List.cons.injEq] at heq
          obtain ⟨rfl, rfl⟩ := heq
          exact Or.inr ⟨tv, hfind, hmapped, by simp [htest, habove]⟩
        · exact Or.inl ⟨a, above, tv, hsuffix, hfind, hmapped, habove, htest⟩

/-- Every sentence with a value has a node nearest to the root that gives it. -/
theorem exists_first_mapped (h : branch.isMapped k = true) :
    ∃ a above tv, a :: above <:+ branch ∧ a.get? k = some tv ∧ tv.isMapped = true ∧
      isMapped above k = false := by
  induction branch with
  | nil => simp [isMapped] at h
  | cons first rest ih =>
      cases hrest : isMapped rest k with
      | true =>
          obtain ⟨a, above, tv, hsuffix, hfirst⟩ := ih hrest
          exact ⟨a, above, tv, hsuffix.trans (List.suffix_cons first rest), hfirst⟩
      | false =>
          have hfirst : first.isMapped k = true := by
            simp only [isMapped, List.any_cons, Bool.or_eq_true] at h hrest
            simpa [hrest] using h
          simp only [Assignment.isMapped, Option.any_eq_true] at hfirst
          obtain ⟨tv, hfind, hmapped⟩ := hfirst
          exact ⟨first, rest, tv, List.suffix_rfl, hfind, hmapped, hrest⟩

/-- No sentence is listed twice. -/
theorem nodup_mappedWhere (lex : Lexicon) (test : Key → TruthValue → Bool) (branch : Branch) :
    (mappedWhere lex test branch).Nodup := by
  induction branch with
  | nil => simp [mappedWhere]
  | cons a above ih =>
      refine List.nodup_append.mpr ⟨ih, ?_, ?_⟩
      · rw [(lex.perm_arrangeKeys _).nodup_iff]
        exact a.values.nodup_keysWhere _
      · rintro k hk _ hnew rfl
        obtain ⟨b, rest, tv, hsuffix, hget, hmapped, -⟩ := mem_mappedWhere.mp hk
        simp only [Lexicon.mem_arrangeKeys, Assignment.mem_mappedWhere, Bool.and_eq_true,
          Bool.not_eq_true'] at hnew
        obtain ⟨-, -, -, -, hunmapped⟩ := hnew
        have habove : isMapped above k = true := by
          simp only [isMapped, List.any_eq_true]
          exact ⟨b, hsuffix.subset List.mem_cons_self, by simp [Assignment.isMapped, hget, hmapped]⟩
        rw [habove] at hunmapped
        contradiction

@[simp]
theorem mem_mapped : k ∈ mapped lex branch ↔ branch.isMapped k = true := by
  rw [mapped, mem_mappedWhere]
  constructor
  · rintro ⟨a, above, tv, hsuffix, hfind, hmapped, -⟩
    simp only [isMapped, List.any_eq_true]
    exact ⟨a, hsuffix.subset List.mem_cons_self, by simp [Assignment.isMapped, hfind, hmapped]⟩
  · intro hmapped
    obtain ⟨a, above, tv, hsuffix, hfind, htv, habove⟩ := exists_first_mapped hmapped
    exact ⟨a, above, tv, hsuffix, hfind, htv, habove, rfl⟩

/-- Sentences that are selected from those that pass a test are listed in the order of all that
have a value. -/
theorem filter_mappedWhere {test : Key → TruthValue → Bool} {p p' : Key → Bool}
    (h : ∀ a ∈ branch, ∀ k tv, a.get? k = some tv → (test k tv && p k) = p' k) :
    (mappedWhere lex test branch).filter p = (mapped lex branch).filter p' := by
  induction branch with
  | nil => rfl
  | cons a above ih =>
      obtain ⟨ha, habove⟩ := List.forall_mem_cons.mp h
      have hnode : (a.mappedWhere fun k tv => test k tv && !isMapped above k).filter p =
          (a.mappedWhere fun k _ => true && !isMapped above k).filter p' := by
        refine Assignment.filter_mappedWhere fun k tv hfind => ?_
        rw [← ha k tv hfind, Bool.true_and, Bool.and_right_comm, Bool.and_comm]
      have hrest := ih habove
      simp only [mapped, mappedWhere, List.filter_append, Lexicon.filter_arrangeKeys] at hrest ⊢
      rw [hrest, hnode]

/-- A term is visible on a branch if it is a ground term of a sentence with a
value, or if a universal sentence has been instantiated for it. -/
def Visible (branch : Branch) (term : Sentence) : Prop :=
  (∃ k value, branch.has k value = true ∧ term ∈ k.sentence.subsentences ∧
      term.isGroundTerm = true) ∨
    ∃ k, term ∈ branch.instancesOf k

/-- What is visible stays so when the branch grows. -/
theorem Visible.mono {other : Branch} {term : Sentence} (h : branch.Visible term)
    (hhas : ∀ k value, branch.has k value = true → other.has k value = true)
    (hinst : ∀ k, branch.instancesOf k ⊆ other.instancesOf k) : other.Visible term := by
  rcases h with ⟨k, value, hvalue, hterm⟩ | ⟨k, hterm⟩
  · exact Or.inl ⟨k, value, hhas k value hvalue, hterm⟩
  · exact Or.inr ⟨k, hinst k hterm⟩

theorem mem_foldr_groundTermsOnto {keys : List Key} {rest : List Sentence} {term : Sentence} :
    term ∈ keys.foldr (fun k rest => k.sentence.groundTermsOnto rest) rest ↔
      (∃ k ∈ keys, term ∈ k.sentence.subsentences ∧ term.isGroundTerm = true) ∨ term ∈ rest := by
  induction keys with
  | nil => simp
  | cons k keys ih =>
      rw [List.foldr_cons, Sentence.groundTermsOnto_eq, List.mem_append, List.mem_filter, ih]
      simp [or_assoc]

@[simp]
theorem mem_groundTerms {term : Sentence} :
    term ∈ branch.groundTerms lex ↔ branch.Visible term := by
  simp only [groundTerms, Sentence.mem_distinct, mem_foldr_groundTermsOnto, mem_mapped,
    isMapped_iff,
    List.mem_flatMap, List.mem_reverse, Lexicon.mem_arrangeSentences, Assignment.mem_instanceTerms,
    Visible, mem_instancesOf]
  constructor
  · rintro (⟨k, ⟨value, hvalue⟩, hterm⟩ | ⟨a, ha, k, hterm⟩)
    · exact Or.inl ⟨k, value, hvalue, hterm⟩
    · exact Or.inr ⟨k, a, ha, hterm⟩
  · rintro (⟨k, value, hvalue, hterm⟩ | ⟨k, a, ha, hterm⟩)
    · exact Or.inl ⟨k, ⟨value, hvalue⟩, hterm⟩
    · exact Or.inr ⟨a, ha, k, hterm⟩

theorem nodup_groundTerms (lex : Lexicon) (branch : Branch) : (branch.groundTerms lex).Nodup := by
  rw [groundTerms, Sentence.distinct_eq]
  exact nodup_distinct _

@[simp]
theorem mem_termsMentioned {term : Sentence} :
    term ∈ branch.termsMentioned ↔ branch.Visible term := by
  simp only [termsMentioned, Sentence.mem_distinct, List.mem_flatMap, mem_foldr_groundTermsOnto,
    Assignment.mem_mapped, Assignment.mem_instanceTerms, Visible, has_iff, mem_instancesOf,
    Assignment.isMapped_iff]
  constructor
  · rintro ⟨a, ha, ⟨k, ⟨value, hvalue⟩, hterm⟩ | ⟨k, hterm⟩⟩
    · exact Or.inl ⟨k, value, ⟨a, ha, hvalue⟩, hterm⟩
    · exact Or.inr ⟨k, a, ha, hterm⟩
  · rintro (⟨k, value, ⟨a, ha, hvalue⟩, hterm⟩ | ⟨k, a, ha, hterm⟩)
    · exact ⟨a, ha, Or.inl ⟨k, ⟨value, hvalue⟩, hterm⟩⟩
    · exact ⟨a, ha, Or.inr ⟨k, hterm⟩⟩

end Branch

end Tableau
