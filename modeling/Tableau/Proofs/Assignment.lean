/-
What an assignment says.  Of an assignment only three things can be asked: which
facts it has, which sentences it marks as decomposed, and for which terms its
universal sentences have been instantiated.  Every change is described by what it
does to these three.
-/
import Tableau.Assignment

namespace Tableau

namespace Fact

@[simp]
theorem key_valued (value : Bool) (s : Sentence) : (s.valued value).key = s.key := rfl

@[simp]
theorem value_valued (value : Bool) (s : Sentence) : (s.valued value).value = value := rfl

@[simp]
theorem sentence_mk (k : Key) (value : Bool) : (Fact.mk k value).sentence = k.sentence := rfl

@[simp]
theorem key_sentence_fact (fact : Fact) : fact.sentence.key = fact.key := by
  simp [Fact.sentence]

end Fact

namespace TruthValue

@[simp]
theorem justification_empty (value : Bool) : ({} : TruthValue).justification value = none := by
  cases value <;> rfl

@[simp]
theorem has_empty (value : Bool) : ({} : TruthValue).has value = false := by
  cases value <;> rfl

@[simp]
theorem has_set (tv : TruthValue) (value other : Bool) (number : Nat) :
    (set value number tv).1.has other = true ↔ tv.has other = true ∨ other = value := by
  by_cases h : tv.has value = true
  · have hset : (set value number tv).1 = tv := by simp [set, h]
    rw [hset]
    constructor
    · exact Or.inl
    · rintro (hother | rfl)
      · exact hother
      · exact h
  · cases value <;> cases other <;> simp_all [set, has, justification]

/-- The first inference that gives a value is the one remembered. -/
theorem justification_set (tv : TruthValue) (value other : Bool) (number : Nat) :
    (set value number tv).1.justification other =
      (tv.justification other).or (if other = value then some number else none) := by
  by_cases h : tv.has value = true
  · have hset : (set value number tv).1 = tv := by simp [set, h]
    obtain ⟨first, hfirst⟩ := Option.isSome_iff_exists.mp h
    rw [hset]
    by_cases hother : other = value
    · simp [hother, hfirst]
    · simp [hother]
  · cases value <;> cases other <;> simp_all [set, has, justification]

@[simp]
theorem decomposed_set (tv : TruthValue) (value : Bool) (number : Nat) :
    (set value number tv).1.decomposed = tv.decomposed := by
  unfold set
  split
  · rfl
  · split <;> rfl

theorem snd_set (tv : TruthValue) (value : Bool) (number : Nat) :
    (set value number tv).2 = !tv.has value := by
  by_cases h : tv.has value = true
  · simp [set, h]
  · cases value <;> simp [set, h]

@[simp]
theorem justification_decompose (tv : TruthValue) (value : Bool) :
    (decompose tv).1.justification value = tv.justification value := rfl

@[simp]
theorem has_decompose (tv : TruthValue) (value : Bool) :
    (decompose tv).1.has value = tv.has value := rfl

/-- Exactly one value is given. -/
theorem get?_eq_some {tv : TruthValue} {value : Bool} :
    tv.get? = some value ↔ tv.has value = true ∧ tv.has (!value) = false := by
  unfold get? isTrue isFalse
  cases value <;> cases htrue : tv.has true <;> cases hfalse : tv.has false <;> simp [htrue, hfalse]

theorem isMapped_iff {tv : TruthValue} : tv.isMapped = true ↔ ∃ value, tv.has value = true := by
  simp [isMapped, isTrue, isFalse, or_comm]

end TruthValue

namespace Assignment

theorem has_iff {a : Assignment} {k : Key} {value : Bool} :
    a.has k value = true ↔ ∃ tv, a.get? k = some tv ∧ tv.has value = true := by
  unfold has justification
  cases a.get? k <;> simp [TruthValue.has]

theorem isMapped_iff {a : Assignment} {k : Key} :
    a.isMapped k = true ↔ ∃ value, a.has k value = true := by
  simp only [isMapped, Option.any_eq_true, has_iff, TruthValue.isMapped_iff]
  constructor
  · rintro ⟨tv, htv, value, hvalue⟩
    exact ⟨value, tv, htv, hvalue⟩
  · rintro ⟨value, tv, htv, hvalue⟩
    exact ⟨tv, htv, value, hvalue⟩

/-- Exactly one value is given. -/
theorem models_eq_some {a : Assignment} {k : Key} {value : Bool} :
    a.models k = some value ↔ a.has k value = true ∧ a.has k (!value) = false := by
  unfold models has justification
  cases a.get? k with
  | none => simp
  | some tv => exact TruthValue.get?_eq_some

theorem isDecomposed_iff {a : Assignment} {k : Key} :
    a.isDecomposed k = true ↔ ∃ tv, a.get? k = some tv ∧ tv.decomposed = true := by
  simp [isDecomposed, Option.any_eq_true]

@[simp]
theorem mem_facts {a : Assignment} {fact : Fact} :
    fact ∈ a.facts ↔ a.has fact.key fact.value = true := by
  obtain ⟨k, value⟩ := fact
  simp only [facts, factsOf, List.mem_flatMap, List.mem_map, List.mem_filter, has_iff]
  constructor
  · rintro ⟨⟨other, tv⟩, hentry, v, ⟨-, hv⟩, heq⟩
    simp only [Fact.mk.injEq] at heq
    obtain ⟨rfl, rfl⟩ := heq
    exact ⟨tv, Table.mem_toList.mp hentry, hv⟩
  · rintro ⟨tv, htv, hv⟩
    exact ⟨(k, tv), Table.mem_toList.mpr htv, value, ⟨by cases value <;> simp, hv⟩, rfl⟩

theorem mem_mappedWhere {a : Assignment} {test : Key → TruthValue → Bool} {k : Key} :
    k ∈ a.mappedWhere test ↔
      ∃ tv, a.get? k = some tv ∧ tv.isMapped = true ∧ test k tv = true := by
  simp [mappedWhere, get?]

/-- The sentences that pass one test may be selected from those that pass another. -/
theorem filter_mappedWhere {a : Assignment} {test test' : Key → TruthValue → Bool}
    {p p' : Key → Bool}
    (h : ∀ k tv, a.get? k = some tv → (test k tv && p k) = (test' k tv && p' k)) :
    (a.mappedWhere test).filter p = (a.mappedWhere test').filter p' := by
  simp only [mappedWhere, Table.keysWhere_eq, List.filter_map, List.filter_filter]
  refine congrArg (List.map _) (List.filter_congr fun entry hentry => ?_)
  have hsame := h entry.1 entry.2 (Table.mem_toList.mp hentry)
  simp only [Function.comp_apply, Bool.and_comm (p _), Bool.and_comm (p' _), Bool.and_assoc, hsame]

@[simp]
theorem mem_mapped {a : Assignment} {k : Key} : k ∈ a.mapped ↔ a.isMapped k = true := by
  simp [mapped, mem_mappedWhere, isMapped, Option.any_eq_true]

@[simp]
theorem mem_decomposed {a : Assignment} {k : Key} :
    k ∈ a.decomposed ↔ a.isDecomposed k = true := by
  simp [decomposed, isDecomposed_iff, get?]

@[simp]
theorem mem_instanceTerms {a : Assignment} {term : Sentence} :
    term ∈ a.instanceTerms ↔ ∃ k, term ∈ a.instancesOf k := by
  simp only [instanceTerms, instancesOf, List.mem_flatMap]
  constructor
  · rintro ⟨⟨k, terms⟩, hentry, hterm⟩
    refine ⟨k, ?_⟩
    rw [Table.mem_toList.mp hentry]
    exact hterm
  · rintro ⟨k, hterm⟩
    cases hfind : a.instances.find? k with
    | none => simp [hfind] at hterm
    | some terms =>
        simp only [hfind, Option.getD_some] at hterm
        exact ⟨(k, terms), Table.mem_toList.mpr hfind, hterm⟩

/-- Universal sentences with the terms that they have been instantiated for. -/
def terms (a : Assignment) : List (Key × Sentence) :=
  a.instances.toList.flatMap fun entry => entry.2.map (entry.1, ·)

@[simp]
theorem mem_terms {a : Assignment} {k : Key} {term : Sentence} :
    (k, term) ∈ a.terms ↔ term ∈ a.instancesOf k := by
  simp only [terms, instancesOf, List.mem_flatMap, List.mem_map, Prod.mk.injEq, Prod.exists,
    Table.mem_toList]
  constructor
  · rintro ⟨_, terms, hentry, _, hterm, rfl, rfl⟩
    rw [hentry]
    exact hterm
  · intro hterm
    cases hfind : a.instances.find? k with
    | none => simp [hfind] at hterm
    | some terms => exact ⟨k, terms, hfind, term, by simpa [hfind] using hterm, rfl, rfl⟩

@[simp]
theorem justification_empty (k : Key) (value : Bool) :
    ({} : Assignment).justification k value = none := rfl

@[simp]
theorem has_empty (k : Key) (value : Bool) : ({} : Assignment).has k value = false := rfl

@[simp]
theorem isDecomposed_empty (k : Key) : ({} : Assignment).isDecomposed k = false := rfl

@[simp]
theorem instancesOf_empty (k : Key) : ({} : Assignment).instancesOf k = [] := rfl

/-! The three questions after every change. -/

@[simp]
theorem has_set {a : Assignment} {k other : Key} {value v : Bool} {number : Nat} :
    (set k value number a).1.has other v = true ↔
      a.has other v = true ∨ other = k ∧ v = value := by
  simp only [has_iff, set, get?_alter]
  by_cases h : other = k
  · subst h
    cases hget : a.get? other <;> simp
  · simp [h]

@[simp]
theorem isDecomposed_set {a : Assignment} {k other : Key} {value : Bool} {number : Nat} :
    (set k value number a).1.isDecomposed other = a.isDecomposed other := by
  unfold isDecomposed set
  rw [get?_alter]
  by_cases h : other = k
  · subst h
    cases hget : a.get? other <;> simp
  · simp [h]

@[simp]
theorem instancesOf_set {a : Assignment} {k other : Key} {value : Bool} {number : Nat} :
    (set k value number a).1.instancesOf other = a.instancesOf other := rfl

@[simp]
theorem has_decompose {a : Assignment} {k other : Key} {value : Bool} :
    (decompose k a).1.has other value = true ↔ a.has other value = true := by
  simp only [has_iff, decompose, get?_alter]
  by_cases h : other = k
  · subst h
    cases hget : a.get? other <;> simp
  · simp [h]

@[simp]
theorem isDecomposed_decompose {a : Assignment} {k other : Key} :
    (decompose k a).1.isDecomposed other = true ↔ a.isDecomposed other = true ∨ other = k := by
  simp only [isDecomposed_iff, decompose, get?_alter]
  by_cases h : other = k
  · subst h
    cases hget : a.get? other <;> simp [TruthValue.decompose]
  · simp [h]

@[simp]
theorem instancesOf_decompose {a : Assignment} {k other : Key} :
    (decompose k a).1.instancesOf other = a.instancesOf other := rfl

@[simp]
theorem has_instantiate {a : Assignment} {k other : Key} {term : Sentence} {value : Bool} :
    (instantiate k term a).1.has other value = a.has other value := rfl

@[simp]
theorem isDecomposed_instantiate {a : Assignment} {k other : Key} {term : Sentence} :
    (instantiate k term a).1.isDecomposed other = a.isDecomposed other := rfl

@[simp]
theorem mem_instancesOf_instantiate {a : Assignment} {k other : Key} {term t : Sentence} :
    t ∈ (instantiate k term a).1.instancesOf other ↔
      t ∈ a.instancesOf other ∨ other = k ∧ t = term := by
  simp only [instancesOf, instantiate, Table.find?_alter]
  by_cases h : other = k
  · subst h
    by_cases hterm : term ∈ (a.instances.find? other).getD []
    · simp only [↓reduceIte, List.contains_iff_mem, hterm, Option.getD_some, true_and]
      constructor
      · exact Or.inl
      · rintro (ht | rfl)
        · exact ht
        · exact hterm
    · simp [hterm]
  · simp [h]

/-! Numbers of inferences after every change. -/

theorem justification_set {a : Assignment} {k other : Key} {value v : Bool} {number : Nat} :
    (set k value number a).1.justification other v =
      (a.justification other v).or (if other = k ∧ v = value then some number else none) := by
  simp only [justification, set, get?_alter]
  by_cases h : other = k
  · subst h
    cases hget : a.get? other <;> simp [TruthValue.justification_set]
  · simp [h]

@[simp]
theorem justification_decompose {a : Assignment} {k other : Key} {value : Bool} :
    (decompose k a).1.justification other value = a.justification other value := by
  simp only [justification, decompose, get?_alter]
  by_cases h : other = k
  · subst h
    cases hget : a.get? other <;> simp
  · simp [h]

@[simp]
theorem justification_instantiate {a : Assignment} {k other : Key} {term : Sentence}
    {value : Bool} :
    (instantiate k term a).1.justification other value = a.justification other value := rfl

theorem instancesOf_instantiate {a : Assignment} {k other : Key} {term : Sentence} :
    (instantiate k term a).1.instancesOf other =
      if other = k ∧ term ∉ a.instancesOf k then a.instancesOf other ++ [term]
      else a.instancesOf other := by
  simp only [instancesOf, instantiate, Table.find?_alter]
  by_cases h : other = k
  · subst h
    by_cases hterm : term ∈ (a.instances.find? other).getD []
    · simp [hterm]
    · simp [hterm]
  · simp [h]

/-! What every change reports. -/

private theorem has_eq_getD (a : Assignment) (k : Key) (value : Bool) :
    a.has k value = ((a.get? k).getD {}).has value := by
  rw [has, justification]
  cases a.get? k with
  | none => exact (TruthValue.has_empty value).symm
  | some tv => rfl

theorem snd_set (k : Key) (value : Bool) (number : Nat) (a : Assignment) :
    (set k value number a).2 = !a.has k value := by
  rw [has_eq_getD, ← TruthValue.snd_set _ value number]
  exact Table.snd_alter k {} (TruthValue.set value number) a.values

theorem snd_decompose (k : Key) (a : Assignment) : (decompose k a).2 = !a.isDecomposed k := by
  have hmark : a.isDecomposed k = ((a.get? k).getD {}).decomposed := by
    rw [isDecomposed]
    cases a.get? k <;> rfl
  rw [hmark]
  exact Table.snd_alter k {} TruthValue.decompose a.values

theorem snd_instantiate (k : Key) (term : Sentence) (a : Assignment) :
    (instantiate k term a).2 = !(a.instancesOf k).contains term := by
  simp only [instantiate, Table.snd_alter, instancesOf]
  by_cases h : ((a.instances.find? k).getD []).contains term = true
  · simp only [h, if_true, Bool.not_true]
  · simp only [h, Bool.false_eq_true, if_false, Bool.not_false]

/-! An assignment that is made from facts. -/

/-- Setting facts one after the other adds these facts and nothing else. -/
theorem each_set (facts : List Fact) (number : Nat) (a : Assignment) :
    let r := (Update.each (fun fact => set fact.key fact.value number) facts a).1
    (∀ k value, r.has k value = true ↔ a.has k value = true ∨ ⟨k, value⟩ ∈ facts) ∧
      (∀ k, r.isDecomposed k = a.isDecomposed k) ∧
      r.instances = a.instances := by
  induction facts generalizing a with
  | nil => simp [Update.each, Update.skip]
  | cons fact facts ih =>
      obtain ⟨hhas, hmarks, hinsts⟩ := ih (set fact.key fact.value number a).1
      refine ⟨fun k value => ?_, fun k => ?_, hinsts⟩
      · simp only [Update.each, Update.andThen, hhas, has_set, List.mem_cons]
        rw [or_assoc, show (⟨k, value⟩ : Fact) = fact ↔ k = fact.key ∧ value = fact.value by
          cases fact; simp]
      · simp only [Update.each, Update.andThen, hmarks, isDecomposed_set]

/-- All facts of an assignment that is made from them are due to the same inference. -/
theorem justification_ofFacts {facts : List Fact} {number : Nat} {k : Key} {value : Bool} :
    (ofFacts facts number).justification k value =
      if ⟨k, value⟩ ∈ facts then some number else none := by
  have heach : ∀ a : Assignment,
      (Update.each (fun fact => set fact.key fact.value number) facts a).1.justification k value =
        (a.justification k value).or (if ⟨k, value⟩ ∈ facts then some number else none) := by
    induction facts with
    | nil => simp [Update.each, Update.skip]
    | cons fact facts ih =>
        intro a
        have hfact : (⟨k, value⟩ : Fact) = fact ↔ k = fact.key ∧ value = fact.value := by
          cases fact
          simp
        simp only [Update.each, Update.andThen, ih, justification_set, Option.or_assoc,
          List.mem_cons, hfact]
        by_cases hfirst : k = fact.key ∧ value = fact.value
        · simp [hfirst]
        · simp [hfirst]
  simpa [ofFacts] using heach {}

@[simp]
theorem has_ofFacts {facts : List Fact} {number : Nat} {k : Key} {value : Bool} :
    (ofFacts facts number).has k value = true ↔ ⟨k, value⟩ ∈ facts := by
  rw [ofFacts, (each_set facts number {}).1 k value]
  simp

@[simp]
theorem isDecomposed_ofFacts (facts : List Fact) (number : Nat) (k : Key) :
    (ofFacts facts number).isDecomposed k = false :=
  (each_set facts number {}).2.1 k

@[simp]
theorem instances_ofFacts (facts : List Fact) (number : Nat) :
    (ofFacts facts number).instances = {} :=
  (each_set facts number {}).2.2

@[simp]
theorem instancesOf_ofFacts (facts : List Fact) (number : Nat) (k : Key) :
    (ofFacts facts number).instancesOf k = [] := by
  simp [instancesOf]

@[simp]
theorem decomposed_ofFacts (facts : List Fact) (number : Nat) :
    (ofFacts facts number).decomposed = [] := by
  apply List.eq_nil_iff_forall_not_mem.mpr
  intro k hk
  simp at hk

end Assignment

end Tableau
