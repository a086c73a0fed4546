/-
Merging an assignment into a tree.  All that the assignment has is found at the node afterwards,
and what the branch had before stays as it was, with the numbers of its inferences.  The report is
exact: it tells whether the branch lacked anything, and so whether the tree is a different one.
At the root, where nothing is inherited, merging is the same as merging two assignments.
-/
import Tableau.Proofs.Construction
import Tableau.Proofs.Search.Persistence

namespace Tableau

/-! Merging two assignments. -/

namespace TruthValue

variable {tv other : TruthValue}

theorem justification_setBy (number : Option Nat) (value v : Bool) :
    (setBy value number tv).1.justification v =
      (tv.justification v).or (if v = value then number else none) := by
  cases number with
  | none =>
      rw [ite_self, Option.or_none]
      rfl
  | some number => exact justification_set tv value v number

@[simp]
theorem decomposed_setBy (number : Option Nat) (value : Bool) :
    (setBy value number tv).1.decomposed = tv.decomposed := by
  cases number with
  | none => rfl
  | some number => exact decomposed_set tv value number

/-- Every value keeps the first inference that gave it. -/
theorem justification_merge (value : Bool) :
    (merge other tv).1.justification value =
      (tv.justification value).or (other.justification value) := by
  have hmark : ∀ tv : TruthValue,
      ((if other.decomposed then decompose else Update.skip) tv).1.justification value =
        tv.justification value := by
    intro tv
    split <;> rfl
  have hmerge := hmark (setBy false other.falseBy (setBy true other.trueBy tv).1).1
  have hother : (if value = true then other.trueBy else none).or
      (if value = false then other.falseBy else none) = other.justification value := by
    cases value with
    | false => rfl
    | true => exact Option.or_none
  rw [justification_setBy, justification_setBy, Option.or_assoc, hother] at hmerge
  exact hmerge

theorem eq_empty_iff : tv = {} ↔ (∀ value, tv.has value = false) ∧ tv.decomposed = false := by
  constructor
  · rintro rfl
    exact ⟨has_empty, rfl⟩
  · rintro ⟨hhas, hmark⟩
    obtain ⟨trueBy, falseBy, decomposed⟩ := tv
    have htrue : trueBy.isSome = false := hhas true
    have hfalse : falseBy.isSome = false := hhas false
    rw [Option.isSome_eq_false_iff, Option.isNone_iff_eq_none] at htrue hfalse
    rw [htrue, hfalse]
    exact congrArg (mk none none) hmark

theorem decomposed_merge :
    (merge other tv).1.decomposed = (tv.decomposed || other.decomposed) := by
  have hmark : ∀ tv : TruthValue,
      ((if other.decomposed then decompose else Update.skip) tv).1.decomposed =
        (tv.decomposed || other.decomposed) := by
    intro tv
    cases other.decomposed with
    | false => exact (Bool.or_false _).symm
    | true => exact (Bool.or_true _).symm
  have hmerge := hmark (setBy false other.falseBy (setBy true other.trueBy tv).1).1
  rw [decomposed_setBy, decomposed_setBy] at hmerge
  exact hmerge

/-- What is known is still known after merging. -/
theorem merge_ne_empty (h : other ≠ {}) : (merge other tv).1 ≠ {} := by
  intro hempty
  obtain ⟨hhas, hmark⟩ := eq_empty_iff.mp hempty
  rw [decomposed_merge, Bool.or_eq_false_iff] at hmark
  refine h (eq_empty_iff.mpr ⟨fun value => ?_, hmark.2⟩)
  have hvalue := hhas value
  rw [has, justification_merge, Option.isSome_or, Bool.or_eq_false_iff] at hvalue
  exact hvalue.2

end TruthValue

theorem Table.lookup_toList {β : Type} (t : Table β) (k : Key) : t.toList.lookup k = t.find? k := by
  apply Option.ext
  intro b
  rw [← Rows.mem_iff_lookup t.nodup_toList, Table.mem_toList]

namespace Assignment

/-- Two assignments answer every question in the same way. -/
structure Agrees (a b : Assignment) : Prop extends a.Resembles b where
  isDecomposed : ∀ k, a.isDecomposed k = b.isDecomposed k

variable {a b other : Assignment} {k : Key} {value : Bool}

theorem get?_each_merge {entries : List (Key × TruthValue)} (h : (entries.map (·.1)).Nodup) :
    (Update.each (fun entry => alter entry.1 (TruthValue.merge entry.2)) entries a).1.get? k =
      ((entries.lookup k).map fun tv => (TruthValue.merge tv ((a.get? k).getD {})).1).or
        (a.get? k) := by
  induction entries generalizing a with
  | nil => rfl
  | cons entry entries ih =>
      obtain ⟨first, tv⟩ := entry
      obtain ⟨hnew, hrest⟩ := List.nodup_cons.mp h
      have hstep := ih (a := (alter first (TruthValue.merge tv) a).1) hrest
      rw [get?_alter] at hstep
      rw [List.lookup_cons]
      by_cases hk : k = first
      · subst hk
        have hnone : entries.lookup k = none := by
          apply Option.eq_none_iff_forall_ne_some.mpr
          intro tv' hfound
          exact hnew (List.mem_map.mpr ⟨(k, tv'), (Rows.mem_iff_lookup hrest).mpr hfound, rfl⟩)
        rw [hnone, if_pos rfl] at hstep
        rw [beq_self_eq_true]
        exact hstep
      · rw [if_neg hk] at hstep
        rw [beq_eq_false_iff_ne.mpr hk]
        exact hstep

theorem instances_each_merge (a : Assignment) (entries : List (Key × TruthValue)) :
    (Update.each (fun entry => alter entry.1 (TruthValue.merge entry.2)) entries a).1.instances =
      a.instances :=
  Update.each_preserves (fun b : Assignment => b.instances = a.instances) (fun _ _ hb => hb) rfl
    entries

/-- The truth values are merged sentence by sentence. -/
theorem get?_merge (a other : Assignment) (k : Key) :
    (merge other a).1.get? k =
      ((other.get? k).map fun tv => (TruthValue.merge tv ((a.get? k).getD {})).1).or
        (a.get? k) := by
  have hvalues := get?_each_merge (a := a) (k := k) other.values.nodup_toList
  rw [Table.lookup_toList] at hvalues
  -- instances are noted apart from the truth values
  apply Update.each_preserves (fun b : Assignment => b.get? k = _) _ hvalues
  intro entry b hb
  exact Update.each_preserves (fun b : Assignment => b.get? k = _) (fun _ _ hb => hb) hb entry.2

theorem justification_merge (a other : Assignment) (k : Key) (value : Bool) :
    (merge other a).1.justification k value =
      (a.justification k value).or (other.justification k value) := by
  rw [justification, get?_merge, justification, justification]
  cases other.get? k with
  | none => simp
  | some tv =>
      cases hget : a.get? k <;> simp [TruthValue.justification_merge]

theorem isDecomposed_merge (a other : Assignment) (k : Key) :
    (merge other a).1.isDecomposed k = (a.isDecomposed k || other.isDecomposed k) := by
  rw [isDecomposed, get?_merge, isDecomposed, isDecomposed]
  cases other.get? k with
  | none => simp
  | some tv =>
      cases hget : a.get? k <;> simp [TruthValue.decomposed_merge]

/-- The numbers of the facts of an assignment are those that it is asked for. -/
theorem findSome?_facts (a : Assignment) (k : Key) (value : Bool) :
    (a.facts.findSome? fun fact => if k = fact.key ∧ value = fact.value then
      some ((a.justification fact.key fact.value).getD 0) else none) = a.justification k value := by
  cases hfound : a.facts.findSome? fun fact => if k = fact.key ∧ value = fact.value then
      some ((a.justification fact.key fact.value).getD 0) else none with
  | none =>
      symm
      rw [← Option.not_isSome_iff_eq_none]
      intro hhas
      have hnone := List.findSome?_eq_none_iff.mp hfound ⟨k, value⟩ (mem_facts.mpr hhas)
      simp at hnone
  | some number =>
      obtain ⟨fact, hfact, hgives⟩ := List.exists_of_findSome?_eq_some hfound
      obtain ⟨⟨rfl, rfl⟩, hnumber⟩ := Option.ite_none_right_eq_some.mp hgives
      obtain ⟨first, hfirst⟩ := Option.isSome_iff_exists.mp (mem_facts.mp hfact)
      rw [hfirst] at hnumber ⊢
      exact hnumber.symm

theorem isSome_get?_alter {change : Update TruthValue} {k' : Key} :
    ((alter k change a).1.get? k').isSome = true ↔ (a.get? k').isSome = true ∨ k' = k := by
  rw [get?_alter]
  by_cases hk : k' = k
  · simp [hk]
  · simp [hk]

/-- Something is noted of a sentence if and only if something is known of it. -/
theorem isSome_get?_iff (h : a.get? k ≠ some {}) :
    (a.get? k).isSome = true ↔ (∃ value, a.has k value = true) ∨ a.isDecomposed k = true := by
  simp only [has_iff, isDecomposed_iff]
  cases hget : a.get? k with
  | none => simp
  | some tv =>
      have hknown : tv ≠ {} := fun hempty => h (hempty ▸ hget)
      rw [Ne, TruthValue.eq_empty_iff, not_and_or, not_forall] at hknown
      simpa using hknown

/-- The assignments that can be made from nothing. -/
inductive IsBuilt : Assignment → Prop where
  | empty : IsBuilt {}
  | set {a : Assignment} (h : IsBuilt a) (k : Key) (value : Bool) (number : Nat) :
      IsBuilt (set k value number a).1
  | decompose {a : Assignment} (h : IsBuilt a) (k : Key) : IsBuilt (decompose k a).1
  | instantiate {a : Assignment} (h : IsBuilt a) (k : Key) (term : Sentence) :
      IsBuilt (instantiate k term a).1
  | merge {a other : Assignment} (h : IsBuilt a) (hother : IsBuilt other) :
      IsBuilt (merge other a).1

/-- Whatever is noted of a sentence, something is known of it. -/
theorem IsBuilt.get?_ne (h : a.IsBuilt) (k : Key) : a.get? k ≠ some {} := by
  induction h with
  | empty => exact (Option.some_ne_none _).symm
  | set h k' value number ih =>
      rw [Assignment.set, get?_alter]
      split
      · intro hempty
        have hvalue := (TruthValue.eq_empty_iff.mp (Option.some.inj hempty)).1 value
        rw [Bool.eq_false_iff, Ne, TruthValue.has_set] at hvalue
        exact hvalue (Or.inr rfl)
      · exact ih
  | decompose h k' ih =>
      rw [Assignment.decompose, get?_alter]
      split
      · intro hempty
        have hmark := (TruthValue.eq_empty_iff.mp (Option.some.inj hempty)).2
        contradiction
      · exact ih
  | instantiate h k' term ih => exact ih
  | @merge a other _ _ ih ihother =>
      rw [get?_merge]
      cases hget : other.get? k with
      | none => exact ih
      | some tv =>
          have hknown : tv ≠ {} := fun hempty => ihother (hempty ▸ hget)
          exact fun hempty => TruthValue.merge_ne_empty hknown (Option.some.inj hempty)

/-- What is noted of a sentence is determined by whether anything is, and by the answers. -/
theorem get?_eq (hsome : (a.get? k).isSome = (b.get? k).isSome)
    (hvalues : ∀ value, a.justification k value = b.justification k value)
    (hmark : a.isDecomposed k = b.isDecomposed k) : a.get? k = b.get? k := by
  have htrue := hvalues true
  have hfalse := hvalues false
  rw [justification, justification] at htrue hfalse
  rw [isDecomposed, isDecomposed] at hmark
  cases ha : a.get? k with
  | none =>
      rw [ha] at hsome
      exact (Option.not_isSome_iff_eq_none.mp (by simp [← hsome])).symm
  | some tv =>
      rw [ha] at hsome
      obtain ⟨tv', hb⟩ := Option.isSome_iff_exists.mp hsome.symm
      rw [ha, hb] at htrue hfalse hmark
      rw [hb, Option.some_inj]
      obtain ⟨trueBy, falseBy, decomposed⟩ := tv
      obtain ⟨trueBy', falseBy', decomposed'⟩ := tv'
      simp_all [TruthValue.justification]

end Assignment

/-! Merging into a tree. -/

theorem Branch.justification_cons (a : Assignment) (above : Branch) (k : Key) (value : Bool) :
    Branch.justification (a :: above) k value =
      (a.justification k value).or (above.justification k value) := by
  rw [Branch.justification, Branch.justification, List.findSome?_cons]
  cases a.justification k value <;> rfl

namespace Tree

variable {tree tree' : Tree} {id : NodeId} {k k' : Key} {value v : Bool}

/-- The tree hangs together and has the node. -/
def HasNode (id : NodeId) (tree : Tree) : Prop := tree.Coherent ∧ id < tree.size

theorem Adds.hasNode {added : Addition} (hadds : Adds tree id added tree') (h : HasNode id tree) :
    HasNode id tree' :=
  ⟨hadds.coherent h.1, hadds.size ▸ h.2⟩

namespace HasNode

variable (h : HasNode id tree)
include h

theorem set (k : Key) (value : Bool) (number : Nat) : HasNode id (set id k value number tree).1 :=
  (adds_set h.1 h.2 k value number).hasNode h

theorem decompose (k : Key) : HasNode id (decompose id k tree).1 :=
  (adds_decompose h.1 h.2 k).hasNode h

theorem instantiate (k : Key) (term : Sentence) : HasNode id (instantiate id k term tree).1 :=
  (adds_instantiate h.1 h.2 k term).hasNode h

/-- A change at a node leaves the branch above it as it is. -/
theorem branch_alter (change : Update Assignment) :
    (alter id change tree).1.branch id =
      (change (tree.content id)).1 :: (tree.lineage id).map tree.content := by
  rw [branch, ancestry_alter, ancestry, List.map_cons, content_alter_self h.2]
  congr 1
  apply List.map_congr_left
  intro n hn
  exact content_alter_of_ne (Nat.ne_of_lt (h.1.ancestral.lt_of_mem hn))

theorem justification_alter {change : Update Assignment}
    (hchange : (change (tree.content id)).1.justification k value =
      (tree.content id).justification k value) :
    ((alter id change tree).1.branch id).justification k value =
      (tree.branch id).justification k value := by
  rw [h.branch_alter, Branch.justification_cons, hchange, ← Branch.justification_cons]
  rfl

/-- The first inference that gives a value on the branch is the one remembered. -/
theorem justification_set (number : Nat) :
    ((Tree.set id k value number tree).1.branch id).justification k' v =
      ((tree.branch id).justification k' v).or
        (if k' = k ∧ v = value then some number else none) := by
  rw [Tree.set]
  split
  · next hhas =>
      obtain ⟨first, hfirst⟩ := Option.isSome_iff_exists.mp hhas
      split
      · next hsame => rw [hsame.1, hsame.2, hfirst, Option.some_or]
      · rw [Option.or_none]
  · next hnew =>
      split
      · next hsame =>
          rw [← hsame.1, ← hsame.2] at hnew ⊢
          have hnone := Option.not_isSome_iff_eq_none.mp hnew
          rw [hnone, h.branch_alter, Branch.justification_cons, Assignment.justification_set]
          rw [branch, ancestry, List.map_cons, Branch.justification_cons] at hnone
          rw [(Option.or_eq_none_iff.mp hnone).1, if_pos ⟨rfl, rfl⟩]
          rfl
      · next hother =>
          rw [Option.or_none]
          apply h.justification_alter
          rw [Assignment.justification_set, if_neg hother, Option.or_none]

theorem justification_decompose :
    ((Tree.decompose id k tree).1.branch id).justification k' v =
      (tree.branch id).justification k' v := by
  rw [Tree.decompose]
  split
  · rfl
  · exact h.justification_alter Assignment.justification_decompose

theorem justification_instantiate (term : Sentence) :
    ((Tree.instantiate id k term tree).1.branch id).justification k' v =
      (tree.branch id).justification k' v := by
  rw [Tree.instantiate]
  split
  · rfl
  · exact h.justification_alter Assignment.justification_instantiate

end HasNode

/-- The tree after the facts of an assignment have been merged. -/
def withFacts (id : NodeId) (other : Assignment) (tree : Tree) : Tree :=
  (Update.each (fun fact : Fact => set id fact.key fact.value
    ((other.justification fact.key fact.value).getD 0)) other.facts tree).1

/-- The tree after the facts and the marks of an assignment have been merged. -/
def withMarks (id : NodeId) (other : Assignment) (tree : Tree) : Tree :=
  (Update.each (decompose id) other.decomposed (withFacts id other tree)).1

/-- The tree has the node, and its branch gives a value by the inference with the number. -/
def Justifies (id : NodeId) (k : Key) (value : Bool) (number : Option Nat) (tree : Tree) : Prop :=
  HasNode id tree ∧ (tree.branch id).justification k value = number

/-- The root notes something of a sentence. -/
def RootNotes (k : Key) (tree : Tree) : Prop :=
  ((tree.content NodeId.root).get? k).isSome = true

/-- The root is there, and it notes something of a sentence if and only if `known` holds. -/
def RootNotesIff (k : Key) (known : Prop) (tree : Tree) : Prop :=
  HasNode NodeId.root tree ∧ (RootNotes k tree ↔ known)

/-- An assignment that has instantiated universal sentences for the same terms as the root, and
has done so in the same order. -/
def RootInstances (tree : Tree) (a : Assignment) : Prop :=
  HasNode NodeId.root tree ∧ ∀ k, (tree.content NodeId.root).instancesOf k = a.instancesOf k

/-- What no term makes untrue holds after merging, if it holds once facts and marks are merged. -/
theorem merge_of_withMarks (other : Assignment) (holds : Tree → Prop)
    (hterm : ∀ (tree : Tree) k term, holds tree → holds (instantiate id k term tree).1)
    (hmarks : holds (withMarks id other tree)) : holds (merge id other tree).1 := by
  apply Update.each_preserves holds _ hmarks other.instances.toList
  intro entry tree h
  exact Update.each_preserves holds (fun term tree => hterm tree entry.1 term) h entry.2

/-! Marks and terms give no values. -/

namespace Justifies

variable {number : Option Nat} (h : Justifies id k' v number tree)
include h

theorem decompose (k : Key) : Justifies id k' v number (decompose id k tree).1 :=
  ⟨h.1.decompose k, h.1.justification_decompose.trans h.2⟩

theorem instantiate (k : Key) (term : Sentence) :
    Justifies id k' v number (instantiate id k term tree).1 :=
  ⟨h.1.instantiate k term, (h.1.justification_instantiate term).trans h.2⟩

end Justifies

namespace HasNode

variable (h : HasNode id tree) (other : Assignment)
include h

theorem withFacts : HasNode id (withFacts id other tree) :=
  Update.each_preserves (HasNode id) (fun fact _ h => h.set fact.key fact.value _) h other.facts

theorem withMarks : HasNode id (withMarks id other tree) :=
  Update.each_preserves (HasNode id) (fun k _ h => h.decompose k) (h.withFacts other)
    other.decomposed

/-- A value that the branch has keeps its number, and one that it lacks gets that of the
assignment. -/
theorem justification_merge :
    ((Tree.merge id other tree).1.branch id).justification k value =
      ((tree.branch id).justification k value).or (other.justification k value) := by
  have hfacts : Justifies id k value
      (((tree.branch id).justification k value).or (other.justification k value))
      (Tree.withFacts id other tree) := by
    refine ⟨h.withFacts other, ?_⟩
    rw [← Assignment.findSome?_facts other k value, Tree.withFacts]
    apply Update.each_first (HasNode id) (fun tree => (tree.branch id).justification k value) _ _ _
      h
    · exact fun fact _ h => h.set fact.key fact.value _
    · exact fun _ _ h => h.justification_set _
  have hmarks := Update.each_preserves (Justifies id k value _) (fun k _ h => h.decompose k) hfacts
    other.decomposed
  exact (merge_of_withMarks other (Justifies id k value _)
    (fun _ k term h => h.instantiate k term) hmarks).2

end HasNode

/-! The report. -/

/-- What is not found on the branch is not found at its node, so that a change there has an
effect. -/
theorem snd_alter_of_lacks (test : Assignment → Bool) {change : Update Assignment}
    (hreport : ∀ a, (change a).2 = !test a) {found : Bool}
    (hfound : test (tree.content id) = true → found = true) (hlacks : found = false) :
    (alter id change tree).2 = true := by
  have hhere : (alter id change tree).2 = !test (tree.content id) := hreport _
  rw [hhere, Bool.not_eq_true', ← Bool.not_eq_true]
  intro htest
  rw [hfound htest] at hlacks
  contradiction

theorem set_reports (id : NodeId) (k : Key) (value : Bool) (number : Nat) :
    (set id k value number).IsHonest ∧ ∀ tree, set id k value number tree = Update.skip tree ↔
      (tree.branch id).has k value = true :=
  Update.of_guarded fun _ => snd_alter_of_lacks (fun a => a.has k value)
    (Assignment.snd_set k value number) fun h => has_branch.mpr ⟨id, mem_ancestry_self .., h⟩

theorem decompose_reports (id : NodeId) (k : Key) :
    (decompose id k).IsHonest ∧ ∀ tree, decompose id k tree = Update.skip tree ↔
      (tree.branch id).isDecomposed k = true :=
  Update.of_guarded fun _ => snd_alter_of_lacks (fun a => a.isDecomposed k)
    (Assignment.snd_decompose k) fun h => isDecomposed_branch.mpr ⟨id, mem_ancestry_self .., h⟩

theorem instantiate_reports (id : NodeId) (k : Key) (term : Sentence) :
    (instantiate id k term).IsHonest ∧ ∀ tree, instantiate id k term tree = Update.skip tree ↔
      term ∈ (tree.branch id).instancesOf k := by
  have hreports := Update.of_guarded fun tree => snd_alter_of_lacks
    (fun a => (a.instancesOf k).contains term) (Assignment.snd_instantiate k term) fun h =>
      List.contains_iff_mem.mpr <| mem_instancesOf_branch.mpr
        ⟨id, mem_ancestry_self tree id, List.contains_iff_mem.mp h⟩
  exact ⟨hreports.1, fun tree => (hreports.2 tree).trans List.contains_iff_mem⟩

/-- Merging has an effect, and reports one, unless the branch has all that the assignment has. -/
theorem merge_reports (id : NodeId) (other : Assignment) :
    (merge id other).IsHonest ∧ ∀ tree, merge id other tree = Update.skip tree ↔
      (∀ fact ∈ other.facts, (tree.branch id).has fact.key fact.value = true) ∧
      (∀ k ∈ other.decomposed, (tree.branch id).isDecomposed k = true) ∧
      ∀ entry ∈ other.instances.toList, ∀ term ∈ entry.2,
        term ∈ (tree.branch id).instancesOf entry.1 := by
  have hset (fact : Fact) := set_reports id fact.key fact.value
    ((other.justification fact.key fact.value).getD 0)
  have hfacts := Update.isHonest_each (fun fact => (hset fact).1) other.facts
  have hmarks := Update.isHonest_each (fun k => (decompose_reports id k).1) other.decomposed
  have hentry (entry : Key × List Sentence) :=
    Update.isHonest_each (fun term => (instantiate_reports id entry.1 term).1) entry.2
  have hterms := Update.isHonest_each hentry other.instances.toList
  refine ⟨hfacts.andThen (hmarks.andThen hterms), fun tree => ?_⟩
  rw [merge, hfacts.andThen_eq_skip_iff (hmarks.andThen hterms), hmarks.andThen_eq_skip_iff hterms,
    Update.each_eq_skip_iff fun fact => (hset fact).1,
    Update.each_eq_skip_iff fun k => (decompose_reports id k).1, Update.each_eq_skip_iff hentry]
  simp only [(hset _).2, (decompose_reports id _).2, (instantiate_reports id _ _).2,
    Update.each_eq_skip_iff fun term => (instantiate_reports id _ term).1]

namespace HasNode

variable (h : HasNode id tree) (other : Assignment)
include h

/-- Merging the same assignment again has no effect. -/
theorem merge_again : Tree.merge id other (Tree.merge id other tree).1 =
    Update.skip (Tree.merge id other tree).1 := by
  have hadds := adds_merge h.1 h.2 other
  have hself := mem_ancestry_self tree id
  apply ((merge_reports id other).2 _).mpr
  refine ⟨fun fact hfact => ?_, fun k hk => ?_, fun entry hentry term hterm => ?_⟩
  · exact (hadds.has id fact.key fact.value).mpr (Or.inr ⟨hself, hfact⟩)
  · exact (hadds.isDecomposed id k).mpr (Or.inr ⟨hself, hk⟩)
  · apply (hadds.mem_instancesOf id entry.1 term).mpr (Or.inr ⟨hself, ?_⟩)
    exact List.mem_flatMap.mpr ⟨entry, hentry, List.mem_map_of_mem hterm⟩

/-- The report of an effect is exact. -/
theorem snd_merge_iff :
    (Tree.merge id other tree).2 = true ↔ (Tree.merge id other tree).1 ≠ tree := by
  constructor
  · intro hreport hsame
    have hagain := h.merge_again other
    rw [hsame] at hagain
    rw [hagain] at hreport
    contradiction
  · intro hchanged
    rw [← Bool.not_eq_false]
    intro hfalse
    exact hchanged ((merge_reports id other).1 tree hfalse)

end HasNode

/-! Merging at the root. -/

/-- Nothing is inherited by the root. -/
theorem Coherent.branch_root (h : tree.Coherent) :
    tree.branch NodeId.root = [tree.content NodeId.root] := by
  have hlineage : (tree.node NodeId.root).lineage = [] := by
    rcases h.ancestral NodeId.root with hnil | ⟨parent, hlt, -⟩
    · exact hnil
    · exact absurd hlt (Nat.not_lt_zero parent)
  rw [branch, ancestry, hlineage]
  rfl

namespace HasNode

variable (h : HasNode NodeId.root tree)
include h

/-- A sentence is noted at the root once its truth value has been changed, or was noted if the
change is not made. -/
theorem isSome_guarded {change : Update TruthValue} {guard : Prop} [Decidable guard]
    (hguard : guard → ((tree.content NodeId.root).get? k).isSome = true) :
    let r := if guard then (tree, false) else alter NodeId.root (Assignment.alter k change) tree
    ((r.1.content NodeId.root).get? k').isSome = true ↔
      ((tree.content NodeId.root).get? k').isSome = true ∨ k' = k := by
  intro r
  simp only [r]
  split
  · next hmade =>
      refine ⟨Or.inl, ?_⟩
      rintro (hold | rfl)
      · exact hold
      · exact hguard hmade
  · rw [content_alter_self h.2]
    exact Assignment.isSome_get?_alter

theorem isSome_set (number : Nat) :
    (((Tree.set NodeId.root k value number tree).1.content NodeId.root).get? k').isSome = true ↔
      ((tree.content NodeId.root).get? k').isSome = true ∨ k' = k := by
  apply h.isSome_guarded
  intro hhas
  rw [h.1.branch_root, Branch.has_iff] at hhas
  obtain ⟨tv, htv, -⟩ := Assignment.has_iff.mp (by simpa using hhas)
  exact Option.isSome_of_eq_some htv

theorem isSome_decompose :
    (((Tree.decompose NodeId.root k tree).1.content NodeId.root).get? k').isSome = true ↔
      ((tree.content NodeId.root).get? k').isSome = true ∨ k' = k := by
  apply h.isSome_guarded
  intro hmark
  rw [h.1.branch_root, Branch.isDecomposed_iff] at hmark
  obtain ⟨tv, htv, -⟩ := Assignment.isDecomposed_iff.mp (by simpa using hmark)
  exact Option.isSome_of_eq_some htv

end HasNode

namespace HasNode

variable (h : HasNode id tree)
include h

/-- What a change of an assignment leaves as it is, it leaves so at a node, if it is made there. -/
theorem content_guarded {γ : Type} (observe : Assignment → γ) {change : Update Assignment}
    {guard : Prop} [Decidable guard] (hchange : ∀ a, observe (change a).1 = observe a) :
    observe ((if guard then (tree, false) else alter id change tree).1.content id) =
      observe (tree.content id) := by
  split
  · rfl
  · rw [content_alter_self h.2, hchange]

theorem get?_instantiate (term : Sentence) :
    ((Tree.instantiate id k term tree).1.content id).get? k' = (tree.content id).get? k' :=
  h.content_guarded (fun a => a.get? k') fun _ => rfl

theorem instancesOf_set (number : Nat) :
    ((Tree.set id k value number tree).1.content id).instancesOf k' =
      (tree.content id).instancesOf k' :=
  h.content_guarded (fun a => a.instancesOf k') fun _ => rfl

theorem instancesOf_decompose :
    ((Tree.decompose id k tree).1.content id).instancesOf k' = (tree.content id).instancesOf k' :=
  h.content_guarded (fun a => a.instancesOf k') fun _ => rfl

end HasNode

theorem RootNotesIff.instantiate {known : Prop} (h : RootNotesIff k known tree) (k' : Key)
    (term : Sentence) : RootNotesIff k known (instantiate NodeId.root k' term tree).1 := by
  have hget : ((Tree.instantiate NodeId.root k' term tree).1.content NodeId.root).get? k =
      (tree.content NodeId.root).get? k := h.1.get?_instantiate term
  refine ⟨h.1.instantiate k' term, ?_⟩
  rw [RootNotes, hget]
  exact h.2

namespace RootInstances

variable {a : Assignment} (h : RootInstances tree a)
include h

theorem set (k : Key) (value : Bool) (number : Nat) :
    RootInstances (set NodeId.root k value number tree).1 a :=
  ⟨h.1.set k value number, fun other => (h.1.instancesOf_set number).trans (h.2 other)⟩

theorem decompose (k : Key) : RootInstances (decompose NodeId.root k tree).1 a :=
  ⟨h.1.decompose k, fun other => h.1.instancesOf_decompose.trans (h.2 other)⟩

theorem instantiate (k : Key) (term : Sentence) :
    RootInstances (instantiate NodeId.root k term tree).1 (Assignment.instantiate k term a).1 := by
  refine ⟨h.1.instantiate k term, fun other => ?_⟩
  rw [Assignment.instancesOf_instantiate, Tree.instantiate, h.1.1.branch_root]
  split
  · next hold =>
      rw [if_neg]
      · exact h.2 other
      · rintro ⟨-, hnew⟩
        rw [← h.2 k] at hnew
        exact hnew (by simpa [Branch.instancesOf] using hold)
  · rw [content_alter_self h.1.2, Assignment.instancesOf_instantiate, h.2, h.2]

end RootInstances

namespace HasNode

variable (h : HasNode NodeId.root tree) (other : Assignment)
include h

/-- What the root notes after merging. -/
theorem isSome_merge :
    (((Tree.merge NodeId.root other tree).1.content NodeId.root).get? k).isSome = true ↔
      ((tree.content NodeId.root).get? k).isSome = true ∨ (∃ value, other.has k value = true) ∨
        other.isDecomposed k = true := by
  have hfacts : RootNotes k (Tree.withFacts NodeId.root other tree) ↔
      RootNotes k tree ∨ ∃ fact ∈ other.facts, k = fact.key := by
    rw [Tree.withFacts]
    apply Update.each_any (HasNode NodeId.root) (RootNotes k) (fun fact : Fact => k = fact.key)
      _ _ h
    · exact fun fact _ h => h.set fact.key fact.value _
    · exact fun _ _ h => h.isSome_set _
  have hmarks : RootNotes k (Tree.withMarks NodeId.root other tree) ↔
      RootNotes k (Tree.withFacts NodeId.root other tree) ∨
      ∃ mark ∈ other.decomposed, k = mark := by
    rw [Tree.withMarks]
    apply Update.each_any (HasNode NodeId.root) (RootNotes k) (fun mark => k = mark) _ _
      (h.withFacts other)
    · exact fun k _ h => h.decompose k
    · exact fun _ _ h => h.isSome_decompose
  have hfact : (∃ fact ∈ other.facts, k = fact.key) ↔ ∃ value, other.has k value = true := by
    constructor
    · rintro ⟨fact, hfact, rfl⟩
      exact ⟨fact.value, Assignment.mem_facts.mp hfact⟩
    · rintro ⟨value, hvalue⟩
      exact ⟨⟨k, value⟩, Assignment.mem_facts.mpr hvalue, rfl⟩
  rw [hfacts, hfact, or_assoc, exists_eq_right', Assignment.mem_decomposed] at hmarks
  exact (merge_of_withMarks other (RootNotesIff k _) (fun _ k' term h => h.instantiate k' term)
    ⟨h.withMarks other, hmarks⟩).2

theorem rootInstances_merge :
    RootInstances (Tree.merge NodeId.root other tree).1
      (Assignment.merge other (tree.content NodeId.root)).1 := by
  have hfacts : RootInstances (Tree.withFacts NodeId.root other tree)
      (tree.content NodeId.root) :=
    Update.each_preserves (RootInstances · (tree.content NodeId.root))
      (fun fact _ h => h.set fact.key fact.value _) ⟨h, fun _ => rfl⟩ other.facts
  have hmarks : RootInstances (Tree.withMarks NodeId.root other tree)
      (tree.content NodeId.root) :=
    Update.each_preserves (RootInstances · (tree.content NodeId.root))
      (fun k _ h => h.decompose k) hfacts other.decomposed
  have hvalues := Assignment.instances_each_merge (tree.content NodeId.root) other.values.toList
  apply Update.each_relates RootInstances
  · intro entry _ _ hentry
    exact Update.each_relates RootInstances (fun term _ _ h => h.instantiate entry.1 term) hentry
      entry.2
  · refine ⟨hmarks.1, fun k => (hmarks.2 k).trans ?_⟩
    rw [Assignment.instancesOf, Assignment.instancesOf, hvalues]

/-- At the root merging gives the same as merging its content with the assignment. -/
theorem agrees_merge : ((Tree.merge NodeId.root other tree).1.content NodeId.root).Agrees
    (Assignment.merge other (tree.content NodeId.root)).1 := by
  have hadds := adds_merge h.1 h.2 other
  have hafter := (hadds.hasNode h).1.branch_root
  have hbefore := h.1.branch_root
  refine ⟨⟨fun k value => ?_, (h.rootInstances_merge other).2⟩, fun k => ?_⟩
  · have hmerge : ((Tree.merge NodeId.root other tree).1.branch NodeId.root).justification k value =
        _ := h.justification_merge other
    rw [hafter, hbefore] at hmerge
    rw [Assignment.justification_merge]
    simpa [Branch.justification_cons, Branch.justification] using hmerge
  · have hmerge := hadds.isDecomposed NodeId.root k
    rw [hafter, hbefore] at hmerge
    rw [Bool.eq_iff_iff, Assignment.isDecomposed_merge, Bool.or_eq_true]
    simpa [Branch.isDecomposed_iff, mem_ancestry_self] using hmerge

/-- What is noted of a sentence is the same too, unless the assignment notes of it that nothing is
known. -/
theorem get?_merge (hknown : other.get? k ≠ some {}) :
    ((Tree.merge NodeId.root other tree).1.content NodeId.root).get? k =
      (Assignment.merge other (tree.content NodeId.root)).1.get? k := by
  have hagrees := h.agrees_merge other
  apply Assignment.get?_eq _ (hagrees.justification k) (hagrees.isDecomposed k)
  rw [Bool.eq_iff_iff, h.isSome_merge, ← Assignment.isSome_get?_iff hknown, Assignment.get?_merge,
    Option.isSome_or, Option.isSome_map, Bool.or_eq_true, or_comm]

end HasNode

/-- The first writer wins.  A value keeps the number that it has on the branch, or gets that of the
assignment; marks and instances are those of both.  Nothing else in the tree changes, and nothing
that the node had is lost.  The report tells exactly whether the tree has changed, and merging
again changes nothing.  At the root the result is that of merging the two assignments. -/
theorem IsBuilt.merge_first_writer_wins (h : tree.IsBuilt) (hid : id < tree.size)
    (other : Assignment) :
    let r := Tree.merge id other tree
    (∀ k value, (r.1.branch id).justification k value =
      ((tree.branch id).justification k value).or (other.justification k value)) ∧
    (∀ k, (r.1.branch id).isDecomposed k = true ↔
      (tree.branch id).isDecomposed k = true ∨ other.isDecomposed k = true) ∧
    (∀ k term, term ∈ (r.1.branch id).instancesOf k ↔
      term ∈ (tree.branch id).instancesOf k ∨ term ∈ other.instancesOf k) ∧
    (r.1.size = tree.size ∧ (∀ m, m ≠ id → r.1.node m = tree.node m) ∧
      r.1.lineage id = tree.lineage id ∧ r.1.children id = tree.children id) ∧
    (tree.content id).GrowsTo (r.1.content id) ∧
    (r.2 = true ↔ r.1 ≠ tree) ∧
    Tree.merge id other r.1 = (r.1, false) ∧
    (id = NodeId.root →
      (r.1.content id).Agrees (Assignment.merge other (tree.content id)).1 ∧
      (other.IsBuilt → ∀ k,
        (r.1.content id).get? k = (Assignment.merge other (tree.content id)).1.get? k)) := by
  intro r
  have hnode : HasNode id tree := ⟨h.isWellGrown.coherent, hid⟩
  have hadds := adds_merge hnode.1 hid other
  have hself := mem_ancestry_self tree id
  refine ⟨fun k value => hnode.justification_merge other, fun k => ?_, fun k term => ?_,
    ⟨hadds.size, hadds.node_of_ne, hadds.lineage id, hadds.children id⟩,
    IsKeptBy.merge id other tree id, hnode.snd_merge_iff other, hnode.merge_again other, ?_⟩
  · rw [hadds.isDecomposed id k, Assignment.mem_decomposed, and_iff_right hself]
  · rw [hadds.mem_instancesOf id k term, Assignment.mem_terms, and_iff_right hself]
  · rintro rfl
    exact ⟨hnode.agrees_merge other, fun hother k => hnode.get?_merge other (hother.get?_ne k)⟩

/-- A fact that the branch has from the root keeps its number, though the assignment has another
one for it; what is new is added with the number of the assignment, at the node or at the root. -/
theorem merge_first_writer_wins_below_root :
    let A : Sentence := .atom "A"
    let B : Sentence := .atom "B"
    let c : Sentence := .const "c" SortId.object
    let every : Sentence := .all (.var "x" SortId.object) (.pred "P" [.var "x" SortId.object])
    let facts := Assignment.ofFacts [⟨A, true⟩, ⟨B, false⟩] 7
    let other := (Assignment.instantiate every c (Assignment.decompose every facts).1).1
    let tree := ((ofRoot (Assignment.ofFacts [⟨A, true⟩] 1)).addChildren 0 [{}, {}]).1
    let r := merge 1 other tree
    let above := merge NodeId.root other tree
    tree.IsBuilt ∧ (r.1.branch 1).justification A true = some 1 ∧
      (r.1.branch 1).justification B false = some 7 ∧ (r.1.branch 1).isDecomposed every = true ∧
      c ∈ (r.1.branch 1).instancesOf every ∧ r.1.node 2 = tree.node 2 ∧ r.2 = true ∧ r.1 ≠ tree ∧
      merge 1 other r.1 = (r.1, false) ∧
      (above.1.content NodeId.root).get? A =
        (Assignment.merge other (tree.content NodeId.root)).1.get? A ∧
      (above.1.branch 2).justification B false = some 7 := by
  intro A B c every facts other tree r above
  have hbuilt : tree.IsBuilt := (IsBuilt.ofRoot _).addChildren (by decide) _
  have hfacts : facts.IsBuilt := (Assignment.IsBuilt.empty.set A true 7).set B false 7
  have hother : other.IsBuilt := (hfacts.decompose every).instantiate every c
  obtain ⟨hvalues, hmarks, hterms, ⟨-, hothers, -⟩, -, hreport, hagain, -⟩ :=
    hbuilt.merge_first_writer_wins (by decide : 1 < tree.size) other
  obtain ⟨-, -, -, -, -, -, -, hroot⟩ :=
    hbuilt.merge_first_writer_wins (by decide : NodeId.root < tree.size) other
  have heffect : r.2 = true := by decide +kernel
  refine ⟨hbuilt, ?_, ?_, ?_, ?_, hothers 2 (by decide), heffect, hreport.mp heffect, hagain, ?_,
    ?_⟩
  · rw [hvalues]
    decide +kernel
  · rw [hvalues]
    decide +kernel
  · exact (hmarks every).mpr (Or.inr (by decide +kernel))
  · exact (hterms every c).mpr (Or.inr (by decide +kernel))
  · exact (hroot rfl).2 hother A
  · decide +kernel

end Tree

end Tableau
