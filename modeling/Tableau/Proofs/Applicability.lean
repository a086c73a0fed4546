/-
When rules apply.  What waits on a branch is listed without firing a rule, and just the rules of
the sentences that are listed fire.  An inference that marks its origin settles it at its node and
below, whatever is done to the tree before and after it is performed.
-/
import Mathlib.Logic.Relation
import Tableau.Proofs.Construction
import Tableau.Proofs.Firing

namespace Tableau

/-- A quantifier is over a variable. -/
def Sentence.bindsVariable : Sentence → Bool
  | all binder _ | ex binder _ => binder.isVariable
  | _ => true

/-- Where a branch has no mark, no node of it has one. -/
theorem Branch.decomposed_eq_false {branch : Branch} {a : Assignment} {k : Key} {tv : TruthValue}
    (h : branch.isDecomposed k = false) (ha : a ∈ branch) (hfind : a.get? k = some tv) :
    tv.decomposed = false := by
  rw [← Bool.not_eq_true] at h ⊢
  intro hmark
  exact h (isDecomposed_iff.mpr ⟨a, ha, Assignment.isDecomposed_iff.mpr ⟨tv, hfind, hmark⟩⟩)

namespace Rule

variable {lex : Lexicon} {branch : Branch} {k : Key}

/-! What is listed. -/

/-- A sentence that waits for its rule has a value, and no mark. -/
theorem of_isUndecomposed (h : isUndecomposed branch k = true) :
    branch.isDecomposed k = false ∧ branch.isMapped k = true := by
  simp only [isUndecomposed, Bool.and_eq_true, Bool.not_eq_true', Option.isSome_iff_exists] at h
  obtain ⟨⟨-, hmark⟩, value, hvalue⟩ := h
  exact ⟨hmark, Branch.isMapped_iff.mpr ⟨value, Branch.has_of_models hvalue⟩⟩

/-- What waits is what has a value and waits for its rule, in the order of all that have one. -/
theorem undecomposed_eq :
    undecomposed lex branch = (branch.mapped lex).filter (isUndecomposed branch) := by
  have hsame : (undecomposed lex branch).filter (fun _ => true) =
      (branch.mapped lex).filter (isUndecomposed branch) := by
    refine Branch.filter_mappedWhere fun a ha k tv hfind => ?_
    cases hwaits : isUndecomposed branch k with
    | false => simp
    | true => simp [Branch.decomposed_eq_false (of_isUndecomposed hwaits).1 ha hfind]
  rwa [List.filter_true] at hsame

theorem mem_undecomposed : k ∈ undecomposed lex branch ↔ isUndecomposed branch k = true := by
  rw [undecomposed_eq, List.mem_filter, Branch.mem_mapped]
  exact and_iff_right_of_imp fun hwaits => (of_isUndecomposed hwaits).2

theorem undecomposed_eq_nil :
    undecomposed lex branch = [] ↔ ∀ k, isUndecomposed branch k = false := by
  simp only [List.eq_nil_iff_forall_not_mem, mem_undecomposed, Bool.not_eq_true]

/-- The open quantifiers are listed in the order of all sentences that have a value. -/
theorem openQuantifiers_eq :
    openQuantifiers lex branch =
      ((branch.mapped lex).filter (isOpenQuantifier lex branch)).filterMap fun k =>
        (branch.models k).map (⟨k, ·⟩) := by
  have hsame : (branch.mappedWhere lex fun k tv => k.sentence.isQuantifier && !tv.decomposed).filter
        (isOpenQuantifier lex branch) =
      (branch.mapped lex).filter (isOpenQuantifier lex branch) := by
    refine Branch.filter_mappedWhere fun a ha k tv hfind => ?_
    cases hopen : isOpenQuantifier lex branch k with
    | false => simp
    | true =>
        obtain ⟨hquantifier, hmark, -⟩ := of_isOpenQuantifier hopen
        simp [hquantifier, Branch.decomposed_eq_false hmark ha hfind]
  rw [← hsame]
  unfold openQuantifiers
  split
  · next hnil => rw [hnil, List.filter_nil, List.filterMap_nil]
  · rfl

theorem mem_openQuantifiers {fact : Fact} :
    fact ∈ openQuantifiers lex branch ↔
      isOpenQuantifier lex branch fact.key = true ∧ branch.models fact.key = some fact.value := by
  simp only [openQuantifiers_eq, List.mem_filterMap, List.mem_filter, Branch.mem_mapped,
    Option.map_eq_some_iff]
  constructor
  · rintro ⟨k, ⟨-, hopen⟩, value, hvalue, rfl⟩
    exact ⟨hopen, hvalue⟩
  · rintro ⟨hopen, hvalue⟩
    have hmapped := Branch.isMapped_iff.mpr ⟨fact.value, Branch.has_of_models hvalue⟩
    exact ⟨fact.key, ⟨hmapped, hopen⟩, fact.value, hvalue, rfl⟩

theorem openQuantifiers_eq_nil :
    openQuantifiers lex branch = [] ↔ ∀ k, isOpenQuantifier lex branch k = false := by
  simp only [List.eq_nil_iff_forall_not_mem, mem_openQuantifiers]
  constructor
  · intro h k
    rw [← Bool.not_eq_true]
    intro hopen
    obtain ⟨-, -, value, hvalue⟩ := of_isOpenQuantifier hopen
    exact h ⟨k, value⟩ ⟨hopen, hvalue⟩
  · intro h fact hfact
    rw [h fact.key] at hfact
    exact Bool.false_ne_true hfact.1

/-! What fires. -/

variable {tree : Tree} {node : NodeId} {number : Nat} {inf : Inference}

theorem isSome_decompose? (lex : Lexicon) (tree : Tree) (node : NodeId) (k : Key) (number : Nat) :
    (decompose? lex tree node k number).isSome = isUndecomposed (tree.branch node) k := by
  rw [Bool.eq_iff_iff, Option.isSome_iff_exists]
  constructor
  · rintro ⟨inf, hinf⟩
    exact (decompose?_eq_some_iff.mp hinf).1
  · intro hwaits
    exact exists_decompose? hwaits lex number

/-- An open quantifier over a variable has an effect, for variables have sorts. -/
theorem exists_quantifierEffect? {value : Bool} (hquantifier : k.sentence.isQuantifier = true)
    (hbinds : k.sentence.bindsVariable = true) :
    ∃ r, quantifierEffect? lex branch k value = some r := by
  have hsorted : ∀ binder : Sentence, binder.isVariable = true →
      ∃ sort, binder.sort? = some sort := by
    intro binder hvariable
    cases binder with
    | var name sort => exact ⟨sort, rfl⟩
    | _ => simp [Sentence.isVariable] at hvariable
  unfold quantifierEffect?
  cases hsentence : k.sentence with
  | all binder body | ex binder body =>
      rw [hsentence] at hbinds
      obtain ⟨sort, hsort⟩ := hsorted binder hbinds
      cases value <;> simp [hsort]
  | _ => simp [hsentence, Sentence.isQuantifier] at hquantifier

theorem isSome_instantiate? (hbinds : k.sentence.bindsVariable = true) (lex : Lexicon) (tree : Tree)
    (node : NodeId) (number : Nat) :
    (instantiate? lex tree node k number).isSome = isOpenQuantifier lex (tree.branch node) k := by
  rw [Bool.eq_iff_iff, Option.isSome_iff_exists]
  constructor
  · rintro ⟨r, hr⟩
    exact (instantiate?_eq_some_iff.mp hr).1
  · intro hopen
    obtain ⟨hquantifier, -, value, hvalue⟩ := of_isOpenQuantifier hopen
    obtain ⟨r, hr⟩ := exists_quantifierEffect? hquantifier hbinds
    exact ⟨_, instantiate?_eq_some_iff.mpr ⟨hopen, value, r, hvalue, hr, rfl, rfl⟩⟩

/-- No rule fires on a sentence that is marked. -/
theorem none_of_isDecomposed (hmark : (tree.branch node).isDecomposed k = true) (lex : Lexicon)
    (number : Nat) :
    decompose? lex tree node k number = none ∧ instantiate? lex tree node k number = none := by
  constructor
  · rw [Option.eq_none_iff_forall_ne_some]
    intro inf hinf
    rw [(of_isUndecomposed (decompose?_eq_some_iff.mp hinf).1).1] at hmark
    contradiction
  · rw [Option.eq_none_iff_forall_ne_some]
    intro r hr
    rw [(of_isOpenQuantifier (instantiate?_eq_some_iff.mp hr).1).2.1] at hmark
    contradiction

/-- The effect of a rule for a connective or an equality. -/
theorem effect_of_decompose? (h : decompose? lex tree node k number = some inf) :
    (∃ facts, inf.effect = .decomposition facts) ∨ ∃ outcomes, inf.effect = .branch outcomes := by
  obtain ⟨-, value, alternatives, -, -, rfl⟩ := decompose?_eq_some_iff.mp h
  match alternatives with
  | [] | [facts] => exact Or.inl ⟨_, rfl⟩
  | first :: second :: rest => exact Or.inr ⟨_, rfl⟩

/-- The effect of a rule for a quantifier. -/
theorem effect_of_instantiate? {lex' : Lexicon}
    (h : instantiate? lex tree node k number = some (inf, lex')) :
    (∃ facts, inf.effect = .decomposition facts) ∨
      (∃ binder terms facts, inf.effect = .universal binder terms facts) ∨
      ∃ binder terms outcomes, inf.effect = .existential binder terms outcomes := by
  obtain ⟨-, value, r, -, hr, rfl, -⟩ := instantiate?_eq_some_iff.mp h
  unfold quantifierEffect? at hr
  split at hr
  · simp only [Option.bind_eq_bind, Option.bind_eq_some_iff, Option.pure_def,
      Option.some.injEq] at hr
    obtain ⟨sort, -, rfl⟩ := hr
    exact Or.inr (Or.inl ⟨_, _, _, rfl⟩)
  · simp only [Option.bind_eq_bind, Option.bind_eq_some_iff, Option.pure_def,
      Option.some.injEq] at hr
    obtain ⟨sort, -, rfl⟩ := hr
    exact Or.inr (Or.inr ⟨_, _, _, rfl⟩)
  · obtain rfl := Option.some.inj hr
    exact Or.inl ⟨_, rfl⟩
  · obtain rfl := Option.some.inj hr
    exact Or.inl ⟨_, rfl⟩
  · contradiction

end Rule

/-! Trees that change. -/

namespace Tree

variable {tree tree' : Tree} {id : NodeId}

/-- One tree after the other, by a change at a node that is there. -/
inductive Changes : Tree → Tree → Prop where
  | addChildren {tree : Tree} {id : NodeId} (hid : id < tree.size) (contents : List Assignment) :
      Changes tree (tree.addChildren id contents).1
  | set {tree : Tree} {id : NodeId} (hid : id < tree.size) (k : Key) (value : Bool) (number : Nat) :
      Changes tree (set id k value number tree).1
  | decompose {tree : Tree} {id : NodeId} (hid : id < tree.size) (k : Key) :
      Changes tree (decompose id k tree).1
  | instantiate {tree : Tree} {id : NodeId} (hid : id < tree.size) (k : Key) (term : Sentence) :
      Changes tree (instantiate id k term tree).1
  | merge {tree : Tree} {id : NodeId} (hid : id < tree.size) (other : Assignment) :
      Changes tree (merge id other tree).1

/-- One tree after the other, by any number of changes. -/
def Develops (tree tree' : Tree) : Prop := Relation.ReflTransGen Changes tree tree'

theorem Changes.isBuilt (h : Changes tree tree') (hbuilt : tree.IsBuilt) : tree'.IsBuilt := by
  cases h with
  | addChildren hid contents => exact hbuilt.addChildren hid contents
  | set hid k value number => exact hbuilt.set hid k value number
  | decompose hid k => exact hbuilt.decompose hid k
  | instantiate hid k term => exact hbuilt.instantiate hid k term
  | merge hid other => exact hbuilt.merge hid other

theorem Changes.growsTo (h : Changes tree tree') (hcoh : tree.Coherent) : tree.GrowsTo tree' := by
  cases h with
  | addChildren hid contents =>
      refine (Grafts.cons (fun m hm => ?_) (.nil _ contents)).growsTo hcoh
      rwa [List.mem_singleton.mp hm]
  | set hid k value number => exact (adds_set hcoh hid k value number).growsTo
  | decompose hid k => exact (adds_decompose hcoh hid k).growsTo
  | instantiate hid k term => exact (adds_instantiate hcoh hid k term).growsTo
  | merge hid other => exact (adds_merge hcoh hid other).growsTo

namespace Develops

theorem refl (tree : Tree) : tree.Develops tree := Relation.ReflTransGen.refl

theorem of_changes (h : Changes tree tree') : tree.Develops tree' := Relation.ReflTransGen.single h

theorem trans {tree'' : Tree} (h : tree.Develops tree') (h' : tree'.Develops tree'') :
    tree.Develops tree'' := Relation.ReflTransGen.trans h h'

/-- However a tree changes, it can be built, and it has all that it had. -/
theorem isBuilt_and_growsTo (h : tree.Develops tree') (hbuilt : tree.IsBuilt) :
    tree'.IsBuilt ∧ tree.GrowsTo tree' := by
  induction h with
  | refl => exact ⟨hbuilt, .refl tree⟩
  | tail _ hchange ih =>
      obtain ⟨hbuilt', hgrows⟩ := ih
      exact ⟨hchange.isBuilt hbuilt', hgrows.trans (hchange.growsTo hbuilt'.isWellGrown.coherent)⟩

end Develops

end Tree

namespace Inference

variable {inf : Inference} {tree : Tree}

/-- An inference that marks its origin. -/
def isSettling (inf : Inference) : Bool :=
  match inf.effect with
  | .decomposition _ | .branch _ | .existential .. => true
  | .universal .. | .closure _ => false

/-- Splitting adds children below one leaf after the other. -/
theorem develops_split (inf : Inference) (outcomes : List Outcome) {leaves : List NodeId}
    (hleaves : ∀ leaf ∈ leaves, leaf < tree.size) :
    tree.Develops (inf.split outcomes tree leaves).1 := by
  induction leaves generalizing tree with
  | nil => exact .refl tree
  | cons leaf leaves ih =>
      obtain ⟨hleaf, hrest⟩ := List.forall_mem_cons.mp hleaves
      refine (Tree.Develops.of_changes (.addChildren hleaf _)).trans (ih fun other hother => ?_)
      rw [Tree.size_addChildren]
      exact Nat.lt_add_right _ (hrest other hother)

/-- An inference that marks its origin changes the tree before it does so, or after. -/
theorem develops_apply (h : inf.isSettling = true) (hbuilt : tree.IsBuilt)
    (hnode : inf.node < tree.size) {leaves : List NodeId}
    (hleaves : ∀ leaf ∈ leaves, leaf < tree.size) :
    ∃ tree', tree.Develops tree' ∧
      (inf.decomposeOrigin tree').1.Develops (inf.apply tree leaves).1 := by
  have hmerge : ∀ facts, tree.Develops (inf.mergeFacts facts tree).1 :=
    fun facts => .of_changes (.merge hnode _)
  have hsplit : ∀ outcomes, (inf.decomposeOrigin tree).1.Develops
      (inf.split outcomes (inf.decomposeOrigin tree).1 leaves).1 := by
    intro outcomes
    have hsize := (Tree.adds_decompose hbuilt.isWellGrown.coherent hnode inf.origin.key).size
    exact inf.develops_split outcomes fun leaf hleaf => hsize.symm ▸ hleaves leaf hleaf
  unfold isSettling at h
  unfold apply
  split at h
  · next facts heffect =>
      rw [heffect]
      exact ⟨_, hmerge facts, .refl _⟩
  · next outcomes heffect =>
      rw [heffect]
      exact ⟨tree, .refl tree, hsplit outcomes⟩
  · next binder terms outcomes heffect =>
      rw [heffect]
      match outcomes with
      | [facts] => exact ⟨_, hmerge facts, .refl _⟩
      | [] => exact ⟨tree, .refl tree, hsplit []⟩
      | first :: second :: rest => exact ⟨tree, .refl tree, hsplit (first :: second :: rest)⟩
  all_goals contradiction

/-- However the tree changes after an inference that marks its origin, the origin stays marked
below the node of the inference. -/
theorem isDecomposed_of_develops_apply (h : inf.isSettling = true) (hbuilt : tree.IsBuilt)
    (hnode : inf.node < tree.size) {leaves : List NodeId}
    (hleaves : ∀ leaf ∈ leaves, leaf < tree.size) {later : Tree}
    (hlater : (inf.apply tree leaves).1.Develops later) {id : NodeId}
    (hbelow : later.isDescendant id inf.node = true) :
    (later.branch id).isDecomposed inf.origin = true := by
  obtain ⟨before, hbefore, hafter⟩ := develops_apply h hbuilt hnode hleaves
  obtain ⟨hbuilt', hgrows⟩ := hbefore.isBuilt_and_growsTo hbuilt
  have hnode' := Nat.lt_of_lt_of_le hnode hgrows.size_le
  have hadds := Tree.adds_decompose hbuilt'.isWellGrown.coherent hnode' inf.origin.key
  have hmark : ((inf.decomposeOrigin before).1.branch inf.node).isDecomposed inf.origin = true :=
    (hadds.isDecomposed inf.node inf.origin).mpr (Or.inr ⟨List.mem_cons_self, List.mem_cons_self⟩)
  obtain ⟨hlast, hkept⟩ :=
    (hafter.trans hlater).isBuilt_and_growsTo (hbuilt'.decompose hnode' inf.origin.key)
  refine hlast.isWellGrown.coherent.isDecomposed_branch_mono (Tree.isDescendant_iff.mp hbelow) ?_
  exact hkept.isDecomposed inf.node (hadds.size.symm ▸ hnode') inf.origin hmark

end Inference

namespace Rule

/-- An inference that one of the rules yields for a sentence at a node. -/
def Obtains (lex : Lexicon) (tree : Tree) (node : NodeId) (k : Key) (number : Nat)
    (inf : Inference) : Prop :=
  decompose? lex tree node k number = some inf ∨
    ∃ lex', instantiate? lex tree node k number = some (inf, lex')

variable {lex : Lexicon} {tree : Tree} {node : NodeId} {k : Key} {number : Nat} {inf : Inference}

theorem Obtains.node_eq (h : Obtains lex tree node k number inf) :
    inf.node = node ∧ node < tree.size := by
  rcases h with hinf | ⟨lex', hinf⟩
  · obtain ⟨-, value, alternatives, hvalue, -, rfl⟩ := decompose?_eq_some_iff.mp hinf
    exact ⟨rfl, Tree.lt_size_of_has (Branch.has_of_models hvalue)⟩
  · obtain ⟨-, value, r, hvalue, -, rfl, -⟩ := instantiate?_eq_some_iff.mp hinf
    exact ⟨rfl, Tree.lt_size_of_has (Branch.has_of_models hvalue)⟩

theorem Obtains.isSettling (h : Obtains lex tree node k number inf)
    (huniversal : ∀ binder terms facts, inf.effect ≠ .universal binder terms facts) :
    inf.isSettling = true := by
  unfold Inference.isSettling
  rcases h with hinf | ⟨lex', hinf⟩
  · rcases effect_of_decompose? hinf with ⟨facts, heffect⟩ | ⟨outcomes, heffect⟩
    · rw [heffect]
    · rw [heffect]
  · rcases effect_of_instantiate? hinf with
      ⟨facts, heffect⟩ | ⟨binder, terms, facts, heffect⟩ | ⟨binder, terms, outcomes, heffect⟩
    · rw [heffect]
    · exact absurd heffect (huniversal binder terms facts)
    · rw [heffect]

/-- The sentences that are listed as waiting are those with a value whose rule fires, in the order
of all that have one.  The rule of a quantifier over a variable fires if and only if it is open.
Once an inference of these rules has been performed, whenever that is and below whichever leaves,
no rule fires on its origin any more, at its node and below, unless it was universal. -/
theorem fires_iff_applicable_and_once (lex : Lexicon) (tree : Tree) (node : NodeId)
    (number : Nat) :
    undecomposed lex (tree.branch node) =
      ((tree.branch node).mapped lex).filter (fun k => (decompose? lex tree node k number).isSome) ∧
    (∀ k : Key, k.sentence.bindsVariable = true →
      (isOpenQuantifier lex (tree.branch node) k = true ↔
        (instantiate? lex tree node k number).isSome = true)) ∧
    (tree.IsBuilt → ∀ k inf, Obtains lex tree node k number inf →
      (∀ binder terms facts, inf.effect ≠ .universal binder terms facts) →
      ∀ before leaves, tree.Develops before → (∀ leaf ∈ leaves, leaf < before.size) →
      ∀ later, (inf.apply before leaves).1.Develops later →
      ∀ id, later.isDescendant id node = true → ∀ lex' number',
        decompose? lex' later id inf.origin number' = none ∧
          instantiate? lex' later id inf.origin number' = none) := by
  refine ⟨?_, fun k hbinds => ?_, ?_⟩
  · simp only [isSome_decompose?]
    exact undecomposed_eq
  · rw [isSome_instantiate? hbinds]
  · intro hbuilt k inf hinf huniversal before leaves hbefore hleaves later hlater id hbelow lex'
      number'
    obtain ⟨rfl, hnode⟩ := hinf.node_eq
    obtain ⟨hbuilt', hgrows⟩ := hbefore.isBuilt_and_growsTo hbuilt
    have hnode' := Nat.lt_of_lt_of_le hnode hgrows.size_le
    exact none_of_isDecomposed
      (Inference.isDecomposed_of_develops_apply (hinf.isSettling huniversal)
      hbuilt' hnode' hleaves hlater hbelow) lex' number'

/-- An existential sentence with a term on its branch splits the tree below two leaves that were
not there when its rule fired.  Where it is found again further down, without a mark of its own, no
rule fires on it. -/
theorem existential_fires_once_when_split_late :
    let x : Sentence := .var "x" .object
    let c : Sentence := .const "c" .object
    let minted : Sentence := .const "c1" .object
    let A : Sentence := .atom "A"
    let P (term : Sentence) : Sentence := .pred "P" [term]
    let Q : Sentence := .pred "Q" [c]
    let s : Sentence := .ex x (P x)
    let lex := Lexicon.internAll {} [A, Q, s]
    let tree := Tree.ofRoot (Assignment.ofFacts [⟨Q, true⟩, ⟨s, true⟩] 0)
    let inf : Inference := {
      node := 0, origin := s, number := 1, justification := 0
      effect := .existential x [c, minted] [[⟨P c, true⟩], [⟨P minted, true⟩]] }
    let before := (tree.addChildren 0
      [Assignment.ofFacts [⟨A, true⟩] 2, Assignment.ofFacts [⟨A, false⟩] 2]).1
    let later :=
      ((inf.apply before [1, 2]).1.addChildren 6 [Assignment.ofFacts [⟨s, true⟩] 3]).1
    tree.IsBuilt ∧ (instantiate? lex tree 0 s 1).isSome = true ∧
      ∃ lex', instantiate? lex tree 0 s 1 = some (inf, lex') ∧
        (later.branch 7).models s = some true ∧ (later.content 7).isDecomposed s = false ∧
        decompose? lex' later 7 s 4 = none ∧ instantiate? lex' later 7 s 4 = none := by
  intro x c minted A P Q s lex tree inf before later
  have hbuilt : tree.IsBuilt := .ofRoot _
  have hfires : (instantiate? lex tree 0 s 1).map Prod.fst = some inf := by decide +kernel
  obtain ⟨⟨found, lex'⟩, hfound, rfl⟩ := Option.map_eq_some_iff.mp hfires
  have hinf : Obtains lex tree 0 s 1 inf := Or.inr ⟨lex', hfound⟩
  have hbefore : tree.Develops before := .of_changes (.addChildren (by decide) _)
  have hlater : (inf.apply before [1, 2]).1.Develops later :=
    .of_changes (.addChildren (by decide +kernel) _)
  obtain ⟨-, hopen, honce⟩ := fires_iff_applicable_and_once lex tree 0 1
  refine ⟨hbuilt, (hopen s rfl).mp (by decide +kernel), lex', hfound, by decide +kernel,
    by decide +kernel, ?_⟩
  refine honce hbuilt s inf hinf (fun _ _ _ h => ?_) before [1, 2] hbefore ?_ later hlater 7 ?_
    lex' 4
  · simp [inf] at h
  · decide +kernel
  · decide +kernel

end Rule

end Tableau
