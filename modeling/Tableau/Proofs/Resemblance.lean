/-
Trees that differ in their marks only.  A mark keeps a rule from being fired twice, but nothing
that an inference writes depends on it.  So an inference makes the same facts, with the same
numbers, the same instances and the same new nodes of trees that resemble each other.  Where a
mark is set is described apart from that.
-/
import Tableau.Proofs.Rule

namespace Tableau

/-- Two assignments give the same values by the same inferences, and have instantiated
universal sentences for the same terms. -/
structure Assignment.Resembles (a b : Assignment) : Prop where
  justification : ∀ k value, a.justification k value = b.justification k value
  instancesOf : ∀ k, a.instancesOf k = b.instancesOf k

/-- Two nodes have the same place in the tree, and their contents resemble each other. -/
structure Node.Resembles (node other : Node) : Prop where
  lineage : node.lineage = other.lineage
  children : node.children = other.children
  content : node.content.Resembles other.content

/-- Two trees have the same nodes, but for marks. -/
structure Tree.Resembles (tree tree' : Tree) : Prop where
  size : tree.size = tree'.size
  node : ∀ id, (tree.node id).Resembles (tree'.node id)

namespace Assignment.Resembles

variable {a b c : Assignment}

theorem refl (a : Assignment) : a.Resembles a := ⟨fun _ _ => rfl, fun _ => rfl⟩

theorem symm (h : a.Resembles b) : b.Resembles a :=
  ⟨fun k value => (h.justification k value).symm, fun k => (h.instancesOf k).symm⟩

theorem trans (h : a.Resembles b) (h' : b.Resembles c) : a.Resembles c :=
  ⟨fun k value => (h.justification k value).trans (h'.justification k value),
    fun k => (h.instancesOf k).trans (h'.instancesOf k)⟩

theorem has (h : a.Resembles b) (k : Key) (value : Bool) : a.has k value = b.has k value :=
  congrArg Option.isSome (h.justification k value)

theorem isMapped (h : a.Resembles b) (k : Key) : a.isMapped k = b.isMapped k := by
  rw [Bool.eq_iff_iff, isMapped_iff, isMapped_iff]
  simp only [h.has]

theorem models (h : a.Resembles b) (k : Key) : a.models k = b.models k := by
  apply Option.ext
  intro value
  rw [models_eq_some, models_eq_some, h.has, h.has]

theorem set (h : a.Resembles b) (k : Key) (value : Bool) (number : Nat) :
    (set k value number a).1.Resembles (set k value number b).1 where
  justification other v := by rw [justification_set, justification_set, h.justification]
  instancesOf other := by rw [instancesOf_set, instancesOf_set, h.instancesOf]

theorem instantiate (h : a.Resembles b) (k : Key) (term : Sentence) :
    (instantiate k term a).1.Resembles (instantiate k term b).1 where
  justification other value := h.justification other value
  instancesOf other := by simp only [instancesOf_instantiate, h.instancesOf]

theorem decompose (k : Key) (a : Assignment) : (decompose k a).1.Resembles a :=
  ⟨fun _ _ => justification_decompose, fun _ => instancesOf_decompose⟩

end Assignment.Resembles

namespace Tree

variable {tree tree' tree'' : Tree} {id m : NodeId} {k : Key}

/-! Branches, in terms of the nodes on them. -/

theorem justification_branch (tree : Tree) (id : NodeId) (k : Key) (value : Bool) :
    (tree.branch id).justification k value =
      (tree.ancestry id).findSome? fun n => (tree.content n).justification k value :=
  List.findSome?_map

theorem instancesOf_branch (tree : Tree) (id : NodeId) (k : Key) :
    (tree.branch id).instancesOf k =
      (tree.ancestry id).flatMap fun n => (tree.content n).instancesOf k :=
  List.flatMap_map ..

theorem models_branch (tree : Tree) (id : NodeId) (k : Key) :
    (tree.branch id).models k =
      ((tree.ancestry id).find? fun n => (tree.content n).isMapped k).bind fun n =>
        (tree.content n).models k := by
  rw [Branch.models, branch, List.find?_map, Option.bind_map]
  rfl

namespace Resembles

theorem refl (tree : Tree) : tree.Resembles tree := ⟨rfl, fun _ => ⟨rfl, rfl, .refl _⟩⟩

theorem symm (h : tree.Resembles tree') : tree'.Resembles tree where
  size := h.size.symm
  node id := ⟨(h.node id).lineage.symm, (h.node id).children.symm, (h.node id).content.symm⟩

theorem trans (h : tree.Resembles tree') (h' : tree'.Resembles tree'') :
    tree.Resembles tree'' where
  size := h.size.trans h'.size
  node id := ⟨(h.node id).lineage.trans (h'.node id).lineage,
    (h.node id).children.trans (h'.node id).children,
    (h.node id).content.trans (h'.node id).content⟩

variable (h : tree.Resembles tree')
include h

theorem lineage (id : NodeId) : tree.lineage id = tree'.lineage id := (h.node id).lineage

theorem ancestry (id : NodeId) : tree.ancestry id = tree'.ancestry id :=
  congrArg (id :: ·) (h.lineage id)

theorem coherent (hcoh : tree'.Coherent) : tree.Coherent := by
  have hlineage : tree.lineage = tree'.lineage := funext h.lineage
  have hchildren : tree.children = tree'.children := funext fun id => (h.node id).children
  constructor
  · exact hlineage ▸ hcoh.ancestral
  · exact hlineage ▸ hchildren ▸ hcoh.lists_child
  · exact hlineage ▸ h.size ▸ hcoh.rooted

theorem isDescendant (id ancestor : NodeId) :
    tree.isDescendant id ancestor = tree'.isDescendant id ancestor := by
  rw [Bool.eq_iff_iff, isDescendant_iff, isDescendant_iff, h.ancestry]

theorem justification_branch (id : NodeId) (k : Key) (value : Bool) :
    (tree.branch id).justification k value = (tree'.branch id).justification k value := by
  have hcontent : ∀ n, (tree.content n).justification k value =
      (tree'.content n).justification k value :=
    fun n => (h.node n).content.justification k value
  simp only [Tree.justification_branch, h.ancestry, hcontent]

theorem has_branch (id : NodeId) (k : Key) (value : Bool) :
    (tree.branch id).has k value = (tree'.branch id).has k value :=
  congrArg Option.isSome (h.justification_branch id k value)

theorem instancesOf_branch (id : NodeId) (k : Key) :
    (tree.branch id).instancesOf k = (tree'.branch id).instancesOf k := by
  have hcontent : ∀ n, (tree.content n).instancesOf k = (tree'.content n).instancesOf k :=
    fun n => (h.node n).content.instancesOf k
  simp only [Tree.instancesOf_branch, h.ancestry, hcontent]

theorem models_branch (id : NodeId) (k : Key) :
    (tree.branch id).models k = (tree'.branch id).models k := by
  have hmapped : ∀ n, (tree.content n).isMapped k = (tree'.content n).isMapped k :=
    fun n => (h.node n).content.isMapped k
  have hmodels : ∀ n, (tree.content n).models k = (tree'.content n).models k :=
    fun n => (h.node n).content.models k
  simp only [Tree.models_branch, h.ancestry, hmapped, hmodels]

end Resembles

/-! Changes. -/

theorem node_alter (id m : NodeId) (change : Update Assignment) (tree : Tree) :
    (alter id change tree).1.node m =
      if m = id ∧ id < tree.size then
        { tree.node m with content := (change (tree.content id)).1 }
      else tree.node m := by
  simp only [alter, node, size, Array.getElem?_modify]
  by_cases heq : m = id
  · subst heq
    by_cases hlt : m < tree.nodes.size
    · simp [hlt]
    · simp [hlt]
  · simp [heq, Ne.symm heq]

namespace Resembles

/-- Changes that make resembling assignments of resembling ones make resembling trees. -/
theorem alter {change : Update Assignment} (h : tree.Resembles tree')
    (hchange : (change (tree.content id)).1.Resembles (change (tree'.content id)).1) :
    (alter id change tree).1.Resembles (alter id change tree').1 := by
  refine ⟨by rw [size_alter, size_alter, h.size], fun m => ?_⟩
  rw [node_alter, node_alter, h.size]
  split
  · exact ⟨(h.node m).lineage, (h.node m).children, hchange⟩
  · exact h.node m

theorem set (h : tree.Resembles tree') (id : NodeId) (k : Key) (value : Bool) (number : Nat) :
    (set id k value number tree).1.Resembles (set id k value number tree').1 := by
  simp only [Tree.set, h.has_branch]
  split
  · exact h
  · exact h.alter ((h.node id).content.set k value number)

theorem instantiate (h : tree.Resembles tree') (id : NodeId) (k : Key) (term : Sentence) :
    (instantiate id k term tree).1.Resembles (instantiate id k term tree').1 := by
  simp only [Tree.instantiate, h.instancesOf_branch]
  split
  · exact h
  · exact h.alter ((h.node id).content.instantiate k term)

/-- A mark makes no difference. -/
theorem of_decompose (id : NodeId) (k : Key) (tree : Tree) :
    (decompose id k tree).1.Resembles tree := by
  simp only [Tree.decompose]
  split
  · exact .refl tree
  · refine ⟨size_alter .., fun m => ?_⟩
    rw [node_alter]
    split
    · next hm => exact ⟨rfl, rfl, hm.1 ▸ .decompose k _⟩
    · exact (refl tree).node m

theorem decompose (h : tree.Resembles tree') (id : NodeId) (k : Key) :
    (decompose id k tree).1.Resembles (decompose id k tree').1 :=
  ((of_decompose id k tree).trans h).trans (of_decompose id k tree').symm

/-- Changes one after the other. -/
theorem each {α : Type} {change : α → Update Tree}
    (hchange : ∀ x tree tree', tree.Resembles tree' →
      (change x tree).1.Resembles (change x tree').1) (h : tree.Resembles tree') (xs : List α) :
    (Update.each change xs tree).1.Resembles (Update.each change xs tree').1 :=
  Update.each_relates Tree.Resembles hchange h xs

theorem merge (h : tree.Resembles tree') (id : NodeId) (other : Assignment) :
    (merge id other tree).1.Resembles (merge id other tree').1 := by
  have hfacts := h.each (fun (fact : Fact) _ _ h => h.set id fact.key fact.value
    ((other.justification fact.key fact.value).getD 0)) other.facts
  have hmarks := hfacts.each (fun k _ _ h => h.decompose id k) other.decomposed
  exact hmarks.each (fun entry _ _ h => h.each (fun term _ _ h => h.instantiate id entry.1 term)
    entry.2) other.instances.toList

/-! New nodes. -/

theorem addChildren (h : tree.Resembles tree') (id : NodeId) (contents : List Assignment) :
    (tree.addChildren id contents).1.Resembles (tree'.addChildren id contents).1 := by
  refine ⟨by rw [size_addChildren, size_addChildren, h.size], fun m => ?_⟩
  rcases Nat.lt_or_ge m tree.size with hold | hge
  · rw [node_addChildren_of_lt hold, node_addChildren_of_lt (h.size ▸ hold)]
    split
    · refine ⟨(h.node m).lineage, ?_, (h.node m).content⟩
      simp only [Tree.children, (h.node m).children, h.size]
    · exact h.node m
  · obtain ⟨i, rfl⟩ := Nat.exists_eq_add_of_le hge
    rcases Nat.lt_or_ge i contents.length with hi | hnone
    · rw [node_addChildren_new hi, h.size, node_addChildren_new hi]
      exact ⟨h.ancestry id, rfl, .refl _⟩
    · have hsize : ∀ tree : Tree, (tree.addChildren id contents).1.size ≤ tree.size + i := by
        intro tree
        rw [size_addChildren]
        exact Nat.add_le_add_left hnone _
      rw [node_eq_of_size_le (hsize tree), h.size, node_eq_of_size_le (hsize tree')]
      exact ⟨rfl, rfl, .refl _⟩

end Resembles

end Tree

namespace Inference

variable {tree tree' : Tree}

theorem split_of_resembles (h : tree.Resembles tree') (inf : Inference)
    (alternatives : List Outcome) (leaves : List NodeId) :
    (inf.split alternatives tree leaves).1.Resembles (inf.split alternatives tree' leaves).1 ∧
      (inf.split alternatives tree leaves).2 = (inf.split alternatives tree' leaves).2 := by
  induction leaves generalizing tree tree' with
  | nil => exact ⟨h, rfl⟩
  | cons leaf leaves ih =>
      obtain ⟨hrest, hcreated⟩ := ih (h.addChildren leaf
        (alternatives.map fun facts => Assignment.ofFacts facts inf.number))
      refine ⟨hrest, ?_⟩
      simp only [Inference.split, Tree.addChildren, h.size] at hcreated ⊢
      rw [hcreated]

/-- An inference makes resembling trees of resembling ones. -/
theorem apply_of_resembles (h : tree.Resembles tree') (inf : Inference) (leaves : List NodeId) :
    (inf.apply tree leaves).1.Resembles (inf.apply tree' leaves).1 := by
  have hplain : ∀ facts,
      (inf.inPlace ((inf.mergeFacts facts).andThen inf.decomposeOrigin) tree).1.Resembles
        (inf.inPlace ((inf.mergeFacts facts).andThen inf.decomposeOrigin) tree').1 := by
    intro facts
    exact (h.merge inf.node (Assignment.ofFacts facts inf.number)).decompose inf.node inf.origin
  have hmarked := h.decompose inf.node inf.origin
  unfold apply
  split
  · exact hplain _
  · next binder terms facts heffect =>
      exact (h.merge inf.node (Assignment.ofFacts facts inf.number)).each
        (fun term _ _ h => h.instantiate inf.node inf.origin term) terms
  · exact hplain _
  · exact (split_of_resembles hmarked inf _ leaves).1
  · exact (split_of_resembles hmarked inf _ leaves).1
  · exact h

/-- One that splits makes the same nodes. -/
theorem created_of_resembles (h : tree.Resembles tree') {inf : Inference}
    (hsplit : inf.isBranching = true) (leaves : List NodeId) :
    (inf.apply tree leaves).2 = (inf.apply tree' leaves).2 := by
  rw [apply_eq_split hsplit, apply_eq_split hsplit]
  exact (split_of_resembles (h.decompose inf.node inf.origin) inf inf.outcomes leaves).2

end Inference

/-! Marks. -/

namespace Tree

variable {tree : Tree} {id m : NodeId} {k k' : Key}

/-- Whether a sentence is marked as decomposed at the node itself. -/
def isMarked (tree : Tree) (id : NodeId) (k : Key) : Bool := (tree.content id).isDecomposed k

theorem isMarked_eq_false (h : (tree.branch id).isDecomposed k = false)
    (hm : m ∈ tree.ancestry id) :
    tree.isMarked m k = false := by
  rw [← Bool.not_eq_true] at h ⊢
  exact fun hmark => h (isDecomposed_branch.mpr ⟨m, hm, hmark⟩)

theorem isMarked_of_size_le (h : tree.size ≤ id) : tree.isMarked id k = false := by
  rw [isMarked, content, node_eq_of_size_le h]
  rfl

theorem isMarked_alter {change : Update Assignment}
    (hchange : (change (tree.content id)).1.isDecomposed k = (tree.content id).isDecomposed k) :
    (alter id change tree).1.isMarked m k = tree.isMarked m k := by
  rw [isMarked, content, node_alter]
  split
  · next hm =>
      rw [hm.1]
      exact hchange
  · rfl

theorem isMarked_set (id : NodeId) (k : Key) (value : Bool) (number : Nat) (tree : Tree) :
    (set id k value number tree).1.isMarked m k' = tree.isMarked m k' := by
  rw [set]
  split
  · rfl
  · exact isMarked_alter Assignment.isDecomposed_set

theorem isMarked_instantiate (id : NodeId) (k : Key) (term : Sentence) (tree : Tree) :
    (instantiate id k term tree).1.isMarked m k' = tree.isMarked m k' := by
  rw [instantiate]
  split
  · rfl
  · exact isMarked_alter Assignment.isDecomposed_instantiate

theorem isMarked_each {α : Type} {change : α → Update Tree}
    (hchange : ∀ x tree, (change x tree).1.isMarked m k = tree.isMarked m k) (xs : List α)
    (tree : Tree) : (Update.each change xs tree).1.isMarked m k = tree.isMarked m k :=
  Update.each_preserves (fun tree' => tree'.isMarked m k = tree.isMarked m k)
    (fun x tree' h => (hchange x tree').trans h) rfl xs

theorem isMarked_merge_ofFacts (id : NodeId) (facts : List Fact) (number : Nat) (tree : Tree) :
    (merge id (Assignment.ofFacts facts number) tree).1.isMarked m k = tree.isMarked m k := by
  have hempty : ({} : Table (List Sentence)).toList = [] := rfl
  simp only [merge, Assignment.decomposed_ofFacts, Assignment.instances_ofFacts, hempty,
    Update.each, Update.andThen, Update.skip]
  apply isMarked_each
  intro fact tree
  exact isMarked_set id fact.key fact.value _ tree

/-- New nodes bring no marks if their contents do not. -/
theorem Grafts.isMarked {tree' : Tree} {leaves created : List NodeId} {contents : List Assignment}
    (h : Grafts tree leaves contents tree' created)
    (hcontents : ∀ content ∈ contents, ∀ k, content.isDecomposed k = false) :
    tree'.isMarked m k = tree.isMarked m k := by
  rcases Nat.lt_or_ge m tree.size with hold | hge
  · rw [Tree.isMarked, h.content m hold, Tree.isMarked]
  · rw [isMarked_of_size_le hge]
    rcases Nat.lt_or_ge m tree'.size with hnew | hnone
    · obtain ⟨leaf, -, content, hcontent, hnode⟩ :=
        h.exists_of_mem_created (h.mem_created_iff.mpr ⟨hge, hnew⟩)
      rw [Tree.isMarked, Tree.content, hnode]
      exact hcontents content hcontent k
    · exact isMarked_of_size_le hnone

/-- A mark is set at the node, unless there is one above it. -/
theorem isMarked_decompose (hid : id < tree.size)
    (habove : ∀ n ∈ tree.lineage id, tree.isMarked n k = false) :
    (decompose id k tree).1.isMarked m k' = true ↔
      tree.isMarked m k' = true ∨ m = id ∧ k' = k := by
  by_cases hmark : (tree.branch id).isDecomposed k = true
  · -- then it is the node itself that has the mark
    have hself : tree.isMarked id k = true := by
      obtain ⟨n, hn, hhere⟩ := isDecomposed_branch.mp hmark
      rcases List.mem_cons.mp hn with rfl | hproper
      · exact hhere
      · have hnone : (tree.content n).isDecomposed k = false := habove n hproper
        rw [hhere] at hnone
        contradiction
    rw [decompose, if_pos hmark]
    constructor
    · exact Or.inl
    · rintro (hold | ⟨rfl, rfl⟩)
      · exact hold
      · exact hself
  · rw [decompose, if_neg hmark]
    by_cases hm : m = id
    · simp [isMarked, hm, content_alter_self hid]
    · simp [isMarked, hm, content_alter_of_ne hm]

end Tree

namespace Inference

variable {tree : Tree} {inf : Inference} {id : NodeId} {k : Key} (hnode : inf.node < tree.size)
  (habove : ∀ n ∈ tree.lineage inf.node, tree.isMarked n inf.origin = false)
include hnode habove

/-- An inference that does not split marks its origin at its node, unless that is universal. -/
theorem isMarked_apply {sorts : Sorts} {s : Sentence} {value : Bool} (hcoh : tree.Coherent)
    (h : Rule.Yields sorts s value inf.effect) (hsplit : inf.isBranching = false)
    (leaves : List NodeId) :
    (inf.apply tree leaves).1.isMarked id k = true ↔
      tree.isMarked id k = true ∨ id = inf.node ∧ k ∈ inf.addition.marks := by
  obtain ⟨facts, ⟨hadded, happly⟩ | ⟨terms, hadded, happly⟩⟩ := apply_cases h hsplit
  all_goals
    rw [hadded, happly]
    have hadds := Tree.adds_merge_ofFacts hcoh hnode facts inf.number
    have hmerge : ∀ n k, (inf.mergeFacts facts tree).1.isMarked n k = tree.isMarked n k :=
      fun n k => Tree.isMarked_merge_ofFacts inf.node facts inf.number tree
  · rw [decomposeOrigin, Tree.isMarked_decompose, hmerge, List.mem_singleton]
    · exact hadds.size ▸ hnode
    · intro n hn
      rw [hmerge]
      exact habove n (hadds.lineage inf.node ▸ hn)
  · rw [Tree.isMarked_each fun term tree => Tree.isMarked_instantiate inf.node inf.origin term tree,
      hmerge]
    simp

/-- An inference that splits marks its origin at its node. -/
theorem isMarked_apply_of_isBranching (hsplit : inf.isBranching = true) {leaves : List NodeId}
    (hleaves : ∀ leaf ∈ leaves, leaf < tree.size) :
    (inf.apply tree leaves).1.isMarked id k = true ↔
      tree.isMarked id k = true ∨ id = inf.node ∧ k = inf.origin.key := by
  have hsize := (Tree.Resembles.of_decompose inf.node inf.origin tree).size
  have hgrafts := inf.grafts_split inf.outcomes (inf.decomposeOrigin tree).1
    fun leaf hleaf => hsize ▸ hleaves leaf hleaf
  rw [apply_eq_split hsplit, hgrafts.isMarked, decomposeOrigin,
    Tree.isMarked_decompose hnode habove]
  intro content hcontent k
  obtain ⟨facts, -, rfl⟩ := List.mem_map.mp hcontent
  exact Assignment.isDecomposed_ofFacts facts inf.number k

end Inference

end Tableau
