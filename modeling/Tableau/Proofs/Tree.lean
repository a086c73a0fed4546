/-
Trees that only grow.  An inference adds facts, marks and terms at one node, or it
grafts new nodes below some leaves.  Both are described here by what they do to
the branches of all nodes, so that nothing else needs to look inside the tree.
-/
import Tableau.Proofs.Branch
import Tableau.Proofs.Lineage
import Mathlib.Logic.Basic

namespace Tableau

attribute [ext] Node

namespace Tree

variable {tree tree' : Tree} {id m : NodeId}

/-- The proper ancestors of a node, the parent first. -/
def lineage (tree : Tree) (id : NodeId) : List NodeId := (tree.node id).lineage

/-- The nodes hang together: every lineage goes on with the lineage of the parent,
every parent lists its children, and only the root has no parent. -/
structure Coherent (tree : Tree) : Prop where
  ancestral : Ancestral tree.lineage
  lists_child : ∀ id parent, (tree.lineage id).head? = some parent → id ∈ tree.children parent
  rooted : ∀ id < tree.size, tree.lineage id = [] → id = NodeId.root

theorem mem_ancestry_self (tree : Tree) (id : NodeId) : id ∈ tree.ancestry id :=
  List.mem_cons_self

@[simp]
theorem isDescendant_iff {ancestor : NodeId} :
    tree.isDescendant id ancestor = true ↔ ancestor ∈ tree.ancestry id := by
  simp [isDescendant, ancestry, eq_comm (a := id)]

theorem Coherent.mem_ancestry_trans (h : tree.Coherent) {a b : NodeId}
    (ha : a ∈ tree.ancestry id) (hb : b ∈ tree.ancestry a) : b ∈ tree.ancestry id :=
  h.ancestral.mem_trans ha hb

theorem Coherent.le_of_mem_ancestry (h : tree.Coherent) {a : NodeId}
    (ha : a ∈ tree.ancestry id) : a ≤ id := by
  rcases List.mem_cons.mp ha with rfl | ha
  · exact Nat.le_refl _
  · exact Nat.le_of_lt (h.ancestral.lt_of_mem ha)

/-- A node without children is nobody's ancestor but its own. -/
theorem Coherent.eq_of_childless (h : tree.Coherent) {a : NodeId}
    (hchildren : tree.children a = []) (ha : a ∈ tree.ancestry id) : a = id := by
  rcases List.mem_cons.mp ha with heq | hmem
  · exact heq
  · obtain ⟨child, -, hlineage⟩ := h.ancestral.exists_child hmem
    have hlisted := h.lists_child child a (by simp [hlineage])
    rw [hchildren] at hlisted
    simp at hlisted

theorem Coherent.root_mem_ancestry (h : tree.Coherent) (hid : id < tree.size) :
    NodeId.root ∈ tree.ancestry id := by
  induction id using Nat.strongRecOn with
  | ind id ih =>
      rcases h.ancestral id with hnil | ⟨parent, hlt, hcons⟩
      · rw [h.rooted id hid hnil]
        exact mem_ancestry_self ..
      · refine List.mem_cons_of_mem id ?_
        change NodeId.root ∈ tree.lineage id
        rw [hcons]
        exact ih parent hlt (Nat.lt_trans hlt hid)

theorem node_eq_of_size_le (h : tree.size ≤ id) : tree.node id = {} := by
  unfold size at h
  simp [node, h]

theorem branch_eq_of_size_le (h : tree.size ≤ id) : tree.branch id = [{}] := by
  have hnode := node_eq_of_size_le h
  unfold branch ancestry
  rw [hnode]
  simp [content, hnode]

/-- A sentence has a value only at nodes that are there. -/
theorem lt_size_of_has {k : Key} {value : Bool} (h : (tree.branch id).has k value = true) :
    id < tree.size := by
  rw [← Nat.not_le]
  intro hle
  rw [branch_eq_of_size_le hle, Branch.has_iff] at h
  obtain ⟨a, ha, hhas⟩ := h
  rw [List.mem_singleton.mp ha, Assignment.has_empty] at hhas
  contradiction

/-! The tree with nothing but a root. -/

theorem node_ofRoot (content : Assignment) (id : NodeId) :
    (ofRoot content).node id = if id = NodeId.root then { content } else {} := by
  cases id with
  | zero => rfl
  | succ n => rfl

theorem branch_ofRoot (content : Assignment) (id : NodeId) :
    (ofRoot content).branch id = [if id = NodeId.root then content else {}] := by
  have hlineage : ((ofRoot content).node id).lineage = [] := by
    rw [node_ofRoot]
    split <;> rfl
  unfold branch ancestry Tree.content
  rw [hlineage, List.map_cons, List.map_nil, node_ofRoot]
  split <;> rfl

theorem coherent_ofRoot (content : Assignment) : (ofRoot content).Coherent := by
  have hlineage : ∀ id, (ofRoot content).lineage id = [] := by
    intro id
    unfold lineage
    rw [node_ofRoot]
    split <;> rfl
  refine ⟨fun id => Or.inl (hlineage id), ?_, ?_⟩
  · intro id parent hparent
    simp [hlineage] at hparent
  · intro id hid _
    exact Nat.lt_one_iff.mp hid

/-! Branches, node by node. -/

theorem has_branch {k : Key} {value : Bool} :
    (tree.branch id).has k value = true ↔
      ∃ n ∈ tree.ancestry id, (tree.content n).has k value = true := by
  simp [branch, Branch.has_iff]

theorem isDecomposed_branch {k : Key} :
    (tree.branch id).isDecomposed k = true ↔
      ∃ n ∈ tree.ancestry id, (tree.content n).isDecomposed k = true := by
  simp [branch, Branch.isDecomposed_iff]

theorem mem_instancesOf_branch {k : Key} {term : Sentence} :
    term ∈ (tree.branch id).instancesOf k ↔
      ∃ n ∈ tree.ancestry id, term ∈ (tree.content n).instancesOf k := by
  simp [branch, Branch.mem_instancesOf]

/-- On an inconsistent branch some node clashes with the branch above it. -/
theorem Coherent.exists_clash (h : tree.Coherent) (hcons : tree.isPathConsistent id = false) :
    ∃ n ∈ tree.ancestry id, tree.clashes n = true := by
  -- of two nodes with opposite values the lower one clashes
  have hlower : ∀ n n' k value, n' ∈ tree.ancestry n → (tree.content n).has k value = true →
      (tree.content n').has k (!value) = true → tree.clashes n = true := by
    intro n n' k value hn hvalue hopposite
    refine Branch.clashes_cons.mpr ⟨k, value, hvalue, ?_⟩
    exact has_branch.mpr ⟨n', hn, hopposite⟩
  have hvalues : ∃ k value, (tree.branch id).has k value = true ∧
      (tree.branch id).has k (!value) = true := by
    rw [isPathConsistent, ← Bool.not_eq_true, Branch.isConsistent_iff] at hcons
    by_cases hex : ∃ k value, (tree.branch id).has k value = true ∧
        (tree.branch id).has k (!value) = true
    · exact hex
    · refine absurd (fun k value hvalue => ?_) hcons
      rw [← Bool.not_eq_true]
      exact fun hopposite => hex ⟨k, value, hvalue, hopposite⟩
  obtain ⟨k, value, hvalue, hopposite⟩ := hvalues
  obtain ⟨n, hn, hvalue⟩ := has_branch.mp hvalue
  obtain ⟨n', hn', hopposite⟩ := has_branch.mp hopposite
  rcases h.ancestral.mem_or_mem hn hn' with hbelow | habove
  · exact ⟨n, hn, hlower n n' k value hbelow hvalue hopposite⟩
  · exact ⟨n', hn', hlower n' n k (!value) habove hopposite (by simpa using hvalue)⟩

/-- A branch says all that the branches of its nodes say. -/
theorem Coherent.has_branch_mono (h : tree.Coherent) {k : Key} {value : Bool}
    (hm : m ∈ tree.ancestry id) (hhas : (tree.branch m).has k value = true) :
    (tree.branch id).has k value = true := by
  obtain ⟨n, hn, hvalue⟩ := has_branch.mp hhas
  exact has_branch.mpr ⟨n, h.mem_ancestry_trans hm hn, hvalue⟩

theorem Coherent.isDecomposed_branch_mono (h : tree.Coherent) {k : Key}
    (hm : m ∈ tree.ancestry id) (hmark : (tree.branch m).isDecomposed k = true) :
    (tree.branch id).isDecomposed k = true := by
  obtain ⟨n, hn, hvalue⟩ := isDecomposed_branch.mp hmark
  exact isDecomposed_branch.mpr ⟨n, h.mem_ancestry_trans hm hn, hvalue⟩

theorem Coherent.instancesOf_branch_mono (h : tree.Coherent) {k : Key} {term : Sentence}
    (hm : m ∈ tree.ancestry id) (hterm : term ∈ (tree.branch m).instancesOf k) :
    term ∈ (tree.branch id).instancesOf k := by
  obtain ⟨n, hn, hvalue⟩ := mem_instancesOf_branch.mp hterm
  exact mem_instancesOf_branch.mpr ⟨n, h.mem_ancestry_trans hm hn, hvalue⟩

end Tree

/-- What is added at a node: facts, marks of decomposed sentences, and terms that
universal sentences are instantiated for. -/
structure Addition where
  facts : List Fact := []
  marks : List Key := []
  terms : List (Key × Sentence) := []

namespace Tree

variable {tree tree' : Tree} {id m : NodeId}

/-- One tree has what the other has and an addition at a node.  It shows on the
branches of all nodes at or below that node. -/
structure Adds (tree : Tree) (id : NodeId) (added : Addition) (tree' : Tree) : Prop where
  size : tree'.size = tree.size
  lineage : ∀ m, tree'.lineage m = tree.lineage m
  children : ∀ m, tree'.children m = tree.children m
  node_of_ne : ∀ m, m ≠ id → tree'.node m = tree.node m
  has : ∀ m k value, (tree'.branch m).has k value = true ↔
    (tree.branch m).has k value = true ∨ id ∈ tree.ancestry m ∧ ⟨k, value⟩ ∈ added.facts
  isDecomposed : ∀ m k, (tree'.branch m).isDecomposed k = true ↔
    (tree.branch m).isDecomposed k = true ∨ id ∈ tree.ancestry m ∧ k ∈ added.marks
  mem_instancesOf : ∀ m k term, term ∈ (tree'.branch m).instancesOf k ↔
    term ∈ (tree.branch m).instancesOf k ∨ id ∈ tree.ancestry m ∧ (k, term) ∈ added.terms

namespace Adds

variable {added more : Addition}

theorem ancestry (h : Adds tree id added tree') (m : NodeId) :
    tree'.ancestry m = tree.ancestry m :=
  congrArg (m :: ·) (h.lineage m)

/-- A branch that does not pass the node stays as it is. -/
theorem branch_of_not_mem (h : Adds tree id added tree') (hm : id ∉ tree.ancestry m) :
    tree'.branch m = tree.branch m := by
  unfold branch
  rw [h.ancestry]
  apply List.map_congr_left
  intro n hn
  unfold Tree.content
  rw [h.node_of_ne n fun heq => hm (heq ▸ hn)]

theorem coherent (h : Adds tree id added tree') (hcoh : tree.Coherent) : tree'.Coherent where
  ancestral m := by
    have hall : tree'.lineage = tree.lineage := funext h.lineage
    rw [hall]
    exact hcoh.ancestral m
  lists_child m parent hparent := by
    rw [h.lineage] at hparent
    rw [h.children]
    exact hcoh.lists_child m parent hparent
  rooted m hm hnil := by
    rw [h.size] at hm
    rw [h.lineage] at hnil
    exact hcoh.rooted m hm hnil

/-- Only the members of an addition count. -/
theorem congr (h : Adds tree id added tree') (hfacts : ∀ f, f ∈ added.facts ↔ f ∈ more.facts)
    (hmarks : ∀ k, k ∈ added.marks ↔ k ∈ more.marks)
    (hterms : ∀ t, t ∈ added.terms ↔ t ∈ more.terms) : Adds tree id more tree' where
  size := h.size
  lineage := h.lineage
  children := h.children
  node_of_ne := h.node_of_ne
  has m k value := by rw [h.has, hfacts]
  isDecomposed m k := by rw [h.isDecomposed, hmarks]
  mem_instancesOf m k term := by rw [h.mem_instancesOf, hterms]

private theorem or_added {old below first second : Prop} :
    (old ∨ below ∧ first) ∨ below ∧ second ↔ old ∨ below ∧ (first ∨ second) := by
  rw [or_assoc, and_or_left]

/-- One addition after the other. -/
theorem trans {tree'' : Tree} (h : Adds tree id added tree') (h' : Adds tree' id more tree'') :
    Adds tree id ⟨added.facts ++ more.facts, added.marks ++ more.marks, added.terms ++ more.terms⟩
      tree'' where
  size := h'.size.trans h.size
  lineage m := (h'.lineage m).trans (h.lineage m)
  children m := (h'.children m).trans (h.children m)
  node_of_ne m hm := (h'.node_of_ne m hm).trans (h.node_of_ne m hm)
  has m k value := by
    rw [h'.has, h.has, h.ancestry, List.mem_append, or_added]
  isDecomposed m k := by
    rw [h'.isDecomposed, h.isDecomposed, h.ancestry, List.mem_append, or_added]
  mem_instancesOf m k term := by
    rw [h'.mem_instancesOf, h.mem_instancesOf, h.ancestry, List.mem_append, or_added]

/-- Nothing changes where the branch has all that is added. -/
theorem of_present (hcoh : tree.Coherent)
    (hfacts : ∀ f ∈ added.facts, (tree.branch id).has f.key f.value = true)
    (hmarks : ∀ k ∈ added.marks, (tree.branch id).isDecomposed k = true)
    (hterms : ∀ t ∈ added.terms, t.2 ∈ (tree.branch id).instancesOf t.1) :
    Adds tree id added tree where
  size := rfl
  lineage _ := rfl
  children _ := rfl
  node_of_ne _ _ := rfl
  has m k value := by
    refine ⟨Or.inl, ?_⟩
    rintro (hold | ⟨hid, hadded⟩)
    · exact hold
    · exact hcoh.has_branch_mono hid (hfacts _ hadded)
  isDecomposed m k := by
    refine ⟨Or.inl, ?_⟩
    rintro (hold | ⟨hid, hadded⟩)
    · exact hold
    · exact hcoh.isDecomposed_branch_mono hid (hmarks _ hadded)
  mem_instancesOf m k term := by
    refine ⟨Or.inl, ?_⟩
    rintro (hold | ⟨hid, hadded⟩)
    · exact hold
    · exact hcoh.instancesOf_branch_mono hid (hterms _ hadded)

end Adds

/-- One tree has all nodes of the other in their places, and their branches say at
least as much. -/
structure GrowsTo (tree tree' : Tree) : Prop where
  size_le : tree.size ≤ tree'.size
  ancestry : ∀ m < tree.size, tree'.ancestry m = tree.ancestry m
  has : ∀ m < tree.size, ∀ k value, (tree.branch m).has k value = true →
    (tree'.branch m).has k value = true
  isDecomposed : ∀ m < tree.size, ∀ k, (tree.branch m).isDecomposed k = true →
    (tree'.branch m).isDecomposed k = true
  instancesOf : ∀ m < tree.size, ∀ k, (tree.branch m).instancesOf k ⊆ (tree'.branch m).instancesOf k

theorem GrowsTo.refl (tree : Tree) : tree.GrowsTo tree :=
  ⟨Nat.le_refl _, fun _ _ => rfl, fun _ _ _ _ h => h, fun _ _ _ h => h, fun _ _ _ _ h => h⟩

theorem GrowsTo.trans {tree'' : Tree} (h : tree.GrowsTo tree') (h' : tree'.GrowsTo tree'') :
    tree.GrowsTo tree'' := by
  have hlt : ∀ m < tree.size, m < tree'.size := fun m hm => Nat.lt_of_lt_of_le hm h.size_le
  refine ⟨Nat.le_trans h.size_le h'.size_le, ?_, ?_, ?_, ?_⟩
  · intro m hm
    exact (h'.ancestry m (hlt m hm)).trans (h.ancestry m hm)
  · intro m hm k value hold
    exact h'.has m (hlt m hm) k value (h.has m hm k value hold)
  · intro m hm k hold
    exact h'.isDecomposed m (hlt m hm) k (h.isDecomposed m hm k hold)
  · intro m hm k
    exact List.Subset.trans (h.instancesOf m hm k) (h'.instancesOf m (hlt m hm) k)

theorem Adds.growsTo {added : Addition} (h : Adds tree id added tree') : tree.GrowsTo tree' where
  size_le := Nat.le_of_eq h.size.symm
  ancestry m _ := h.ancestry m
  has m _ k value hold := (h.has m k value).mpr (Or.inl hold)
  isDecomposed m _ k hold := (h.isDecomposed m k).mpr (Or.inl hold)
  instancesOf m _ k term hold := (h.mem_instancesOf m k term).mpr (Or.inl hold)

/-! Changes at a node. -/

theorem node_alter_of_ne {change : Update Assignment} (h : m ≠ id) :
    (alter id change tree).1.node m = tree.node m := by
  simp [alter, node, Array.getElem?_modify, h.symm]

/-- Some node on the way up answers a question after a change at `id`: one did so
before, or the change made `id` answer it. -/
private theorem exists_content_alter {change : Update Assignment} (hid : id < tree.size)
    (test : Assignment → Prop) {more : Prop}
    (h : test (change (tree.content id)).1 ↔ test (tree.content id) ∨ more) :
    (∃ n ∈ (alter id change tree).1.ancestry m, test ((alter id change tree).1.content n)) ↔
      (∃ n ∈ tree.ancestry m, test (tree.content n)) ∨ id ∈ tree.ancestry m ∧ more := by
  rw [ancestry_alter]
  constructor
  · rintro ⟨n, hn, htest⟩
    by_cases heq : n = id
    · subst heq
      rw [content_alter_self hid, h] at htest
      rcases htest with hold | hmore
      · exact Or.inl ⟨n, hn, hold⟩
      · exact Or.inr ⟨hn, hmore⟩
    · rw [content_alter_of_ne heq] at htest
      exact Or.inl ⟨n, hn, htest⟩
  · rintro (⟨n, hn, htest⟩ | ⟨hn, hmore⟩)
    · refine ⟨n, hn, ?_⟩
      by_cases heq : n = id
      · subst heq
        rw [content_alter_self hid, h]
        exact Or.inl htest
      · rwa [content_alter_of_ne heq]
    · refine ⟨id, hn, ?_⟩
      rw [content_alter_self hid, h]
      exact Or.inr hmore

/-- A change at a node adds to the tree what it adds to the node. -/
theorem adds_alter {change : Update Assignment} {added : Addition} (hid : id < tree.size)
    (hhas : ∀ k value, (change (tree.content id)).1.has k value = true ↔
      (tree.content id).has k value = true ∨ ⟨k, value⟩ ∈ added.facts)
    (hmarks : ∀ k, (change (tree.content id)).1.isDecomposed k = true ↔
      (tree.content id).isDecomposed k = true ∨ k ∈ added.marks)
    (hterms : ∀ k term, term ∈ (change (tree.content id)).1.instancesOf k ↔
      term ∈ (tree.content id).instancesOf k ∨ (k, term) ∈ added.terms) :
    Adds tree id added (alter id change tree).1 where
  size := size_alter id change tree
  lineage m := (List.cons.inj (ancestry_alter id m change tree)).2
  children m := children_alter id m change tree
  node_of_ne _ hne := node_alter_of_ne hne
  has m k value := by
    rw [has_branch, has_branch]
    exact exists_content_alter hid (fun a => a.has k value = true) (hhas k value)
  isDecomposed m k := by
    rw [isDecomposed_branch, isDecomposed_branch]
    exact exists_content_alter hid (fun a => a.isDecomposed k = true) (hmarks k)
  mem_instancesOf m k term := by
    rw [mem_instancesOf_branch, mem_instancesOf_branch]
    exact exists_content_alter hid (fun a => term ∈ a.instancesOf k) (hterms k term)

section Changes

variable (hcoh : tree.Coherent) (hid : id < tree.size)
include hcoh hid

theorem adds_set (k : Key) (value : Bool) (number : Nat) :
    Adds tree id { facts := [⟨k, value⟩] } (set id k value number tree).1 := by
  unfold set
  split
  · next h => exact Adds.of_present hcoh (by simp [h]) (by simp) (by simp)
  · exact adds_alter hid (by simp) (by simp) (by simp)

theorem adds_decompose (k : Key) :
    Adds tree id { marks := [k] } (decompose id k tree).1 := by
  unfold decompose
  split
  · next h => exact Adds.of_present hcoh (by simp) (by simp [h]) (by simp)
  · exact adds_alter hid (by simp) (by simp) (by simp)

theorem adds_instantiate (k : Key) (term : Sentence) :
    Adds tree id { terms := [(k, term)] } (instantiate id k term tree).1 := by
  unfold instantiate
  split
  · next h => exact Adds.of_present hcoh (by simp) (by simp) (by simpa using h)
  · exact adds_alter hid (by simp) (by simp) (by simp)

end Changes

/-- Changes one after the other add what each of them adds. -/
theorem adds_each {α : Type} {change : α → Update Tree} (added : α → Addition)
    (hadds : ∀ x tree, tree.Coherent → id < tree.size →
      Adds tree id (added x) (change x tree).1)
    (hcoh : tree.Coherent) (hid : id < tree.size) (xs : List α) :
    Adds tree id
      ⟨xs.flatMap fun x => (added x).facts, xs.flatMap fun x => (added x).marks,
        xs.flatMap fun x => (added x).terms⟩
      (Update.each change xs tree).1 := by
  induction xs generalizing tree with
  | nil => exact Adds.of_present hcoh (by simp) (by simp) (by simp)
  | cons x xs ih =>
      have hfirst := hadds x tree hcoh hid
      have hrest := ih (hfirst.coherent hcoh) (by rwa [hfirst.size])
      exact hfirst.trans hrest

/-- Remembering terms adds these terms. -/
theorem adds_each_instantiate (hcoh : tree.Coherent) (hid : id < tree.size) (k : Key)
    (terms : List Sentence) :
    Adds tree id { terms := terms.map (k, ·) } (Update.each (instantiate id k) terms tree).1 := by
  refine (adds_each (fun term => { terms := [(k, term)] }) ?_ hcoh hid terms).congr ?_ ?_ ?_
  · intro term tree hcoh hid
    exact adds_instantiate hcoh hid k term
  · simp
  · simp
  · simp [eq_comm]

/-- Merging an assignment adds all that it has. -/
theorem adds_merge (hcoh : tree.Coherent) (hid : id < tree.size) (other : Assignment) :
    Adds tree id ⟨other.facts, other.decomposed, other.terms⟩ (merge id other tree).1 := by
  have hfacts := adds_each (fun fact => { facts := [fact] })
    (fun fact _ hcoh hid => adds_set hcoh hid fact.key fact.value
      ((other.justification fact.key fact.value).getD 0)) hcoh hid other.facts
  have hmarks := adds_each (fun k => { marks := [k] })
    (fun k _ hcoh hid => adds_decompose hcoh hid k) (hfacts.coherent hcoh) (hfacts.size ▸ hid)
    other.decomposed
  have hboth := hfacts.trans hmarks
  have hterms := adds_each (fun entry => { terms := entry.2.map (entry.1, ·) })
    (fun entry _ hcoh hid => adds_each_instantiate hcoh hid entry.1 entry.2) (hboth.coherent hcoh)
    (hboth.size ▸ hid) other.instances.toList
  exact (hboth.trans hterms).congr (by simp) (by simp) (by simp [Assignment.terms])

/-- Merging the assignment of some facts adds these facts. -/
theorem adds_merge_ofFacts (hcoh : tree.Coherent) (hid : id < tree.size) (facts : List Fact)
    (number : Nat) :
    Adds tree id { facts } (merge id (Assignment.ofFacts facts number) tree).1 :=
  (adds_merge hcoh hid (Assignment.ofFacts facts number)).congr (by simp) (by simp) (by simp)

/-! New nodes. -/

/-- The new node below a leaf with some content. -/
def newNode (tree : Tree) (leaf : NodeId) (content : Assignment) : Node :=
  { lineage := tree.ancestry leaf, content }

/-- One tree is the other with new nodes below some leaves, one for each content
and numbered in order. -/
structure Grafts (tree : Tree) (leaves : List NodeId) (contents : List Assignment) (tree' : Tree)
    (created : List NodeId) : Prop where
  size : tree'.size = tree.size + leaves.length * contents.length
  created_eq : created = List.range' tree.size (leaves.length * contents.length)
  lineage : ∀ m < tree.size, tree'.lineage m = tree.lineage m
  content : ∀ m < tree.size, tree'.content m = tree.content m
  children : ∀ m < tree.size, m ∉ leaves → tree'.children m = tree.children m
  nodes : created.map tree'.node =
    leaves.flatMap fun leaf => contents.map (tree.newNode leaf)
  coherent : tree.Coherent → tree'.Coherent

theorem toList_addChildren {contents : List Assignment} :
    (tree.addChildren id contents).1.nodes.toList =
      tree.nodes.toList.modify id (fun node =>
          { node with children := node.children ++ List.range' tree.size contents.length }) ++
        contents.map (tree.newNode id) := by
  simp only [addChildren, Array.appendList_eq_append, Array.toList_appendList, Array.toList_modify]
  rfl

theorem node_addChildren_of_lt {contents : List Assignment} (hm : m < tree.size) :
    (tree.addChildren id contents).1.node m =
      if m = id then
        { tree.node m with
          children := tree.children m ++ List.range' tree.size contents.length }
      else tree.node m := by
  unfold node children
  rw [← Array.getElem?_toList, toList_addChildren]
  rw [List.getElem?_append_left (by simpa [size] using hm), List.getElem?_modify]
  unfold size at hm
  by_cases h : m = id
  · subst h
    simp [node, hm]
  · simp [h, Ne.symm h]

theorem node_addChildren_new {contents : List Assignment} {i : Nat} (hi : i < contents.length) :
    (tree.addChildren id contents).1.node (tree.size + i) = tree.newNode id contents[i] := by
  unfold node
  rw [← Array.getElem?_toList, toList_addChildren, List.getElem?_append_right (by simp [size])]
  simp [size, hi]

@[simp]
theorem size_addChildren {contents : List Assignment} :
    (tree.addChildren id contents).1.size = tree.size + contents.length := by
  unfold size
  rw [← Array.length_toList, toList_addChildren]
  simp

theorem lineage_addChildren_of_lt {contents : List Assignment} (hm : m < tree.size) :
    (tree.addChildren id contents).1.lineage m = tree.lineage m := by
  unfold lineage
  rw [node_addChildren_of_lt hm]
  split <;> rfl

theorem content_addChildren_of_lt {contents : List Assignment} (hm : m < tree.size) :
    (tree.addChildren id contents).1.content m = tree.content m := by
  unfold content
  rw [node_addChildren_of_lt hm]
  split <;> rfl

theorem children_addChildren_of_lt {contents : List Assignment} (hm : m < tree.size) :
    (tree.addChildren id contents).1.children m =
      tree.children m ++ if m = id then List.range' tree.size contents.length else [] := by
  unfold children
  rw [node_addChildren_of_lt hm]
  split <;> simp [children]

/-- New nodes have no children yet. -/
theorem children_addChildren_of_le {contents : List Assignment} (hm : tree.size ≤ m) :
    (tree.addChildren id contents).1.children m = [] := by
  rcases Nat.lt_or_ge m (tree.size + contents.length) with hlt | hge
  · obtain ⟨i, rfl⟩ := Nat.exists_eq_add_of_le hm
    rw [children, node_addChildren_new (Nat.lt_of_add_lt_add_left hlt)]
    rfl
  · rw [children, node_eq_of_size_le (size_addChildren ▸ hge)]

/-- A node of the extended tree is an old one, a new one, or none at all. -/
theorem lineage_addChildren_cases (id : NodeId) (contents : List Assignment) (m : NodeId) :
    m < tree.size ∨
      (tree.size ≤ m ∧ m < tree.size + contents.length ∧
        (tree.addChildren id contents).1.lineage m = id :: tree.lineage id) ∨
      (tree.size + contents.length ≤ m ∧ (tree.addChildren id contents).1.lineage m = []) := by
  rcases Nat.lt_or_ge m tree.size with hold | hge
  · exact Or.inl hold
  · refine Or.inr ?_
    rcases Nat.lt_or_ge m (tree.size + contents.length) with hnew | hnone
    · refine Or.inl ⟨hge, hnew, ?_⟩
      obtain ⟨i, rfl⟩ := Nat.exists_eq_add_of_le hge
      have hi : i < contents.length := by omega
      unfold lineage
      rw [node_addChildren_new hi]
      rfl
    · refine Or.inr ⟨hnone, ?_⟩
      unfold lineage
      rw [node_eq_of_size_le (by simpa using hnone)]

theorem Coherent.addChildren (hcoh : tree.Coherent) (hid : id < tree.size)
    (contents : List Assignment) : (tree.addChildren id contents).1.Coherent where
  ancestral m := by
    rcases lineage_addChildren_cases id contents m with hold | ⟨hge, -, hnew⟩ | ⟨-, hnone⟩
    · rw [lineage_addChildren_of_lt hold]
      rcases hcoh.ancestral m with hnil | ⟨parent, hlt, hcons⟩
      · exact Or.inl hnil
      · refine Or.inr ⟨parent, hlt, ?_⟩
        rw [lineage_addChildren_of_lt (Nat.lt_trans hlt hold)]
        exact hcons
    · refine Or.inr ⟨id, Nat.lt_of_lt_of_le hid hge, ?_⟩
      rw [hnew, lineage_addChildren_of_lt hid]
    · exact Or.inl hnone
  lists_child m parent hparent := by
    rcases lineage_addChildren_cases id contents m with
      hold | ⟨hge, hlt, hnew⟩ | ⟨-, hnone⟩
    · rw [lineage_addChildren_of_lt hold] at hparent
      have hmem : parent ∈ tree.lineage m := List.mem_of_head? hparent
      have hlt := hcoh.ancestral.lt_of_mem hmem
      rw [children_addChildren_of_lt (Nat.lt_trans hlt hold)]
      exact List.mem_append_left _ (hcoh.lists_child m parent hparent)
    · rw [hnew] at hparent
      obtain rfl : id = parent := by simpa using hparent
      rw [children_addChildren_of_lt hid]
      apply List.mem_append_right
      simp [List.mem_range'_1, hge, hlt]
    · simp [hnone] at hparent
  rooted m hm hnil := by
    rcases lineage_addChildren_cases id contents m with hold | ⟨-, -, hnew⟩ | ⟨hnone, -⟩
    · rw [lineage_addChildren_of_lt hold] at hnil
      exact hcoh.rooted m hold hnil
    · simp [hnew] at hnil
    · simp only [size_addChildren] at hm
      omega

namespace Grafts

variable {leaves created : List NodeId} {contents : List Assignment}

theorem ancestry (h : Grafts tree leaves contents tree' created) (hm : m < tree.size) :
    tree'.ancestry m = tree.ancestry m :=
  congrArg (m :: ·) (h.lineage m hm)

/-- An old node that is no leaf of the graft stays as it is. -/
theorem node_of_not_mem (h : Grafts tree leaves contents tree' created) (hm : m < tree.size)
    (hleaf : m ∉ leaves) : tree'.node m = tree.node m := by
  apply Node.ext
  · exact h.lineage m hm
  · exact h.children m hm hleaf
  · exact h.content m hm

/-- The new nodes are those that were not there before. -/
theorem mem_created_iff (h : Grafts tree leaves contents tree' created) :
    m ∈ created ↔ tree.size ≤ m ∧ m < tree'.size := by
  rw [h.created_eq, List.mem_range'_1, h.size]

/-- Every new node has a leaf above it and one of the contents. -/
theorem exists_of_mem_created (h : Grafts tree leaves contents tree' created)
    (hm : m ∈ created) :
    ∃ leaf ∈ leaves, ∃ content ∈ contents, tree'.node m = tree.newNode leaf content := by
  have hnode : tree'.node m ∈ created.map tree'.node := List.mem_map_of_mem hm
  rw [h.nodes] at hnode
  simp only [List.mem_flatMap, List.mem_map] at hnode
  obtain ⟨leaf, hleaf, content, hcontent, heq⟩ := hnode
  exact ⟨leaf, hleaf, content, hcontent, heq.symm⟩

/-- Every content is found below every leaf. -/
theorem exists_created (h : Grafts tree leaves contents tree' created) {leaf : NodeId}
    (hleaf : leaf ∈ leaves) {content : Assignment} (hcontent : content ∈ contents) :
    ∃ m ∈ created, tree'.node m = tree.newNode leaf content := by
  have hnode : tree.newNode leaf content ∈ created.map tree'.node := by
    rw [h.nodes]
    exact List.mem_flatMap.mpr ⟨leaf, hleaf, List.mem_map_of_mem hcontent⟩
  exact List.mem_map.mp hnode

/-- The branches of old nodes stay as they are. -/
theorem branch_of_lt (h : Grafts tree leaves contents tree' created) (hcoh : tree.Coherent)
    (hm : m < tree.size) : tree'.branch m = tree.branch m := by
  unfold branch
  rw [h.ancestry hm]
  apply List.map_congr_left
  intro n hn
  exact h.content n (Nat.lt_of_le_of_lt (hcoh.le_of_mem_ancestry hn) hm)

/-- The branch of a new node is that of its leaf with the new content. -/
theorem branch_of_node_eq (h : Grafts tree leaves contents tree' created) (hcoh : tree.Coherent)
    {leaf : NodeId} (hleaf : leaf < tree.size) {content : Assignment}
    (hnode : tree'.node m = tree.newNode leaf content) :
    tree'.ancestry m = m :: tree.ancestry leaf ∧ tree'.branch m = content :: tree.branch leaf := by
  have hlineage : tree'.ancestry m = m :: tree.ancestry leaf := by
    unfold Tree.ancestry
    rw [hnode]
    rfl
  have hcontent : tree'.content m = content := by
    unfold Tree.content
    rw [hnode]
    rfl
  refine ⟨hlineage, ?_⟩
  unfold branch
  rw [hlineage, List.map_cons, hcontent]
  congr 1
  apply List.map_congr_left
  intro n hn
  exact h.content n (Nat.lt_of_le_of_lt (hcoh.le_of_mem_ancestry hn) hleaf)

/-- Every branch is an old one, or an old one with new content, or there is no such
node. -/
theorem branch_cases (h : Grafts tree leaves contents tree' created) (hcoh : tree.Coherent)
    (hleaves : ∀ leaf ∈ leaves, leaf < tree.size) (m : NodeId) :
    (m < tree.size ∧ tree'.branch m = tree.branch m) ∨
      (∃ leaf ∈ leaves, ∃ content ∈ contents, tree'.branch m = content :: tree.branch leaf) ∨
      tree'.branch m = [{}] := by
  rcases Nat.lt_or_ge m tree.size with hold | hge
  · exact Or.inl ⟨hold, h.branch_of_lt hcoh hold⟩
  · refine Or.inr ?_
    rcases Nat.lt_or_ge m tree'.size with hnew | hnone
    · obtain ⟨leaf, hleaf, content, hcontent, hnode⟩ :=
        h.exists_of_mem_created (h.mem_created_iff.mpr ⟨hge, hnew⟩)
      exact Or.inl ⟨leaf, hleaf, content, hcontent,
        (h.branch_of_node_eq hcoh (hleaves leaf hleaf) hnode).2⟩
    · exact Or.inr (branch_eq_of_size_le hnone)

theorem growsTo (h : Grafts tree leaves contents tree' created) (hcoh : tree.Coherent) :
    tree.GrowsTo tree' where
  size_le := by
    rw [h.size]
    exact Nat.le_add_right ..
  ancestry _ hm := h.ancestry hm
  has m hm k value hold := by rwa [h.branch_of_lt hcoh hm]
  isDecomposed m hm k hold := by rwa [h.branch_of_lt hcoh hm]
  instancesOf m hm k term hold := by rwa [h.branch_of_lt hcoh hm]

theorem size_le_of_mem_created (h : Grafts tree leaves contents tree' created)
    (hm : m ∈ created) : tree.size ≤ m ∧ m < tree'.size :=
  h.mem_created_iff.mp hm

theorem nil (tree : Tree) (contents : List Assignment) : Grafts tree [] contents tree [] where
  size := by simp
  created_eq := by simp
  lineage _ _ := rfl
  content _ _ := rfl
  children _ _ _ := rfl
  nodes := rfl
  coherent := fun hcoh => hcoh

/-- New nodes below one leaf, and then below the others. -/
theorem cons {leaf : NodeId} (hleaves : ∀ m ∈ leaf :: leaves, m < tree.size)
    (h : Grafts (tree.addChildren leaf contents).1 leaves contents tree' created) :
    Grafts tree (leaf :: leaves) contents tree'
      ((tree.addChildren leaf contents).2 ++ created) := by
  have hleaf : leaf < tree.size := hleaves leaf List.mem_cons_self
  have hold : ∀ m ∈ leaves, m < tree.size :=
    fun m hm => hleaves m (List.mem_cons_of_mem leaf hm)
  have hlt : ∀ m < tree.size, m < (tree.addChildren leaf contents).1.size := fun m hm => by
    rw [size_addChildren]
    exact Nat.lt_add_right _ hm
  refine ⟨?_, ?_, ?_, ?_, ?_, ?_, ?_⟩
  · rw [h.size, size_addChildren, List.length_cons, Nat.succ_mul]
    omega
  · rw [h.created_eq, size_addChildren, List.length_cons, Nat.succ_mul, Nat.add_comm (_ * _)]
    exact List.range'_append_1
  · intro m hm
    exact (h.lineage m (hlt m hm)).trans (lineage_addChildren_of_lt hm)
  · intro m hm
    exact (h.content m (hlt m hm)).trans (content_addChildren_of_lt hm)
  · intro m hm hmem
    have hne : m ≠ leaf := fun heq => hmem (heq ▸ List.mem_cons_self)
    have hnot : m ∉ leaves := fun h => hmem (List.mem_cons_of_mem leaf h)
    rw [h.children m (hlt m hm) hnot, children_addChildren_of_lt hm]
    simp [hne]
  · rw [List.map_append, List.flatMap_cons, h.nodes]
    congr 1
    · -- the nodes below the first leaf are not touched any more
      apply List.ext_getElem
      · simp [addChildren]
      · intro i hi hi'
        have hi : i < contents.length := by simpa using hi'
        simp only [List.getElem_map, addChildren, List.getElem_range', Nat.one_mul]
        rw [h.node_of_not_mem
          (by rw [size_addChildren]; exact Nat.add_lt_add_left hi _)
          fun hmem => Nat.not_lt.mpr (Nat.le_add_right ..) (hold _ hmem)]
        exact node_addChildren_new hi
    · rw [List.flatMap_def, List.flatMap_def]
      refine congrArg List.flatten (List.map_congr_left fun m hm => ?_)
      apply List.map_congr_left
      intro content _
      unfold newNode Tree.ancestry
      change ({ lineage := m :: (tree.addChildren leaf contents).1.lineage m, content } : Node) = _
      rw [lineage_addChildren_of_lt (hold m hm)]
      rfl
  · intro hcoh
    exact h.coherent (hcoh.addChildren hleaf contents)

end Grafts

end Tree

namespace Inference

/-- Splitting grafts the alternatives below every leaf. -/
theorem grafts_split (inf : Inference) (alternatives : List Outcome) (tree : Tree)
    {leaves : List NodeId} (hleaves : ∀ leaf ∈ leaves, leaf < tree.size) :
    tree.Grafts leaves (alternatives.map fun facts => Assignment.ofFacts facts inf.number)
      (inf.split alternatives tree leaves).1 (inf.split alternatives tree leaves).2 := by
  induction leaves generalizing tree with
  | nil => exact .nil tree _
  | cons leaf leaves ih =>
      refine .cons hleaves (ih _ fun m hm => ?_)
      rw [Tree.size_addChildren]
      exact Nat.lt_add_right _ (hleaves m (List.mem_cons_of_mem leaf hm))

end Inference

end Tableau
