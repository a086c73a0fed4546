/-
A search only adds.  Nodes keep their places, facts the numbers of the inferences that they are
due to, and marks and instances stay.  All this is added at open leaves, so a node that is not
open any more, having been split or closed, is left as it is for good.
-/
import Tableau.Proofs.Resemblance
import Tableau.Proofs.Search.Advance

namespace Tableau

/-- One assignment has all that the other one has: the same values by the same inferences, the
same marks, and the same instances in the same order, before others. -/
structure Assignment.GrowsTo (a b : Assignment) : Prop where
  justification : ∀ k value number, a.justification k value = some number →
    b.justification k value = some number
  isDecomposed : ∀ k, a.isDecomposed k = true → b.isDecomposed k = true
  instancesOf : ∀ k, a.instancesOf k <+: b.instancesOf k

namespace Assignment.GrowsTo

variable {a b c : Assignment}

theorem refl (a : Assignment) : a.GrowsTo a :=
  ⟨fun _ _ _ h => h, fun _ h => h, fun _ => List.prefix_rfl⟩

theorem trans (h : a.GrowsTo b) (h' : b.GrowsTo c) : a.GrowsTo c where
  justification k value number hold :=
    h'.justification k value number (h.justification k value number hold)
  isDecomposed k hold := h'.isDecomposed k (h.isDecomposed k hold)
  instancesOf k := (h.instancesOf k).trans (h'.instancesOf k)

theorem of_empty (a : Assignment) : ({} : Assignment).GrowsTo a := by
  constructor <;> simp

theorem set (k : Key) (value : Bool) (number : Nat) (a : Assignment) :
    a.GrowsTo (set k value number a).1 where
  justification other v first hfirst := by rw [justification_set, hfirst, Option.some_or]
  isDecomposed other hmark := by rw [isDecomposed_set, hmark]
  instancesOf other := List.prefix_rfl

theorem decompose (k : Key) (a : Assignment) : a.GrowsTo (decompose k a).1 where
  justification other v first hfirst := by rw [justification_decompose, hfirst]
  isDecomposed other hmark := isDecomposed_decompose.mpr (Or.inl hmark)
  instancesOf other := List.prefix_rfl

theorem instantiate (k : Key) (term : Sentence) (a : Assignment) :
    a.GrowsTo (instantiate k term a).1 where
  justification other v first hfirst := by rw [justification_instantiate, hfirst]
  isDecomposed other hmark := by rw [isDecomposed_instantiate, hmark]
  instancesOf other := by
    rw [instancesOf_instantiate]
    split
    · exact List.prefix_append ..
    · exact List.prefix_rfl

end Assignment.GrowsTo

/-- All nodes of one tree have what they have in the other one. -/
def Tree.IsKeptBy (tree tree' : Tree) : Prop :=
  ∀ id, (tree.content id).GrowsTo (tree'.content id)

namespace Tree.IsKeptBy

variable {tree tree' tree'' : Tree}

theorem refl (tree : Tree) : tree.IsKeptBy tree := fun _ => .refl _

theorem trans (h : tree.IsKeptBy tree') (h' : tree'.IsKeptBy tree'') : tree.IsKeptBy tree'' :=
  fun id => (h id).trans (h' id)

theorem alter {change : Update Assignment} (hchange : ∀ a : Assignment, a.GrowsTo (change a).1)
    (id : NodeId) (tree : Tree) : tree.IsKeptBy (alter id change tree).1 := by
  intro m
  rw [content, content, node_alter]
  split
  · next hm =>
      rw [hm.1]
      exact hchange (tree.content id)
  · exact .refl _

theorem set (id : NodeId) (k : Key) (value : Bool) (number : Nat) (tree : Tree) :
    tree.IsKeptBy (set id k value number tree).1 := by
  rw [Tree.set]
  split
  · exact .refl tree
  · exact .alter (.set k value number) id tree

theorem decompose (id : NodeId) (k : Key) (tree : Tree) :
    tree.IsKeptBy (decompose id k tree).1 := by
  rw [Tree.decompose]
  split
  · exact .refl tree
  · exact .alter (.decompose k) id tree

theorem instantiate (id : NodeId) (k : Key) (term : Sentence) (tree : Tree) :
    tree.IsKeptBy (instantiate id k term tree).1 := by
  rw [Tree.instantiate]
  split
  · exact .refl tree
  · exact .alter (.instantiate k term) id tree

/-- Changes one after the other. -/
theorem each {α : Type} {change : α → Update Tree}
    (hchange : ∀ x (tree : Tree), tree.IsKeptBy (change x tree).1) (xs : List α) (tree : Tree) :
    tree.IsKeptBy (Update.each change xs tree).1 :=
  Update.each_preserves tree.IsKeptBy (fun x tree' h => h.trans (hchange x tree')) (.refl tree) xs

theorem merge (id : NodeId) (other : Assignment) (tree : Tree) :
    tree.IsKeptBy (merge id other tree).1 := by
  refine (IsKeptBy.each ?facts other.facts tree).trans <|
    (IsKeptBy.each ?marks other.decomposed _).trans
      (IsKeptBy.each ?instances other.instances.toList _)
  case facts => exact fun fact => .set id fact.key fact.value _
  case marks => exact .decompose id
  case instances => exact fun entry => .each (.instantiate id entry.1) entry.2

theorem addChildren (id : NodeId) (contents : List Assignment) (tree : Tree) :
    tree.IsKeptBy (tree.addChildren id contents).1 := by
  intro m
  rcases Nat.lt_or_ge m tree.size with hold | hnew
  · rw [content_addChildren_of_lt hold]
    exact .refl _
  · rw [content, node_eq_of_size_le hnew]
    exact .of_empty _

end Tree.IsKeptBy

namespace Inference

theorem isKeptBy_split (inf : Inference) (alternatives : List Outcome) (leaves : List NodeId)
    (tree : Tree) : tree.IsKeptBy (inf.split alternatives tree leaves).1 := by
  induction leaves generalizing tree with
  | nil => exact .refl tree
  | cons leaf leaves ih => exact (Tree.IsKeptBy.addChildren leaf _ tree).trans (ih _)

/-- An inference takes nothing away. -/
theorem isKeptBy_apply (inf : Inference) (leaves : List NodeId) (tree : Tree) :
    tree.IsKeptBy (inf.apply tree leaves).1 := by
  have hfacts : ∀ facts, tree.IsKeptBy (inf.mergeFacts facts tree).1 :=
    fun facts => .merge inf.node (Assignment.ofFacts facts inf.number) tree
  have hmark : ∀ tree : Tree, tree.IsKeptBy (inf.decomposeOrigin tree).1 :=
    .decompose inf.node inf.origin
  rw [apply]
  split
  · exact (hfacts _).trans (hmark _)
  · exact (hfacts _).trans (.each (.instantiate inf.node inf.origin) _ _)
  · exact (hfacts _).trans (hmark _)
  · exact (hmark tree).trans (inf.isKeptBy_split _ leaves _)
  · exact (hmark tree).trans (inf.isKeptBy_split _ leaves _)
  · exact .refl tree

end Inference

namespace Prover

variable {p q r : Prover}

/-- What is there at one point of a search and at a later one.  The nodes that are not open are
the same, and are not opened again. -/
structure Persists (p q : Prover) : Prop where
  size_le : p.tree.size ≤ q.tree.size
  lineage : ∀ id < p.tree.size, q.tree.lineage id = p.tree.lineage id
  content : p.tree.IsKeptBy q.tree
  node : ∀ id < p.tree.size, id ∉ p.openLeaves → q.tree.node id = p.tree.node id
  not_open : ∀ id < p.tree.size, id ∉ p.openLeaves → id ∉ q.openLeaves

namespace Persists

theorem refl (p : Prover) : p.Persists p :=
  ⟨Nat.le_refl _, fun _ _ => rfl, .refl _, fun _ _ _ => rfl, fun _ _ h => h⟩

theorem trans (h : p.Persists q) (h' : q.Persists r) : p.Persists r where
  size_le := Nat.le_trans h.size_le h'.size_le
  lineage id hid := (h'.lineage id (Nat.lt_of_lt_of_le hid h.size_le)).trans (h.lineage id hid)
  content := h.content.trans h'.content
  node id hid hclosed :=
    (h'.node id (Nat.lt_of_lt_of_le hid h.size_le) (h.not_open id hid hclosed)).trans
      (h.node id hid hclosed)
  not_open id hid hclosed :=
    h'.not_open id (Nat.lt_of_lt_of_le hid h.size_le) (h.not_open id hid hclosed)

/-- Where the tree stays the same, leaves may be closed. -/
theorem of_tree_eq (htree : q.tree = p.tree) (hopen : q.openLeaves ⊆ p.openLeaves) :
    p.Persists q where
  size_le := Nat.le_of_eq (htree ▸ rfl)
  lineage _ _ := htree ▸ rfl
  content := htree ▸ .refl _
  node _ _ _ := htree ▸ rfl
  not_open _ _ hclosed hid := hclosed (hopen hid)

/-- Something is added at an open leaf. -/
theorem of_adds {leaf : NodeId} {added : Addition} (hleaf : leaf ∈ p.openLeaves)
    (hadds : p.tree.Adds leaf added q.tree) (hkept : p.tree.IsKeptBy q.tree)
    (hopen : q.openLeaves = p.openLeaves) : p.Persists q where
  size_le := Nat.le_of_eq hadds.size.symm
  lineage id _ := hadds.lineage id
  content := hkept
  node id _ hclosed := hadds.node_of_ne id fun heq => hclosed (heq ▸ hleaf)
  not_open _ _ hclosed := hopen ▸ hclosed

end Persists

/-- One step adds at open leaves, closes some, or puts others in their place. -/
theorem Advance.persists (h : Advance p q) (hp : p.Coherent) : p.Persists q := by
  cases h with
  | noted _ htree hopen | pruned _ htree hopen => exact .of_tree_eq htree (hopen ▸ fun _ h => h)
  | closed leaf _ _ _ _ htree hopen => exact .of_tree_eq htree (hopen ▸ List.filter_sublist.subset)
  | performed leaf k value inf hleaf hfires _ hsplit htree hopen =>
      exact .of_adds hleaf (hp.adds_of_performed hleaf hfires hsplit htree)
        (htree ▸ inf.isKeptBy_apply [] p.tree) hopen
  | deferred leaf k value inf hleaf hfires _ _ htree hopen =>
      exact .of_adds hleaf (hp.adds_of_deferred hleaf hfires htree)
        (htree ▸ .decompose inf.node inf.origin p.tree) hopen
  | expanded inf _ _ hperm _ _ htree hopen =>
      have hgrafts := hp.grafts_of_expanded (hperm.mem_iff.mpr List.mem_cons_self) htree
      constructor
      · exact hgrafts.size ▸ Nat.le_add_right ..
      · exact hgrafts.lineage
      · exact htree ▸ inf.isKeptBy_apply _ p.tree
      · exact fun id hid hclosed => hgrafts.node_of_not_mem hid fun hbelow =>
          hclosed (List.mem_filter.mp hbelow).1
      · intro id hid hclosed
        rw [hopen, List.mem_append]
        rintro (helsewhere | hnew)
        · exact hclosed (List.mem_filter.mp helsewhere).1
        · exact Nat.not_lt_of_ge (hgrafts.size_le_of_mem_created hnew).1 hid

theorem Advances.persists (h : Advances p q) (hp : p.Coherent) : p.Persists q :=
  (h.preserves (fun _ _ hq hpersists hadvance => hpersists.trans (hadvance.persists hq)) hp
    (.refl p)).2

/-- A search is monotone.  At any later point, all nodes are there with the same parents, and
they have all facts by the same inferences, all marks and all instances.  A node that is not open
is the same ever after, its children included, and it is not opened again. -/
theorem Reaches.only_adds {lexicon : Lexicon} {premises goals : List Sentence} {options : Options}
    {s t : Search} (hs : (start lexicon premises goals options).Reaches s) (h : s.Proceeds t) :
    s.prover.tree.size ≤ t.prover.tree.size ∧ ∀ id < s.prover.tree.size,
      (t.prover.tree.node id).parent? = (s.prover.tree.node id).parent? ∧
      (∀ k value number, (s.prover.tree.content id).justification k value = some number →
        (t.prover.tree.content id).justification k value = some number) ∧
      (∀ k, (s.prover.tree.content id).isDecomposed k = true →
        (t.prover.tree.content id).isDecomposed k = true) ∧
      (∀ k, (s.prover.tree.content id).instancesOf k <+: (t.prover.tree.content id).instancesOf k) ∧
      (id ∉ s.prover.openLeaves →
        t.prover.tree.node id = s.prover.tree.node id ∧ id ∉ t.prover.openLeaves) := by
  have hpersists := (h.advances hs).persists hs.coherent
  refine ⟨hpersists.size_le, fun id hid => ?_⟩
  have hkept := hpersists.content id
  refine ⟨?_, hkept.justification, hkept.isDecomposed, hkept.instancesOf, fun hclosed => ?_⟩
  · exact congrArg List.head? (hpersists.lineage id hid)
  · exact ⟨hpersists.node id hid hclosed, hpersists.not_open id hid hclosed⟩

/-- A universal sentence with a function in its body is instantiated for one term after the
other at the only leaf that is open.  The root, which has been split, and the leaf that has been
closed stay as they are. -/
theorem only_adds_beside_closed_leaf :
    let text := "(premises (forall x (P (f x))) (P a) (or A B) (not A))"
    let x : Sentence := .var "x" SortId.object
    let f (term : Sentence) : Sentence := .app "f" SortId.object [term]
    let P (term : Sentence) : Sentence := .pred "P" [term]
    let a : Sentence := .const "a" SortId.object
    let every : Sentence := .all x (P (f x))
    ∃ problem lexicon', Problem.read {} text = (.ok problem, lexicon') ∧
      let p := start lexicon' problem.premises problem.goals {}
      let s := p.after 13
      let t := p.after 17
      s.prover.openLeaves = [2] ∧ s.prover.tree.size = 3 ∧
        t.prover.tree.node 0 = s.prover.tree.node 0 ∧
        t.prover.tree.node 1 = s.prover.tree.node 1 ∧
        (s.prover.tree.content 2).justification (P (f (f a))) true = some 5 ∧
        (t.prover.tree.content 2).justification (P (f (f a))) true = some 5 ∧
        (s.prover.tree.content 2).instancesOf every = [f a] ∧
        (t.prover.tree.content 2).instancesOf every = [f a, f (f a)] := by
  intro text x f P a every
  obtain ⟨problem, lexicon', hread, htest⟩ := Problem.exists_read_of_any {} text
    (fun problem lexicon' =>
      let p := start lexicon' problem.premises problem.goals {}
      let s := p.after 13
      decide (s.prover.openLeaves = [2] ∧ s.prover.tree.size = 3 ∧
        (s.prover.tree.content 2).justification (P (f (f a))) true = some 5 ∧
        (s.prover.tree.content 2).instancesOf every = [f a] ∧
        ((p.after 17).prover.tree.content 2).instancesOf every = [f a, f (f a)]))
    (by decide +kernel)
  refine ⟨problem, lexicon', hread, ?_⟩
  intro p s t
  obtain ⟨hopen, hsize, hnumber, hbefore, hafter⟩ := of_decide_eq_true htest
  have hlater : s.Proceeds t := proceeds_after p 13 4
  obtain ⟨-, hnodes⟩ := (reaches_after p 13).only_adds hlater
  rw [hopen, hsize] at hnodes
  obtain ⟨-, -, -, -, hroot⟩ := hnodes 0 (by decide)
  obtain ⟨-, -, -, -, hclosed⟩ := hnodes 1 (by decide)
  obtain ⟨-, hfacts, -⟩ := hnodes 2 (by decide)
  exact ⟨hopen, hsize, (hroot (by decide)).1, (hclosed (by decide)).1, hnumber,
    hfacts _ true 5 hnumber, hbefore, hafter⟩

end Prover

end Tableau
