/-
The tree of assignments that a proof builds.  Nodes are numbered in the order of
their creation, and a node implicitly holds all that its ancestors hold.
-/
import Tableau.Branch

namespace Tableau

/-- The position of a node in the order of creation. -/
abbrev NodeId := Nat

/-- The root of every tree. -/
def NodeId.root : NodeId := 0

def NodeId.render (id : NodeId) : String := "#" ++ toString id

structure Node where
  /-- The proper ancestors, the parent first. -/
  lineage : List NodeId := []
  children : List NodeId := []
  content : Assignment := {}

def Node.parent? (node : Node) : Option NodeId := node.lineage.head?

structure Tree where
  nodes : Array Node

/-- A sentence with opposite values at two nodes of one branch. -/
structure Conflict where
  sentence : Sentence
  /-- The lower of the two nodes. -/
  node : NodeId
  against : NodeId

namespace Tree

/-- The tree with nothing but a root. -/
def ofRoot (content : Assignment) : Tree := ⟨#[{ content }]⟩

def size (tree : Tree) : Nat := tree.nodes.size

def node (tree : Tree) (id : NodeId) : Node := tree.nodes[id]?.getD {}

def content (tree : Tree) (id : NodeId) : Assignment := (tree.node id).content

def children (tree : Tree) (id : NodeId) : List NodeId := (tree.node id).children

/-- A node and its ancestors, the node itself first. -/
def ancestry (tree : Tree) (id : NodeId) : List NodeId := id :: (tree.node id).lineage

/-- The nodes from the root down to a node. -/
def path (tree : Tree) (id : NodeId) : List NodeId := (tree.ancestry id).reverse

/-- Whether a node is the other one or lies below it. -/
def isDescendant (tree : Tree) (id ancestor : NodeId) : Bool :=
  id == ancestor || (tree.node id).lineage.contains ancestor

def branch (tree : Tree) (id : NodeId) : Branch := (tree.ancestry id).map tree.content

/-- Whether a fact of the node itself contradicts a fact on its branch. -/
def clashes (tree : Tree) (id : NodeId) : Bool := (tree.branch id).clashes

/-- The first fact of the node itself, in the order of the lexicon, that
contradicts a fact on its branch, with the nearest node that holds the latter. -/
def conflict (lex : Lexicon) (tree : Tree) (id : NodeId) : Option Conflict :=
  (lex.arrange (tree.content id).facts).findSome? fun fact =>
    let against :=
      (tree.ancestry id).find? fun other => (tree.content other).has fact.key (!fact.value)
    against.map (⟨fact.sentence, id, ·⟩)

def isPathConsistent (tree : Tree) (id : NodeId) : Bool := (tree.branch id).isConsistent

/-- The first conflict on the way from the root to a node. -/
def pathConflict (lex : Lexicon) (tree : Tree) (id : NodeId) : Option Conflict :=
  if tree.isPathConsistent id then none
  else ((tree.path id).find? tree.clashes).bind (conflict lex tree)

/-- Whether some way down from a node ends without a conflict below it.  A tree
of `fuel` nodes has no longer way. -/
def isOpenBelow (tree : Tree) : (fuel : Nat) → NodeId → Bool
  | 0, _ => false
  | fuel + 1, id =>
      (tree.children id).isEmpty ||
        (tree.children id).any fun child => !tree.clashes child && tree.isOpenBelow fuel child

/-- Whether the branch of a node holds no conflict and can be continued to the
end without one. -/
def isConsistent (tree : Tree) (id : NodeId) : Bool :=
  tree.isPathConsistent id && tree.isOpenBelow tree.size id

/-- Adds to `found` the ends of all ways down from a node without a conflict
below it, depth first. -/
def collectLeaves (tree : Tree) : (fuel : Nat) → NodeId → (found : List NodeId) → List NodeId
  | 0, _, found => found
  | fuel + 1, id, found =>
      let found := if (tree.children id).isEmpty then found ++ [id] else found
      (tree.children id).foldl
        (fun found child =>
          if tree.clashes child then found else tree.collectLeaves fuel child found)
        found

/-- The ends of all branches through a node that hold no conflict. -/
def leaves (tree : Tree) (id : NodeId) : List NodeId :=
  if tree.isPathConsistent id then tree.collectLeaves tree.size id [] else []

/-- The ends of all ways down from a node without a conflict below it, those of
every child found on their own. -/
def leavesBelow (tree : Tree) : (fuel : Nat) → NodeId → List NodeId
  | 0, _ => []
  | fuel + 1, id =>
      if (tree.children id).isEmpty then
        [id]
      else
        ((tree.children id).filter fun child => !tree.clashes child).flatMap
          (tree.leavesBelow fuel)

/-- The same as `leaves`, with the children of a node treated independently. -/
def leavesByChild (tree : Tree) (id : NodeId) : List NodeId :=
  if tree.isPathConsistent id then tree.leavesBelow tree.size id else []

/-- Changes the assignment of one node. -/
def alter (id : NodeId) (change : Update Assignment) : Update Tree := fun tree =>
  let r := change (tree.content id)
  (⟨tree.nodes.modify id fun node => { node with content := r.1 }⟩, r.2)

/-- Gives a value to a sentence, unless the branch has it already. -/
def set (id : NodeId) (k : Key) (value : Bool) (number : Nat) : Update Tree := fun tree =>
  if (tree.branch id).has k value then
    (tree, false)
  else
    alter id (Assignment.set k value number) tree

/-- Marks a sentence as decomposed, unless it is so on the branch already. -/
def decompose (id : NodeId) (k : Key) : Update Tree := fun tree =>
  if (tree.branch id).isDecomposed k then
    (tree, false)
  else
    alter id (Assignment.decompose k) tree

/-- Remembers that a universal sentence has been instantiated for a term, unless
it is remembered on the branch already. -/
def instantiate (id : NodeId) (k : Key) (term : Sentence) : Update Tree := fun tree =>
  if ((tree.branch id).instancesOf k).contains term then
    (tree, false)
  else
    alter id (Assignment.instantiate k term) tree

/-- Adds what an assignment has, where nothing is there on the branch yet. -/
def merge (id : NodeId) (other : Assignment) : Update Tree :=
  let number (fact : Fact) := (other.justification fact.key fact.value).getD 0
  (Update.each (fun fact => set id fact.key fact.value (number fact)) other.facts).andThen <|
    (Update.each (decompose id) other.decomposed).andThen
      (Update.each (fun entry => Update.each (instantiate id entry.1) entry.2)
        other.instances.toList)

/-- Adds children to a node; they are numbered in the order given. -/
def addChildren (tree : Tree) (id : NodeId) (contents : List Assignment) : Tree × List NodeId :=
  let ids := List.range' tree.size contents.length
  let lineage := tree.ancestry id
  let nodes := tree.nodes.modify id fun node => { node with children := node.children ++ ids }
  let added := contents.map fun content => ({ lineage, content } : Node)
  (⟨nodes.appendList added⟩, ids)

@[simp]
theorem size_alter (id : NodeId) (change : Update Assignment) (tree : Tree) :
    (alter id change tree).1.size = tree.size := by
  simp [alter, size]

/-- A change to the assignment of a node leaves all nodes in their places. -/
@[simp]
theorem ancestry_alter (id other : NodeId) (change : Update Assignment) (tree : Tree) :
    (alter id change tree).1.ancestry other = tree.ancestry other := by
  simp only [alter, ancestry, node, Array.getElem?_modify]
  split <;> cases tree.nodes[other]? <;> simp

@[simp]
theorem children_alter (id other : NodeId) (change : Update Assignment) (tree : Tree) :
    (alter id change tree).1.children other = tree.children other := by
  simp only [alter, children, node, Array.getElem?_modify]
  split <;> cases tree.nodes[other]? <;> simp

theorem content_alter_self {id : NodeId} {change : Update Assignment} {tree : Tree}
    (h : id < tree.size) : (alter id change tree).1.content id = (change (tree.content id)).1 := by
  simp only [size] at h
  simp [alter, content, node, Array.getElem_modify, h]

theorem content_alter_of_ne {id other : NodeId} {change : Update Assignment} {tree : Tree}
    (h : other ≠ id) : (alter id change tree).1.content other = tree.content other := by
  simp [alter, content, node, Array.getElem?_modify, h.symm]

end Tree

end Tableau
