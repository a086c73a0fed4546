/-
Inferences: what firing a tableau rule at a node does to the tree.
-/
import Tableau.Tree

namespace Tableau

/-- The facts that hold together if one alternative of a rule is taken. -/
abbrev Outcome := List Fact

/-- The kind of an inference, with what it adds. -/
inductive Effect where
  /-- The facts follow. -/
  | decomposition (facts : Outcome)
  /-- One of the alternatives holds. -/
  | branch (alternatives : List Outcome)
  /-- The branch holds a contradiction, against a fact of the given node. -/
  | closure (conflict : NodeId)
  /-- A universal sentence holds for the given terms. -/
  | universal (binder : Sentence) (terms : List Sentence) (facts : Outcome)
  /-- An existential sentence holds for one of the given terms. -/
  | existential (binder : Sentence) (witnesses : List Sentence) (alternatives : List Outcome)
deriving DecidableEq

structure Inference where
  /-- Where the rule is fired. -/
  node : NodeId
  /-- The sentence whose rule it is. -/
  origin : Sentence
  number : Nat
  /-- The number of the inference that gave the origin its value, or 0. -/
  justification : Nat
  effect : Effect
deriving DecidableEq

namespace Inference

/-- The alternatives of an inference. -/
def outcomes (inf : Inference) : List Outcome :=
  match inf.effect with
  | .decomposition facts | .universal _ _ facts => [facts]
  | .branch alternatives | .existential _ _ alternatives => alternatives
  | .closure _ => []

/-- Whether the inference splits a branch. -/
def isBranching (inf : Inference) : Bool :=
  match inf.effect with
  | .branch _ => true
  | .existential _ _ alternatives => alternatives.length > 1
  | .decomposition _ | .universal .. | .closure _ => false

/-- Adds facts to the node of the inference. -/
def mergeFacts (inf : Inference) (facts : Outcome) : Update Tree :=
  Tree.merge inf.node (Assignment.ofFacts facts inf.number)

/-- Marks the origin as decomposed at the node of the inference. -/
def decomposeOrigin (inf : Inference) : Update Tree := Tree.decompose inf.node inf.origin

/-- Adds the alternatives as children to every one of the given leaves. -/
def split (inf : Inference) (alternatives : List Outcome) (tree : Tree) :
    (leaves : List NodeId) → Tree × List NodeId
  | [] => (tree, [])
  | leaf :: leaves =>
      let contents := alternatives.map fun facts => Assignment.ofFacts facts inf.number
      let added := tree.addChildren leaf contents
      let r := inf.split alternatives added.1 leaves
      (r.1, added.2 ++ r.2)

/-- A change at the node of the inference, with the nodes it has an effect on. -/
def inPlace (inf : Inference) (change : Update Tree) (tree : Tree) : Tree × List NodeId :=
  let r := change tree
  (r.1, if r.2 then [inf.node] else [])

/-- Performs an inference.  One that splits adds its alternatives below the given
leaves and yields the new nodes; any other changes its own node and yields it if
that had an effect.  A universal sentence is never decomposed, for it stays open
to terms that appear later. -/
def apply (inf : Inference) (tree : Tree) (leaves : List NodeId) : Tree × List NodeId :=
  match inf.effect with
  | .decomposition facts =>
      inf.inPlace ((inf.mergeFacts facts).andThen inf.decomposeOrigin) tree
  | .universal _ terms facts =>
      inf.inPlace
        ((inf.mergeFacts facts).andThen (Update.each (Tree.instantiate inf.node inf.origin) terms))
        tree
  | .existential _ _ [facts] =>
      inf.inPlace ((inf.mergeFacts facts).andThen inf.decomposeOrigin) tree
  | .branch alternatives | .existential _ _ alternatives =>
      inf.split alternatives (inf.decomposeOrigin tree).1 leaves
  | .closure _ => (tree, [])

end Inference

end Tableau
