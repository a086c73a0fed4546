/-
The state of a search for a proof: a tree of assignments whose root makes the
premises true and the goal false, the leaves that are still open, and the
branching inferences that wait to be committed.
-/
import Tableau.Rule.Propositional
import Tableau.Rule.Quantifier
import Tableau.Search.Event
import Tableau.Search.Statistics
import Tableau.Text.Lines

namespace Tableau

structure Options where
  /-- Every inference is worth noting. -/
  verbose : Bool := false
  /-- The time budget in nanoseconds, if there is one. -/
  maxRuntime : Option Nat := none

structure Prover where
  lexicon : Lexicon
  premises : List Sentence
  goals : List Sentence
  tree : Tree
  openLeaves : List NodeId := [NodeId.root]
  pending : List Inference := []
  /-- The inferences performed, in order. -/
  log : Array Inference := #[]
  /-- The number of the last inference. -/
  counter : Nat := 0
  options : Options := {}
  statistics : Statistics := {}
  /-- The events of the last search. -/
  trace : Array Event := #[]

namespace Prover

/-- The sentence that a countermodel has to make false: the only goal, or the
conjunction of several. -/
def refutand? : List Sentence → Option Sentence
  | [] => none
  | [goal] => some goal
  | goals => some (.conj goals)

/-- Begins with a single node, where the premises are true and the goal is
false. -/
def start (lexicon : Lexicon) (premises goals : List Sentence) (options : Options) : Prover :=
  let asserted := premises.map (Sentence.valued true)
  match refutand? goals with
  | none =>
      { lexicon, premises, goals, options
        tree := Tree.ofRoot (Assignment.ofFacts asserted 0) }
  | some goal =>
      { premises, goals, options
        lexicon := lexicon.intern goal
        tree := Tree.ofRoot (Assignment.ofFacts (asserted ++ [⟨goal, false⟩]) 0) }

/-- The number of the next inference. -/
def nextNumber (p : Prover) : Nat := p.counter + 1

def report (p : Prover) (event : Event) : Prover := { p with trace := p.trace.push event }

/-- Puts an inference into the log. -/
def record (p : Prover) (inf : Inference) : Prover :=
  { p with log := p.log.push inf }.report (.inferred inf)

def countCommitted (stats : Statistics) (inf : Inference) : Statistics :=
  match inf.effect with
  | .decomposition _ => { stats with decompositions := stats.decompositions + 1 }
  | .branch _ => { stats with branches := stats.branches + 1 }
  | .closure _ => { stats with closures := stats.closures + 1 }
  | .universal .. | .existential .. => { stats with instantiations := stats.instantiations + 1 }

/-- Performs an inference, or puts it off if it splits the branch. -/
def commit (p : Prover) (inf : Inference) : Prover :=
  let p := { p with counter := inf.number }
  if inf.isBranching then
    { p with
      tree := (inf.decomposeOrigin p.tree).1
      pending := p.pending ++ [inf] }.report (.queued inf)
  else
    { p with
      tree := (inf.apply p.tree []).1
      statistics := countCommitted p.statistics inf }.record inf

/-- The sentences that wait for their rules at a leaf, none if its branch holds a
conflict. -/
def waiting (p : Prover) (leaf : NodeId) : List Key :=
  match Rule.undecomposed p.lexicon (p.tree.branch leaf) with
  | [] => []
  | found => if p.tree.isPathConsistent leaf then found else []

/-- The sentences that wait for their rules, with the open leaves where they do. -/
def saturationCandidates (p : Prover) : List (NodeId × Key) :=
  p.openLeaves.flatMap fun leaf => (p.waiting leaf).map (leaf, ·)

/-- Fires the rule of one sentence at a leaf, if it applies. -/
def fire (candidate : NodeId × Key) : Update Prover := fun p =>
  match Rule.decompose? p.lexicon p.tree candidate.1 candidate.2 p.nextNumber with
  | some inf => (p.commit inf, true)
  | none => (p, false)

/-- One round of saturation: fires the rules of all sentences that waited for
them when the round began. -/
def saturate : Update Prover := fun p =>
  let r := Update.each fire p.saturationCandidates p
  ({ r.1 with statistics.rounds := r.1.statistics.rounds + 1 }, r.2)

/-- Puts the closure of a branch because of a conflict into the log. -/
def recordClosure (p : Prover) (conflict : Conflict) : Prover :=
  let inf : Inference := {
    node := conflict.node
    origin := conflict.sentence
    number := p.nextNumber
    justification :=
      ((p.tree.branch conflict.node).justification conflict.sentence true).getD 0
    effect := .closure conflict.against }
  { p with
    counter := inf.number
    statistics := countCommitted p.statistics inf }.record inf

/-- The open leaves, with the conflicts on their branches if there are any. -/
def conflicts (p : Prover) : List (NodeId × Option Conflict) :=
  p.openLeaves.map fun leaf => (leaf, Tree.pathConflict p.lexicon p.tree leaf)

/-- The open leaves at or below a node. -/
def openBelow (p : Prover) (node : NodeId) : List NodeId :=
  p.openLeaves.filter (p.tree.isDescendant · node)

/-- The open leaves that are neither at nor below a node. -/
def openElsewhere (p : Prover) (node : NodeId) : List NodeId :=
  p.openLeaves.filter fun leaf => !p.tree.isDescendant leaf node

/-- Closes all leaves with conflicts, and forgets the pending inferences that no
open leaf is left for. -/
def close (p : Prover) : Prover :=
  let found := p.conflicts
  let openLeaves := (found.filter (·.2.isNone)).map (·.1)
  let p := { (found.filterMap (·.2)).foldl recordClosure p with openLeaves }
  let isNeeded (inf : Inference) := p.openLeaves.any (p.tree.isDescendant · inf.node)
  { p with pending := p.pending.filter isNeeded }

/-- Performs a branching inference on all open leaves below its node, which its
alternatives replace. -/
def expand (p : Prover) (score : Score) (inf : Inference) (pending : List Inference) : Prover :=
  let r := inf.apply p.tree (p.openBelow inf.node)
  { p.report (.chosen score inf) with
    pending
    tree := r.1
    openLeaves := p.openElsewhere inf.node ++ r.2
    statistics := countCommitted p.statistics inf }.record inf

/-- Commits the pending inference with the best score, if there is any. -/
def commitBranch? (p : Prover) : Option Prover :=
  let leaves := p.openLeaves.map fun leaf => (leaf, p.tree.branch leaf)
  let scored := p.pending.map fun inf => (Score.of p.tree leaves inf, inf)
  (Score.takeBest scored).map fun taken => p.expand taken.1.1 taken.1.2 taken.2

/-- Whether nothing is left to do at a leaf whose branch holds no conflict. -/
def isComplete (p : Prover) (leaf : NodeId) : Bool :=
  let branch := p.tree.branch leaf
  (p.tree.children leaf).isEmpty &&
    !p.pending.any (fun inf => p.tree.isDescendant leaf inf.node) &&
    branch.isConsistent &&
    (Rule.undecomposed p.lexicon branch).isEmpty &&
    (Rule.openQuantifiers p.lexicon branch).isEmpty

def hasCountermodel (p : Prover) : Bool := p.openLeaves.any p.isComplete

/-- The premises, the goals and the inferences performed, each with a line feed
behind it. -/
def renderLog (p : Prover) : String :=
  let sorts := p.lexicon.sorts
  Text.unlines <|
    p.premises.map (fun s => "0. premise " ++ s.render sorts) ++
      p.goals.map (fun s => "0. goal " ++ s.render sorts) ++
      p.log.toList.map (Inference.render sorts)

end Prover

end Tableau
