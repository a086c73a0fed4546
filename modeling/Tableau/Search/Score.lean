/-
Ranking the branches that wait to be committed.
-/
import Tableau.Inference.Basic
import Tableau.Sentence.Paths

namespace Tableau

/-- How a pending branch compares with others. -/
structure Score where
  /-- New nodes that would not close at once. -/
  survivors : Nat
  /-- Branches that decomposing all new facts would leave. -/
  degree : Nat
  /-- New facts about sentences that have a value already. -/
  reuse : Nat
  /-- The number of the inference. -/
  recency : Nat
deriving DecidableEq

namespace Score

/-- Fewer survivors win, then a smaller degree, then more reuse, then the more
recent inference. -/
def better (a b : Score) : Bool :=
  if a.survivors ≠ b.survivors then a.survivors < b.survivors
  else if a.degree ≠ b.degree then a.degree < b.degree
  else if a.reuse ≠ b.reuse then a.reuse > b.reuse
  else a.recency > b.recency

/-- A branch refutes an alternative if it denies one of its facts. -/
def isRefuted (branch : Branch) (facts : Outcome) : Bool :=
  facts.any fun fact => branch.models fact.key == some !fact.value

def reused (branch : Branch) (facts : Outcome) : Nat :=
  facts.countP fun fact => branch.isMapped fact.key

/-- The branches that decomposing an alternative completely would leave. -/
def outcomePaths (facts : Outcome) : Nat :=
  facts.foldr (fun fact product => fact.sentence.paths fact.value * product) 1

def total (counts : List Nat) : Nat := counts.foldr (· + ·) 0

/-- The score of an inference that would be committed on the branches of all
given leaves below its node. -/
def of (tree : Tree) (leaves : List (NodeId × Branch)) (inf : Inference) : Score :=
  let outcomes := inf.outcomes
  let branches := (leaves.filter (tree.isDescendant ·.1 inf.node)).map (·.2)
  { survivors := total (branches.map fun b => outcomes.countP fun facts => !isRefuted b facts)
    degree := total (outcomes.map outcomePaths)
    reuse := total (branches.map fun b => total (outcomes.map (reused b)))
    recency := inf.number }

/-- The inference with the best score, the first one of equals, and all the
others in their order. -/
def takeBest : List (Score × Inference) → Option ((Score × Inference) × List Inference)
  | [] => none
  | x :: xs =>
      match takeBest xs with
      | none => some (x, [])
      | some (best, others) =>
          if best.1.better x.1 then some (best, x.2 :: others) else some (x, xs.map (·.2))

def render (score : Score) : String :=
  "Score \x7b survivors: " ++ toString score.survivors ++ ", degree: " ++ toString score.degree ++
    ", reuse: Reverse(" ++ toString score.reuse ++ "), recency: Reverse(" ++
    toString score.recency ++ ") \x7d"

end Score

end Tableau
