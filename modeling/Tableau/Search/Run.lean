/-
Running a search.  A search alternates between saturating the open branches,
closing those with conflicts, instantiating quantifiers and committing a single
pending branch, until no leaf is open or some open leaf is complete.
-/
import Tableau.Search.Countermodel
import Tableau.Search.Obligation

namespace Tableau

/-- Where a search stands. -/
inductive Stage where
  /-- A phase is about to begin. -/
  | entering (phase : Phase)
  /-- In the middle of saturation. -/
  | saturating
  | done (verdict : Verdict)
  | failed (defect : Defect)

structure Search where
  prover : Prover
  stage : Stage := .entering .saturate
  /-- Quantifiers have been instantiated since the last branch, so a pending
  branch comes first even if every instantiation yields new terms. -/
  instantiated : Bool := false

namespace Search

/-- Whether the time budget is used up after so many nanoseconds. -/
def isExhausted (s : Search) (elapsed : Nat) : Bool :=
  s.prover.options.maxRuntime.any (· ≤ elapsed)

/-- What follows in the given phase. -/
def perform (s : Search) (elapsed : Nat) : Phase → Search
  | .saturate =>
      if s.isExhausted elapsed then
        { s with
          prover := s.prover.report .budgetExhausted
          stage := .entering (.complete .unfinished) }
      else
        { s with stage := .saturating }
  | .close =>
      let prover := s.prover.close
      let phase :=
        if prover.openLeaves.isEmpty then .complete .valid
        else if s.instantiated && !prover.pending.isEmpty then .branch
        else .instantiate
      { s with prover, stage := .entering phase }
  | .instantiate =>
      match s.prover.instantiate with
      | (prover, .ok true) => { prover, stage := .entering .saturate, instantiated := true }
      | (prover, .ok false) => { prover, stage := .entering .branch, instantiated := false }
      | (prover, .error defect) => { s with prover, stage := .failed defect }
  | .branch =>
      if s.prover.hasCountermodel then
        { s with stage := .entering (.complete .invalid), instantiated := false }
      else
        match s.prover.commitBranch? with
        | some prover => { prover, stage := .entering .saturate, instantiated := false }
        | none => { s with stage := .entering (.complete .invalid), instantiated := false }
  | .complete verdict => { s with stage := .done verdict }

def isOver (s : Search) : Bool :=
  match s.stage with
  | .done _ | .failed _ => true
  | .entering _ | .saturating => false

/-- Makes one step, and reports whether the search goes on.  The clock shows how
many nanoseconds have passed. -/
def step (elapsed : Nat) : Update Search := fun s =>
  let next :=
    match s.stage with
    | .entering phase =>
        let entered := Event.entered phase s.prover.openLeaves.length
        { s with prover := s.prover.report entered }.perform elapsed phase
    | .saturating =>
        let r := s.prover.saturate
        { s with prover := r.1, stage := if r.2 then .saturating else .entering .close }
    | .done _ | .failed _ => s
  (next, !next.isOver)

/-- Sums up a search that is over. -/
def finish (s : Search) : Prover × Except Defect Verdict :=
  let p := s.prover
  let p := { p with
    statistics.inferences := p.log.size
    statistics.witnesses := p.lexicon.minted
    statistics.nodes := p.tree.size }
  match s.stage with
  | .done verdict => (p.report (.finished verdict p.log.size), .ok verdict)
  | .failed defect => (p, .error defect)
  | .entering _ | .saturating => (p, .ok .unfinished)

end Search

namespace Prover

/-- Begins a search; it can be repeated, and then goes on from where the last
one ended. -/
def search (p : Prover) : Search := { prover := { p with trace := #[] } }

/-- What a clock shows that stands still, in nanoseconds. -/
def instant : Nat := 1

/-- Searches for a proof within so many steps.  The clock stands still, so that
no budget beyond an instant is ever used up. -/
def prove? (fuel : Nat) (p : Prover) : Option (Prover × Except Defect Verdict) :=
  (Update.untilStable (Search.step instant) fuel p.search).map fun r => r.1.finish

end Prover

end Tableau
