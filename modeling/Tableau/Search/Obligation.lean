/-
Discharging quantified sentences.  All that have something left to do on an open
branch are collected first and then discharged one after the other.
-/
import Tableau.Search.Prover

namespace Tableau

/-- A quantified sentence with something left to do at an open leaf. -/
structure Obligation where
  fact : Fact
  leaf : NodeId

namespace Obligation

/-- False quantified sentences come first, as they only turn into their duals,
then universal ones and last existential ones. -/
def rank (ob : Obligation) : Nat :=
  match ob.fact.value, ob.fact.sentence with
  | false, _ => 0
  | true, .all .. => 1
  | true, _ => 2

/-- The order of discharge: by rank, then by leaf, then by the sentence's
number. -/
def before (a b : Obligation × Nat) : Bool :=
  if a.1.rank ≠ b.1.rank then a.1.rank < b.1.rank
  else if a.1.leaf ≠ b.1.leaf then a.1.leaf < b.1.leaf
  else a.2 ≤ b.2

/-- Obligations in the order of discharge. -/
def arrange (lex : Lexicon) (obs : List Obligation) : List Obligation :=
  (sortBy before (obs.map fun ob => (ob, lex.number ob.fact.key))).map (·.1)

end Obligation

/-- An obligation that cannot be discharged, which the search never meets. -/
structure Defect where
  sentence : Sentence
  leaf : NodeId

def Defect.message (sorts : Sorts) (defect : Defect) : String :=
  "no instantiation for " ++ defect.sentence.render sorts ++ " on " ++ defect.leaf.render

namespace Prover

/-- All obligations at open leaves, in the order of discharge. -/
def obligations (p : Prover) : List Obligation :=
  Obligation.arrange p.lexicon <| p.openLeaves.flatMap fun leaf =>
    (Rule.openQuantifiers p.lexicon (p.tree.branch leaf)).map (⟨·, leaf⟩)

/-- Discharges obligations in turn, except those whose leaf has been closed by
an earlier one.  The result tells whether the tree changed at once. -/
def discharge (p : Prover) : List Obligation → Prover × Except Defect Bool
  | [] => (p, .ok false)
  | ob :: rest =>
      if !p.openLeaves.contains ob.leaf || !p.tree.isPathConsistent ob.leaf then
        p.discharge rest
      else
        match Rule.instantiate? p.lexicon p.tree ob.leaf ob.fact.key p.nextNumber with
        | none => (p, .error ⟨ob.fact.sentence, ob.leaf⟩)
        | some (inf, lexicon) =>
            let r := ({ p with lexicon }.commit inf).discharge rest
            (r.1, r.2.map (!inf.isBranching || ·))

/-- Discharges all obligations. -/
def instantiate (p : Prover) : Prover × Except Defect Bool :=
  let obligations := p.obligations
  (p.report (.obligations obligations.length)).discharge obligations

end Prover

end Tableau
