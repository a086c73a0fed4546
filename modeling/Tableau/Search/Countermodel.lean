/-
Countermodels: the sentences that a complete branch makes true or false.
-/
import Tableau.Search.Prover

namespace Tableau

structure Countermodel where
  leaf : NodeId
  asserted : List Sentence
  denied : List Sentence

namespace Countermodel

/-- Reads off the branch of a leaf. -/
def ofLeaf (lex : Lexicon) (tree : Tree) (leaf : NodeId) : Countermodel :=
  let branch := tree.branch leaf
  let mapped := branch.mapped lex
  { leaf
    asserted := (mapped.filter fun k => branch.models k == some true).map (·.sentence)
    denied := (mapped.filter fun k => branch.models k == some false).map (·.sentence) }

def get? (cm : Countermodel) (s : Sentence) : Option Bool :=
  if cm.asserted.contains s then some true
  else if cm.denied.contains s then some false
  else none

/-- The lines that show a countermodel. -/
def render (sorts : Sorts) (cm : Countermodel) : List String :=
  ["countermodel at " ++ cm.leaf.render] ++
    cm.asserted.map (fun s => "T " ++ s.render sorts) ++
    cm.denied.map (fun s => "F " ++ s.render sorts)

end Countermodel

/-- The countermodels at the complete open leaves. -/
def Prover.countermodels (p : Prover) : List Countermodel :=
  (p.openLeaves.filter p.isComplete).map (Countermodel.ofLeaf p.lexicon p.tree)

end Tableau
