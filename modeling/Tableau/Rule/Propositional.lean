/-
The rules for connectives and equality.  They apply to a sentence that has a
value on the branch and has not been decomposed there.
-/
import Tableau.Inference.Basic
import Tableau.Lexicon.Evaluation

namespace Tableau

/-- The alternatives for a sentence with a value, one of which holds; nothing if
no rule decomposes it.  Of equality only reflexivity is known. -/
def Sentence.alternatives? (s : Sentence) (value : Bool) : Option (List Outcome) :=
  match s, value with
  | .neg x, v => some [[⟨x, !v⟩]]
  | .conj xs, true => some [xs.map (valued true)]
  | .conj xs, false => some (xs.map fun x => [valued false x])
  | .disj xs, true => some (xs.map fun x => [valued true x])
  | .disj xs, false => some [xs.map (valued false)]
  | .imp l r, true => some [[⟨l, false⟩], [⟨r, true⟩]]
  | .imp l r, false => some [[⟨l, true⟩, ⟨r, false⟩]]
  | .iff l r, v => some [[⟨l, true⟩, ⟨r, v⟩], [⟨l, false⟩, ⟨r, !v⟩]]
  | .equal xs, _ => some [if allEqual xs then [⟨s, true⟩] else []]
  | _, _ => none

namespace Rule

/-- The effect of alternatives for a sentence with a value.  Where there is none,
the opposite value follows, so that the branch closes. -/
def effect (lex : Lexicon) (s : Sentence) (value : Bool) : List Outcome → Effect
  | [] => .decomposition (lex.arrange [⟨s, !value⟩])
  | [facts] => .decomposition (lex.arrange facts)
  | alternatives => .branch (alternatives.map lex.arrange)

/-- Whether a sentence waits for its rule on a branch. -/
def isUndecomposed (branch : Branch) (k : Key) : Bool :=
  !k.sentence.isTerminal && !k.sentence.isQuantifier && !branch.isDecomposed k &&
    (branch.models k).isSome

/-- The sentences that wait for their rules on a branch.  One that its own node
marks as decomposed need not be looked up. -/
def undecomposed (lex : Lexicon) (branch : Branch) : List Key :=
  branch.mappedWhere lex fun k tv => !tv.decomposed && isUndecomposed branch k

/-- Fires the rule of a sentence at a node. -/
def decompose? (lex : Lexicon) (tree : Tree) (node : NodeId) (k : Key) (number : Nat) :
    Option Inference :=
  let branch := tree.branch node
  let s := k.sentence
  if s.isTerminal || s.isQuantifier || branch.isDecomposed k then
    none
  else do
    let value ← branch.models k
    let alternatives ← s.alternatives? value
    return {
      node, number
      origin := s
      justification := (branch.justification k value).getD 0
      effect := effect lex s value alternatives }

end Rule

end Tableau
