/-
Branches: the assignments from a node up to the root, which hold together.
-/
import Tableau.Assignment
import Tableau.Lexicon.Evaluation
import Tableau.Sentence.Subsentences

namespace Tableau

/-- The assignments of a node and its ancestors, the node itself first. -/
abbrev Branch := List Assignment

namespace Branch

/-- The number of the inference that gave a value to a sentence. -/
def justification (branch : Branch) (k : Key) (value : Bool) : Option Nat :=
  branch.findSome? (·.justification k value)

def has (branch : Branch) (k : Key) (value : Bool) : Bool :=
  (branch.justification k value).isSome

/-- The value of a sentence at the nearest node that has one. -/
def models (branch : Branch) (k : Key) : Option Bool :=
  (branch.find? (·.isMapped k)).bind (·.models k)

def isMapped (branch : Branch) (k : Key) : Bool := branch.any (·.isMapped k)

def isDecomposed (branch : Branch) (k : Key) : Bool := branch.any (·.isDecomposed k)

/-- The terms that a universal sentence has been instantiated for. -/
def instancesOf (branch : Branch) (k : Key) : List Sentence :=
  branch.flatMap (·.instancesOf k)

/-- Whether a truth value is contradictory, or contradicts the assignments above
it. -/
def opposes (above : Branch) (k : Key) (tv : TruthValue) : Bool :=
  (tv.isTrue && (tv.isFalse || has above k false)) || (tv.isFalse && has above k true)

/-- Whether the nearest assignment contradicts itself or one above it. -/
def clashes : Branch → Bool
  | [] => false
  | a :: above => a.values.any (opposes above)

/-- Whether no assignment contradicts itself or one above it. -/
def isConsistent : Branch → Bool
  | [] => true
  | a :: above => !clashes (a :: above) && isConsistent above

/-- The sentences that have a value and pass a test, from the root down and at
each node in the order of the lexicon. -/
@[specialize]
def mappedWhere (lex : Lexicon) (test : Key → TruthValue → Bool) : Branch → List Key
  | [] => []
  | a :: above =>
      let isNew (k : Key) : Bool := !isMapped above k
      mappedWhere lex test above ++
        lex.arrangeKeys (a.mappedWhere fun k tv => test k tv && isNew k)

/-- The sentences that have a value, from the root down and at each node in the
order of the lexicon. -/
def mapped (lex : Lexicon) (branch : Branch) : List Key :=
  mappedWhere lex (fun _ _ => true) branch

/-- The ground terms of the branch: those in its sentences, then those that
universal sentences have been instantiated for. -/
def groundTerms (lex : Lexicon) (branch : Branch) : List Sentence :=
  Sentence.distinct <|
    (mapped lex branch).foldr (fun k rest => k.sentence.groundTermsOnto rest) <|
      branch.reverse.flatMap fun a => lex.arrangeSentences (Sentence.distinct a.instanceTerms)

/-- The ground terms of the branch in no particular order. -/
def termsMentioned (branch : Branch) : List Sentence :=
  Sentence.distinct <| branch.flatMap fun a =>
    a.mapped.foldr (fun k rest => k.sentence.groundTermsOnto rest) a.instanceTerms

/-- The value of a sentence, as far as the branch and its ground terms decide
it. -/
def evaluate (lex : Lexicon) (branch : Branch) (s : Sentence) : Option Bool :=
  lex.evaluate (fun x => branch.models x) (groundTerms lex branch) s

end Branch

end Tableau
