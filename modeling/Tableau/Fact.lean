/-
Facts: sentences with the truth value they are given.
-/
import Tableau.Sentence.Key

namespace Tableau

structure Fact where
  key : Key
  value : Bool
deriving DecidableEq

def Fact.sentence (fact : Fact) : Sentence := fact.key.sentence

/-- A sentence has the given value. -/
def Sentence.valued (value : Bool) (s : Sentence) : Fact := ⟨s, value⟩

end Tableau
