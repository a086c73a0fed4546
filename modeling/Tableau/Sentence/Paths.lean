/-
How many branches it takes to decompose a sentence completely.
-/
import Tableau.Sentence.Basic

namespace Tableau.Sentence

mutual

/-- The number of branches that decomposing the sentence with a value leaves. -/
def paths : Sentence → Bool → Nat
  | neg x, value => paths x (!value)
  | conj xs, true => pathsProduct xs true
  | conj xs, false => pathsSum xs false
  | disj xs, true => pathsSum xs true
  | disj xs, false => pathsProduct xs false
  | imp l r, true => paths l false + paths r true
  | imp l r, false => paths l true * paths r false
  | iff l r, value => paths l true * paths r value + paths l false * paths r (!value)
  | _, _ => 1
termination_by structural s => s

def pathsSum : List Sentence → Bool → Nat
  | [], _ => 0
  | x :: xs, value => paths x value + pathsSum xs value
termination_by structural xs => xs

def pathsProduct : List Sentence → Bool → Nat
  | [], _ => 1
  | x :: xs, value => paths x value * pathsProduct xs value
termination_by structural xs => xs

end

end Tableau.Sentence
