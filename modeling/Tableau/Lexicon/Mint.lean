/-
Fresh constants.  They are named `c1`, `c2`, … and avoid the name of every
constant that is entered, whatever its sort.
-/
import Tableau.Lexicon.Basic

namespace Tableau.Lexicon

def constantName (n : Nat) : String := "c" ++ toString n

/-- Whether a constant of whatever sort has the name. -/
def isTaken (lex : Lexicon) (name : String) : Bool := lex.names.contains name

/-- The first number from `n` on whose name is not taken, or the one behind the
first `tries` numbers. -/
def freeNumber (taken : String → Bool) : (tries : Nat) → (n : Nat) → Nat
  | 0, n => n
  | tries + 1, n =>
      if taken (constantName n) then freeNumber taken tries (n + 1) else n

/-- Counts one more constant and finds its number.  Where `k` names are taken, one of
`k + 1` numbers is free. -/
def count (lex : Lexicon) : Lexicon :=
  { lex with
    fresh := freeNumber lex.isTaken lex.names.length (lex.fresh + 1)
    minted := lex.minted + 1 }

/-- Enters a new constant of the given sort. -/
def mint (lex : Lexicon) (sort : SortId) : Sentence × Lexicon :=
  let constant := Sentence.const (constantName lex.count.fresh) sort
  (constant, lex.count.intern constant)

end Tableau.Lexicon
