/-
The truth value of a sentence at a node, with the number of the inference that
gave it.  Both values may be given, which is a contradiction; the first inference
that gives a value is the one remembered.
-/
import Tableau.Update

namespace Tableau

structure TruthValue where
  trueBy : Option Nat := none
  falseBy : Option Nat := none
  /-- The rule of the sentence has been applied or queued. -/
  decomposed : Bool := false
deriving DecidableEq

namespace TruthValue

/-- The number of the inference that gave a value. -/
def justification (tv : TruthValue) (value : Bool) : Option Nat :=
  if value then tv.trueBy else tv.falseBy

def has (tv : TruthValue) (value : Bool) : Bool := (tv.justification value).isSome

def isTrue (tv : TruthValue) : Bool := tv.has true

def isFalse (tv : TruthValue) : Bool := tv.has false

/-- The value, if exactly one is given. -/
def get? (tv : TruthValue) : Option Bool :=
  match tv.isTrue, tv.isFalse with
  | true, false => some true
  | false, true => some false
  | _, _ => none

def isMapped (tv : TruthValue) : Bool := tv.isTrue || tv.isFalse

def isConsistent (tv : TruthValue) : Bool := !(tv.isTrue && tv.isFalse)

/-- Gives a value, unless it is given already. -/
def set (value : Bool) (number : Nat) : Update TruthValue := fun tv =>
  if tv.has value then
    (tv, false)
  else if value then
    ({ tv with trueBy := some number }, true)
  else
    ({ tv with falseBy := some number }, true)

def decompose : Update TruthValue := fun tv => ({ tv with decomposed := true }, !tv.decomposed)

/-- Gives a value by the inference that is named, if any is. -/
def setBy (value : Bool) : Option Nat → Update TruthValue
  | some number => set value number
  | none => Update.skip

/-- Adds what `other` has, where nothing is there yet. -/
def merge (other : TruthValue) : Update TruthValue :=
  (setBy true other.trueBy).andThen <|
    (setBy false other.falseBy).andThen <|
      if other.decomposed then decompose else Update.skip

end TruthValue

end Tableau
