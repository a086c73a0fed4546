/-
Partial truth assignments.  Beside the truth values, an assignment remembers for
which terms its universal sentences have been instantiated.
-/
import Tableau.Fact
import Tableau.Table
import Tableau.TruthValue

namespace Tableau

structure Assignment where
  values : Table TruthValue := {}
  /-- The terms that universal sentences have been instantiated for. -/
  instances : Table (List Sentence) := {}

namespace Assignment

def get? (a : Assignment) (k : Key) : Option TruthValue := a.values.find? k

/-- The number of the inference that gave a value to a sentence. -/
def justification (a : Assignment) (k : Key) (value : Bool) : Option Nat :=
  (a.get? k).bind (·.justification value)

def has (a : Assignment) (k : Key) (value : Bool) : Bool :=
  (a.justification k value).isSome

/-- The value of a sentence, if exactly one is given. -/
def models (a : Assignment) (k : Key) : Option Bool := (a.get? k).bind (·.get?)

def isMapped (a : Assignment) (k : Key) : Bool := (a.get? k).any (·.isMapped)

def isDecomposed (a : Assignment) (k : Key) : Bool := (a.get? k).any (·.decomposed)

/-- The terms that a universal sentence has been instantiated for. -/
def instancesOf (a : Assignment) (k : Key) : List Sentence := (a.instances.find? k).getD []

/-- All terms that universal sentences have been instantiated for. -/
def instanceTerms (a : Assignment) : List Sentence := a.instances.toList.flatMap (·.2)

/-- The facts that hold of one truth value. -/
def factsOf (k : Key) (tv : TruthValue) : List Fact :=
  ([false, true].filter tv.has).map (⟨k, ·⟩)

def facts (a : Assignment) : List Fact :=
  a.values.toList.flatMap fun entry => factsOf entry.1 entry.2

/-- The sentences that have a value and pass a test. -/
@[inline]
def mappedWhere (a : Assignment) (test : Key → TruthValue → Bool) : List Key :=
  a.values.keysWhere fun k tv => tv.isMapped && test k tv

/-- The sentences that have a value. -/
def mapped (a : Assignment) : List Key := a.mappedWhere fun _ _ => true

/-- The sentences whose rule has been applied or queued. -/
def decomposed (a : Assignment) : List Key := a.values.keysWhere fun _ tv => tv.decomposed

/-- The number of sentences that have a value. -/
def size (a : Assignment) : Nat := a.values.toList.countP (·.2.isMapped)

def isConsistent (a : Assignment) : Bool := !a.values.any fun _ tv => !tv.isConsistent

/-- Changes the truth value of one sentence. -/
def alter (k : Key) (change : Update TruthValue) : Update Assignment := fun a =>
  let r := a.values.alter k {} change
  ({ a with values := r.1 }, r.2)

def set (k : Key) (value : Bool) (number : Nat) : Update Assignment :=
  alter k (TruthValue.set value number)

def decompose (k : Key) : Update Assignment := alter k TruthValue.decompose

/-- Remembers that a universal sentence has been instantiated for a term. -/
def instantiate (k : Key) (term : Sentence) : Update Assignment := fun a =>
  let add : Update (List Sentence) := fun terms =>
    if terms.contains term then (terms, false) else (terms ++ [term], true)
  let r := a.instances.alter k [] add
  ({ a with instances := r.1 }, r.2)

/-- Adds what `other` has, where nothing is there yet. -/
def merge (other : Assignment) : Update Assignment :=
  (Update.each (fun entry => alter entry.1 (TruthValue.merge entry.2)) other.values.toList).andThen
    (Update.each (fun entry => Update.each (instantiate entry.1) entry.2) other.instances.toList)

/-- The assignment of the given facts, all by the same inference. -/
def ofFacts (facts : List Fact) (number : Nat) : Assignment :=
  (Update.each (fun fact => set fact.key fact.value number) facts {}).1

/-- A change to the truth value of a sentence concerns no other sentence. -/
theorem get?_alter (k other : Key) (change : Update TruthValue) (a : Assignment) :
    (alter k change a).1.get? other =
      if other = k then some (change ((a.get? k).getD {})).1 else a.get? other :=
  Table.find?_alter k other ({} : TruthValue) change a.values

end Assignment

end Tableau
