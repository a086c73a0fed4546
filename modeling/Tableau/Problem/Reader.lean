/-
The state of reading a problem: the lexicon so far and what is known of the
symbols.  It is kept when reading fails.
-/
import Tableau.Lexicon.Basic
import Tableau.Problem.ReadError
import Tableau.Sentence.Printer

namespace Tableau

/-- What is known of a predicate or function symbol. -/
structure Signature where
  /-- The argument sorts, if the symbol is declared. -/
  args : Option (List SortId) := none
  arity : Nat
  result : SortId := SortId.object

/-- What is known of the symbols of one kind. -/
abbrev SymbolTable := List (String × Signature)

inductive SymbolKind where
  | predicate
  | function
deriving DecidableEq

structure Reader where
  lexicon : Lexicon := {}
  predicates : SymbolTable := []
  functions : SymbolTable := []
  constants : List (String × SortId) := []

/-- Reading, which may fail and keeps the state all the same. -/
abbrev ReadM := ExceptT ReadError (StateM Reader)

namespace Reader

def symbols (r : Reader) : SymbolKind → SymbolTable
  | .predicate => r.predicates
  | .function => r.functions

/-- Puts a signature in front of the table, where it is found first. -/
def addSymbol (r : Reader) (name : String) (sig : Signature) : SymbolKind → Reader
  | .predicate => { r with predicates := (name, sig) :: r.predicates }
  | .function => { r with functions := (name, sig) :: r.functions }

def addConstant (r : Reader) (name : String) (sort : SortId) : Reader :=
  { r with constants := (name, sort) :: r.constants }

/-- Enters a sentence into the lexicon. -/
def intern (s : Sentence) : ReadM Sentence := do
  modify fun r => { r with lexicon := r.lexicon.intern s }
  return s

def sort (name : String) : ReadM SortId := do
  match (← get).lexicon.sorts.find? name with
  | some sort => return sort
  | none => throw (.undeclaredSort name)

/-- Whether an argument fits the declared sort.  A variable may also range over
a supersort of it. -/
def argumentFits (sorts : Sorts) (arg : Sentence) (expected : SortId) : Bool :=
  let sort := arg.sort?.getD SortId.object
  sorts.isSubsort sort expected || (arg.isVariable && sorts.isSubsort expected sort)

/-- The first argument that does not fit its declared sort. -/
def misfit? (sorts : Sorts) (args : List Sentence) (expected : List SortId) :
    Option (Sentence × SortId) :=
  (args.zip expected).find? fun (arg, sort) => !argumentFits sorts arg sort

/-- The signature of a symbol; one that is not known yet gets its arity by its
first use. -/
def signature (kind : SymbolKind) (name : String) (arity : Nat) : ReadM Signature := do
  match ((← get).symbols kind).lookup name with
  | some sig => return sig
  | none =>
      let sig : Signature := { arity }
      modify (·.addSymbol name sig kind)
      return sig

/-- Uses a symbol with arguments, and yields its result sort. -/
def apply (kind : SymbolKind) (name : String) (args : List Sentence) : ReadM SortId := do
  let sig ← signature kind name args.length
  if sig.arity ≠ args.length then
    throw (.usedArity name args.length sig.arity)
  let sorts := (← get).lexicon.sorts
  match misfit? sorts args (sig.args.getD []) with
  | some (arg, expected) =>
      let sort := arg.sort?.getD SortId.object
      throw (.argumentSort (arg.render sorts) name (sorts.name sort) (sorts.name expected))
  | none => return sig.result

/-- The sort of a constant; one that is not known yet belongs to the root sort. -/
def constantSort (name : String) : ReadM SortId := do
  match (← get).constants.lookup name with
  | some sort => return sort
  | none =>
      modify (·.addConstant name SortId.object)
      return SortId.object

end Reader

end Tableau
