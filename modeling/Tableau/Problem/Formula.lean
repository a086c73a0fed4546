/-
Reading terms and formulas.  Sentences are entered into the lexicon as they are
read, parts before wholes and from left to right.
-/
import Tableau.Problem.Reader
import Tableau.Text.Lowercase

namespace Tableau

/-- The heads of formulas that are not predicates. -/
inductive Keyword where
  | not
  | and
  | or
  | implies
  | iff
  | equals
  | all
  | ex

/-- Keywords may be written in any case. -/
def Keyword.ofHead? (head : String) : Option Keyword :=
  match Text.lowercase head with
  | "not" => some not
  | "and" => some and
  | "or" => some or
  | "implies" => some implies
  | "iff" => some iff
  | "=" | "equals" => some equals
  | "forall" => some all
  | "exists" => some ex
  | _ => none

/-- The bound variables with their names, the innermost first. -/
abbrev Scope := List (String × Sentence)

namespace Reader

/-- A name used as a term: a bound variable or else a constant. -/
def name (scope : Scope) (name : String) : ReadM Sentence := do
  match scope.lookup name with
  | some var => return var
  | none =>
      if ((← get).functions.lookup name).isSome then
        discard (apply .function name [])
      intern (.const name (← constantSort name))

mutual

def term (scope : Scope) (e : SExpr) : ReadM Sentence :=
  match e with
  | .symbol symbol => name scope symbol
  | .list (.symbol f :: arg :: args) => do
      let arg ← term scope arg
      let args ← terms scope args
      let sort ← apply .function f (arg :: args)
      intern (.app f sort (arg :: args))
  | .list _ => throw (.malformedTerm e)
termination_by structural e

def terms (scope : Scope) (es : List SExpr) : ReadM (List Sentence) :=
  match es with
  | [] => return []
  | e :: es => do
      let s ← term scope e
      return s :: (← terms scope es)
termination_by structural es

end

/-- A name used as a formula. -/
def atom (scope : Scope) (name : String) : ReadM Sentence := do
  if (scope.lookup name).isSome then
    throw (.variableAsFormula name)
  discard (apply .predicate name [])
  intern (.atom name)

/-- The variable that a quantifier binds, with its name. -/
def binder (e : SExpr) : ReadM (String × Sentence) := do
  match e with
  | .symbol name => return (name, ← intern (.var name SortId.object))
  | .list [.symbol name, .symbol sortName] =>
      let sort ← sort sortName
      return (name, ← intern (.var name sort))
  | _ => throw (.malformedBinder e)

/-- A predicate with arguments, or an atom without. -/
def predicate (scope : Scope) (head : String) (args : List SExpr) : ReadM Sentence := do
  if args.isEmpty then
    atom scope head
  else
    let args ← terms scope args
    discard (apply .predicate head args)
    intern (.pred head args)

/-- Terms that are said to be equal; there has to be one at least. -/
def equality (scope : Scope) (e : SExpr) (args : List SExpr) : ReadM Sentence := do
  if args.isEmpty then
    throw (.emptyEquality e)
  intern (.equal (← terms scope args))

mutual

def formula (scope : Scope) (e : SExpr) : ReadM Sentence :=
  match e with
  | .symbol symbol => atom scope symbol
  | .list (.symbol head :: args) =>
      match Keyword.ofHead? head, args with
      | some .not, [x] => do
          intern (.neg (← formula scope x))
      | some .not, _ => throw (.argumentsExpected 1 e)
      | some .and, args => do
          intern (.conj (← formulas scope args))
      | some .or, args => do
          intern (.disj (← formulas scope args))
      | some .implies, [l, r] => do
          let left ← formula scope l
          intern (.imp left (← formula scope r))
      | some .iff, [l, r] => do
          let left ← formula scope l
          intern (.iff left (← formula scope r))
      | some .implies, _ | some .iff, _ => throw (.argumentsExpected 2 e)
      | some .equals, args => equality scope e args
      | some .all, [b, x] => do
          let (name, var) ← binder b
          intern (.all var (← formula ((name, var) :: scope) x))
      | some .ex, [b, x] => do
          let (name, var) ← binder b
          intern (.ex var (← formula ((name, var) :: scope) x))
      | some .all, _ | some .ex, _ => throw (.argumentsExpected 2 e)
      | none, args => predicate scope head args
  | .list _ => throw (.malformedFormula e)
termination_by structural e

def formulas (scope : Scope) (es : List SExpr) : ReadM (List Sentence) :=
  match es with
  | [] => return []
  | e :: es => do
      let s ← formula scope e
      return s :: (← formulas scope es)
termination_by structural es

end

end Reader

end Tableau
