/-
What can be wrong with the text of a problem.
-/
import Tableau.SExpr.Basic

namespace Tableau

/-- Why a problem cannot be read. -/
inductive ReadError where
  /-- No complete expression starts on the given line with the given text. -/
  | unexpectedInput (line : Nat) (found : String)
  | sectionExpected (found : String)
  | malformedSection (e : SExpr)
  | unknownSection (head : String)
  | malformedDeclaration (e : SExpr)
  | sortExpected (found : SExpr)
  | sortRedeclared (name : String)
  | constantRedeclared (name : String)
  | symbolRedeclared (name : String)
  | malformedTerm (e : SExpr)
  | malformedFormula (e : SExpr)
  | argumentsExpected (count : Nat) (e : SExpr)
  | emptyEquality (e : SExpr)
  | malformedBinder (binder : SExpr)
  | variableAsFormula (name : String)
  | declaredArity (name : String) (count expected : Nat)
  | usedArity (name : String) (count expected : Nat)
  | undeclaredSort (name : String)
  | argumentSort (argument symbol sort expected : String)

namespace ReadError

/-- What kind of mistake it is. -/
inductive Kind where
  | text
  | heading
  | declaration
  | formula
  | arity
  | sort
deriving DecidableEq

def Kind.render : Kind → String
  | text => "Syntax"
  | heading => "Section"
  | declaration => "Declaration"
  | formula => "Formula"
  | arity => "Arity"
  | sort => "Sort"

def kind : ReadError → Kind
  | unexpectedInput .. => .text
  | sectionExpected _ | malformedSection _ | unknownSection _ => .heading
  | malformedDeclaration _ | sortExpected _ | sortRedeclared _ | constantRedeclared _
  | symbolRedeclared _ => .declaration
  | malformedTerm _ | malformedFormula _ | argumentsExpected .. | emptyEquality _
  | malformedBinder _ | variableAsFormula _ => .formula
  | declaredArity .. | usedArity .. => .arity
  | undeclaredSort _ | argumentSort .. => .sort

def detail : ReadError → String
  | unexpectedInput line found =>
      "unexpected input on line " ++ toString line ++ ": " ++ found
  | sectionExpected found => "expected a section, found " ++ found
  | malformedSection e => "malformed section " ++ e.render
  | unknownSection head => "unknown section " ++ head
  | malformedDeclaration e => "malformed declaration " ++ e.render
  | sortExpected found => "expected a sort, found " ++ found.render
  | sortRedeclared name => "sort " ++ name ++ " redeclared with a different parent"
  | constantRedeclared name => "constant " ++ name ++ " declared or used with another sort"
  | symbolRedeclared name => name ++ " declared twice"
  | malformedTerm e => "malformed term " ++ e.render
  | malformedFormula e => "malformed formula " ++ e.render
  | argumentsExpected count e => "expected " ++ toString count ++ " arguments in " ++ e.render
  | emptyEquality e => "equality without terms in " ++ e.render
  | malformedBinder binder => "malformed binder " ++ binder.render
  | variableAsFormula name => "variable " ++ name ++ " used as a formula"
  | declaredArity name count expected =>
      name ++ " declared with " ++ toString count ++ " arguments, but has " ++ toString expected
  | usedArity name count expected =>
      name ++ " used with " ++ toString count ++ " arguments, but has " ++ toString expected
  | undeclaredSort name => "undeclared sort " ++ name
  | argumentSort argument symbol sort expected =>
      "argument " ++ argument ++ " of " ++ symbol ++ " has sort " ++ sort ++ ", expected " ++
        expected

def message (e : ReadError) : String := e.kind.render ++ " error: " ++ e.detail

end ReadError

end Tableau
