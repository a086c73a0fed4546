/-
The status vocabulary in which theorem provers report their results, and the
failures that it classifies.
-/
import Tableau.Problem.ReadError
import Tableau.Search.Obligation

namespace Tableau

inductive Status where
  /-- The goals follow from the premises. -/
  | provable
  /-- The premises and the negated goals hold together. -/
  | counterSatisfiable
  | osError
  | inputError
  | syntaxError
  /-- An internal error. -/
  | error
  | timeout
deriving DecidableEq

namespace Status

def render : Status → String
  | provable => "Theorem"
  | counterSatisfiable => "CounterSatisfiable"
  | osError => "OsError"
  | inputError => "InputError"
  | syntaxError => "SyntaxError"
  | error => "Error"
  | timeout => "Timeout"

/-- The line that reports a status. -/
def line (status : Status) : String := "% SZS status " ++ status.render ++ "\n"

/-- Whether the prover has decided the problem. -/
def isSuccess : Status → Bool
  | provable | counterSatisfiable => true
  | osError | inputError | syntaxError | error | timeout => false

def ofVerdict : Verdict → Status
  | .valid => provable
  | .invalid => counterSatisfiable
  | .unfinished => timeout

def ofReadError (e : ReadError) : Status :=
  if e.kind = .text then syntaxError else inputError

/-- The lines that enclose further output. -/
def outputBlock (text : String) : String :=
  "% SZS output start\n" ++ text ++ "% SZS output end\n"

end Status

/-- Why a problem has no verdict. -/
inductive Failure where
  | unreadable (e : ReadError)
  | defective (sorts : Sorts) (defect : Defect)

namespace Failure

def message : Failure → String
  | unreadable e => "parse error: " ++ e.message
  | defective sorts defect => "engine defect: " ++ defect.message sorts

def status : Failure → Status
  | unreadable e => .ofReadError e
  | defective .. => .error

end Failure

end Tableau
