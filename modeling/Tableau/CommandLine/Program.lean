/-
The command line program: it reads a problem, searches for a proof and reports
the result.  What it needs of its surroundings is given by a host.
-/
import Tableau.CommandLine.Seconds
import Tableau.Problem.Basic
import Tableau.Search.Run
import Tableau.Status

namespace Tableau

/-- What the program is asked to do. -/
structure Invocation where
  verbose : Bool := false
  /-- The time budget as it is written, if there is one. -/
  maxRuntime : Option String := none

/-- The surroundings of the program.  Operations on files may fail with a message
of the operating system. -/
structure Host (m : Type → Type) where
  readProblem : m (Except String String)
  prove : Prover → m (Prover × Except Defect Verdict)
  /-- Writes to the standard output. -/
  print : String → m Unit
  /-- Writes a line to the standard error output. -/
  complain : String → m Unit
  /-- Writes the file for results, if one is asked for. -/
  writeOutput : Option (String → m (Except String Unit))
  /-- Writes the file for statistics, if one is asked for. -/
  writeStatistics : Option (String → m (Except String Unit))

namespace Program

/-- The contents of a file as text. -/
def decode (bytes : ByteArray) : Except String String :=
  match String.fromUTF8? bytes with
  | some text => .ok text
  | none => .error "stream did not contain valid UTF-8"

/-- Why a run ends early. -/
inductive Abort where
  /-- The status and the details to be reported. -/
  | failure (status : Status) (detail : Option String)
  /-- The time budget cannot be counted. -/
  | uncountable

/-- A message of the operating system as a reason to end. -/
def Abort.os (message : String) : Abort := .failure .osError (some message)

def Abort.ofFailure (failure : Failure) : Abort := .failure failure.status (some failure.message)

variable {m : Type → Type} [Monad m]

/-- Writes results to their file, or to the standard output between the lines
that enclose them. -/
def output (host : Host m) (text : String) : m (Except String Unit) :=
  match host.writeOutput with
  | some write => write text
  | none => do
      host.print (Status.outputBlock text)
      return .ok ()

def statistics (host : Host m) (stats : Statistics) : m (Except String Unit) :=
  match host.writeStatistics with
  | some write => write (stats.render ++ "\n")
  | none => return .ok ()

/-- What is reported beside the verdict: the proof, or else the countermodels. -/
def results (p : Prover) : Verdict → String
  | .valid => p.renderLog
  | _ => Text.unlines (p.countermodels.flatMap (Countermodel.render p.lexicon.sorts))

/-- The budget in nanoseconds, if there is one that can be counted. -/
def maxRuntime : Budget → Except Abort (Option Nat)
  | .unlimited => .ok none
  | .nanoseconds count => .ok (some count)
  | .uncountable => .error .uncountable

/-- Goes on with the result of an operation, or ends for the reason it gives. -/
def orAbort {ε α : Type} (reason : ε → Abort) (operation : m (Except ε α)) : ExceptT Abort m α :=
  .mk do return (← operation).mapError reason

/-- Reads the problem, searches for a proof and reports the verdict. -/
def attempt (host : Host m) (verbose : Bool) (budget : Budget) : ExceptT Abort m Unit := do
  let text ← orAbort .os host.readProblem
  let (result, lexicon) := Problem.read {} text
  let problem ← orAbort (fun e => .ofFailure (.unreadable e)) (pure result)
  let maxRuntime ← orAbort id (pure (maxRuntime budget))
  let start := Prover.start lexicon problem.premises problem.goals { verbose, maxRuntime }
  let (p, result) ← host.prove start
  let verdict ← orAbort (fun e => .ofFailure (.defective p.lexicon.sorts e)) (pure result)
  orAbort .os (statistics host p.statistics)
  let status := Status.ofVerdict verdict
  if !status.isSuccess then
    throw (.failure status none)
  host.print status.line
  orAbort .os (output host (results p verdict))

/-- Runs the program and yields its exit code. -/
def run (host : Host m) (inv : Invocation) : m UInt32 := do
  match inv.maxRuntime.mapM Seconds.parse? with
  | none =>
      host.complain "invalid number of seconds"
      return 2
  | some seconds =>
      let budget := (seconds.map Seconds.budget).getD .unlimited
      match ← (attempt host inv.verbose budget).run with
      | .ok () => return 0
      | .error .uncountable =>
          host.complain "the number of seconds is too large"
          return 101
      | .error (.failure status detail) =>
          host.print status.line
          match detail with
          | none => pure ()
          | some text =>
              match ← output host text with
              | .ok () => pure ()
              | .error message => host.complain message
          return 1

end Program

end Tableau
