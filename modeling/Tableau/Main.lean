/-
The command line.
-/
import Tableau.CommandLine.Arguments

namespace Tableau.CommandLine

/-- The number of an error, which may be given as a negative 32-bit number. -/
def errorNumber (code : UInt32) : Nat :=
  if code.toNat < 2147483648 then code.toNat else 4294967296 - code.toNat

def withNumber (text : String) (code : UInt32) : String :=
  text ++ " (os error " ++ toString (errorNumber code) ++ ")"

/-- What the operating system says, with the number of the error. -/
def osMessage : IO.Error → String
  | .noFileOrDirectory _ code _ => withNumber "No such file or directory" code
  | .permissionDenied _ code _ => withNumber "Permission denied" code
  | .inappropriateType _ code _ => withNumber "Is a directory" code
  | e => toString e

def attemptOs {α : Type} (action : IO α) : IO (Except String α) := do
  match ← action.toBaseIO with
  | .ok a => return .ok a
  | .error e => return .error (osMessage e)

def readProblem (path : String) : IO (Except String String) := do
  return (← attemptOs (IO.FS.readBinFile path)).bind Program.decode

/-- The levels of events that are shown. -/
def shownLevels (setting : Option String) : List Level :=
  match setting with
  | some "info" => [.info]
  | some "debug" => [.info, .debug]
  | some "trace" => [.info, .debug, .trace]
  | _ => []

/-- Shows the events of a search from the given one on. -/
def showEvents (levels : List Level) (p : Prover) (first : Nat) : IO Unit := do
  for event in p.trace.toList.drop first do
    if levels.contains (event.level p.options.verbose) then
      IO.eprintln (event.render p.lexicon.sorts p.options.verbose)

/-- Makes steps by the clock until the search is over. -/
partial def runSearch (levels : List Level) (started : Nat) (s : Search) : IO Search := do
  let now ← IO.monoNanosNow
  let (next, goesOn) := Search.step (now - started) s
  showEvents levels next.prover s.prover.trace.size
  if goesOn then runSearch levels started next else return next

def prove (levels : List Level) (p : Prover) : IO (Prover × Except Defect Verdict) := do
  let started ← IO.monoNanosNow
  let s ← runSearch levels started p.search
  let finished ← IO.monoNanosNow
  let (p, result) := s.finish
  showEvents levels p s.prover.trace.size
  return ({ p with statistics.elapsed := (finished - started) / 1000000 }, result)

def host (levels : List Level) (file : String) (args : Arguments) : Host IO where
  readProblem := readProblem file
  prove := prove levels
  print := IO.print
  complain := IO.eprintln
  writeOutput := args.output.map fun path text => attemptOs (IO.FS.writeFile path text)
  writeStatistics := args.statistics.map fun path text => attemptOs (IO.FS.writeFile path text)

def run (words : List String) : IO UInt32 := do
  match Arguments.parse words with
  | .error e =>
      IO.eprintln s!"error: {e.message}\n\n{Arguments.usage}"
      return 2
  | .ok args =>
      match args.help, args.file with
      | false, some file =>
          let levels := shownLevels (← IO.getEnv "LOG")
          Program.run (host levels file args) args.invocation
      | _, _ =>
          IO.print Arguments.usage
          return 0

end Tableau.CommandLine

def main (words : List String) : IO UInt32 := Tableau.CommandLine.run words
