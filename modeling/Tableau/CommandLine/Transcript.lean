/-
Rehearsing the program: all that it writes is kept instead of being written.
-/
import Tableau.CommandLine.Program

namespace Tableau

/-- What a run leaves behind. -/
structure Transcript where
  stdout : String := ""
  outputFile : Option String := none
  statisticsFile : Option String := none

/-- A path that the program is told to write to. -/
inductive Target where
  | writable
  /-- The directory of the path does not exist. -/
  | missing
deriving DecidableEq

/-- The surroundings of a rehearsal. -/
structure Scenario where
  /-- The contents of the problem file, if it exists. -/
  file : Option ByteArray
  invocation : Invocation := {}
  output : Option Target := none
  statistics : Option Target := none

namespace Scenario

/-- What the operating system says of a path that does not exist. -/
def noSuchFile : String := "No such file or directory (os error 2)"

def readProblem (scenario : Scenario) : Except String String :=
  match scenario.file with
  | none => .error noSuchFile
  | some bytes => Program.decode bytes

/-- A run that is recorded, and that has no result if the search takes too many
steps. -/
abbrev Rehearsal := OptionT (StateM Transcript)

/-- Writes to a target by changing the transcript. -/
def write (target : Target) (change : Transcript → Transcript) : Rehearsal (Except String Unit) :=
  match target with
  | .writable => do
      modify change
      return .ok ()
  | .missing => return .error noSuchFile

def host (scenario : Scenario) (fuel : Nat) : Host Rehearsal where
  readProblem := return scenario.readProblem
  prove p := OptionT.mk (return p.prove? fuel)
  print text := modify fun t => { t with stdout := t.stdout ++ text }
  complain _ := return ()
  writeOutput := scenario.output.map fun target text =>
    write target fun t => { t with outputFile := some text }
  writeStatistics := scenario.statistics.map fun target text =>
    write target fun t => { t with statisticsFile := some text }

/-- The exit code and the transcript of the program, if the search ends within
`fuel` steps. -/
def run (scenario : Scenario) (fuel : Nat) : Option (UInt32 × Transcript) :=
  let (code?, transcript) :=
    (Program.run (scenario.host fuel) scenario.invocation).run.run {}
  code?.map (·, transcript)

end Scenario

end Tableau
