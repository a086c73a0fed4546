/-
Problems: premises and goals, read from the sections of a text.
-/
import Tableau.Problem.Declaration
import Tableau.SExpr.Reader
import Tableau.Text.Lines

namespace Tableau

structure Problem where
  premises : List Sentence := []
  goals : List Sentence := []

/-- All expressions of a text.  An error tells the line and the beginning of the
first expression that is not complete; lines are counted up to there. -/
def SExpr.read (text : String) : Except ReadError (List SExpr) :=
  let cs := text.toList
  match SExpr.readAll cs with
  | .ok es => .ok es
  | .error rest =>
      let consumed := cs.take (cs.length - rest.length)
      .error (.unexpectedInput (max (Text.lineCount consumed) 1) (String.ofList (rest.take 20)))

namespace Reader

def declarations : List SExpr → ReadM Unit
  | [] => return ()
  | e :: es => do
      declaration e
      declarations es

/-- Adds a section of a text to a problem. -/
def readSection (problem : Problem) (e : SExpr) : ReadM Problem := do
  match e with
  | .list (.symbol head :: body) =>
      match Text.lowercase head with
      | "declarations" =>
          declarations body
          return problem
      | "premises" => return { problem with premises := problem.premises ++ (← formulas [] body) }
      | "goal" | "goals" => return { problem with goals := problem.goals ++ (← formulas [] body) }
      | head => throw (.unknownSection head)
  | .list _ => throw (.malformedSection e)
  | .symbol symbol => throw (.sectionExpected symbol)

def readSections (problem : Problem) : List SExpr → ReadM Problem
  | [] => return problem
  | e :: es => do readSections (← readSection problem e) es

/-- Reads a problem from its sections. -/
def problem (sections : List SExpr) : ReadM Problem := readSections {} sections

end Reader

/-- Reads a problem.  The lexicon holds all that was entered, also on failure. -/
def Problem.read (lexicon : Lexicon) (text : String) : Except ReadError Problem × Lexicon :=
  match SExpr.read text with
  | .error e => (.error e, lexicon)
  | .ok sections =>
      let (result, reader) := (Reader.problem sections).run.run { lexicon }
      (result, reader.lexicon)

end Tableau
