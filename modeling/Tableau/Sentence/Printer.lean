/-
The written form of a sentence.
-/
import Tableau.Sentence.Basic

namespace Tableau.Sentence

/-- A binder shows its sort unless it is the root sort; `plain` is its written
form without. -/
def withSort (sorts : Sorts) (binder : Sentence) (plain : String) : String :=
  match binder with
  | var name sort =>
      if sort = SortId.object then plain else "(" ++ name ++ " " ++ sorts.name sort ++ ")"
  | _ => plain

mutual

/-- A sentence as an S-expression on one line. -/
def render (sorts : Sorts) : Sentence → String
  | atom name | const name _ | var name _ => name
  | app name _ xs | pred name xs => "(" ++ name ++ renderRest sorts xs ++ ")"
  | neg x => "(not " ++ render sorts x ++ ")"
  | conj xs => "(and" ++ renderRest sorts xs ++ ")"
  | disj xs => "(or" ++ renderRest sorts xs ++ ")"
  | imp l r => "(implies " ++ render sorts l ++ " " ++ render sorts r ++ ")"
  | iff l r => "(iff " ++ render sorts l ++ " " ++ render sorts r ++ ")"
  | equal xs => "(=" ++ renderRest sorts xs ++ ")"
  | all v x => "(forall " ++ withSort sorts v (render sorts v) ++ " " ++ render sorts x ++ ")"
  | ex v x => "(exists " ++ withSort sorts v (render sorts v) ++ " " ++ render sorts x ++ ")"
termination_by structural s => s

/-- Every sentence behind a space. -/
def renderRest (sorts : Sorts) : List Sentence → String
  | [] => ""
  | x :: xs => " " ++ render sorts x ++ renderRest sorts xs
termination_by structural xs => xs

end

end Tableau.Sentence
