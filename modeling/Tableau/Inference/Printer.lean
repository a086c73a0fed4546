/-
The line that shows an inference in a proof.
-/
import Tableau.Inference.Basic
import Tableau.Sentence.Printer

namespace Tableau

def Fact.render (sorts : Sorts) (fact : Fact) : String :=
  (if fact.value then "T " else "F ") ++ fact.sentence.render sorts

/-- The facts of an alternative in braces. -/
def Outcome.render (sorts : Sorts) (facts : Outcome) : String :=
  "\x7b" ++ ", ".intercalate (facts.map (Fact.render sorts)) ++ "\x7d"

namespace Inference

def renderOutcomes (sorts : Sorts) (inf : Inference) : String :=
  " | ".intercalate (inf.outcomes.map (Outcome.render sorts))

/-- The terms that an inference puts for a variable. -/
def renderTerms (sorts : Sorts) (binder : Sentence) (terms : List Sentence) : String :=
  binder.render sorts ++ " := " ++ ", ".intercalate (terms.map (Sentence.render sorts))

/-- What an inference does. -/
def renderEffect (sorts : Sorts) (inf : Inference) : String :=
  let origin := inf.origin.render sorts
  let outcomes := inf.renderOutcomes sorts
  match inf.effect with
  | .decomposition _ => "decompose " ++ origin ++ ": " ++ outcomes
  | .branch _ => "branch on " ++ origin ++ ": " ++ outcomes
  | .closure conflict => "close on " ++ origin ++ " against " ++ conflict.render
  | .universal binder terms _ =>
      "instantiate " ++ origin ++ " with " ++ renderTerms sorts binder terms ++ ": " ++ outcomes
  | .existential binder witnesses _ =>
      "witness " ++ origin ++ " with " ++ renderTerms sorts binder witnesses ++ ": " ++ outcomes

/-- An inference with its number, its node and its justification. -/
def render (sorts : Sorts) (inf : Inference) : String :=
  toString inf.number ++ ". " ++ inf.node.render ++ " [" ++ toString inf.justification ++ "] " ++
    inf.renderEffect sorts

end Inference

end Tableau
