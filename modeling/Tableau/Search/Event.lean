/-
What a search reports while it runs.
-/
import Tableau.Inference.Printer
import Tableau.Search.Score

namespace Tableau

inductive Verdict where
  /-- The goals follow from the premises. -/
  | valid
  /-- The premises do not imply the goals. -/
  | invalid
  /-- The time budget was used up before. -/
  | unfinished
deriving DecidableEq

def Verdict.render : Verdict → String
  | valid => "valid"
  | invalid => "invalid"
  | unfinished => "unfinished"

/-- The phases between which a search alternates. -/
inductive Phase where
  | saturate
  | close
  | instantiate
  | branch
  | complete (verdict : Verdict)
deriving DecidableEq

def Phase.render : Phase → String
  | saturate => "Saturate"
  | close => "Close"
  | instantiate => "Instantiate"
  | branch => "Branch"
  | complete .valid => "Complete(Valid)"
  | complete .invalid => "Complete(Invalid)"
  | complete .unfinished => "Complete(Unfinished)"

inductive Level where
  | info
  | debug
  | trace
deriving DecidableEq

def Level.render : Level → String
  | info => "INFO"
  | debug => "DEBUG"
  | trace => "TRACE"

inductive Event where
  /-- A phase begins, with so many open leaves. -/
  | entered (phase : Phase) (openLeaves : Nat)
  | budgetExhausted
  /-- An inference that splits has been put off. -/
  | queued (inf : Inference)
  /-- An inference has been performed. -/
  | inferred (inf : Inference)
  /-- So many quantified sentences have something left to do. -/
  | obligations (count : Nat)
  /-- An inference that splits has been chosen. -/
  | chosen (score : Score) (inf : Inference)
  | finished (verdict : Verdict) (inferences : Nat)

namespace Event

/-- Inferences are only worth noting in a verbose search. -/
def level (verbose : Bool) : Event → Level
  | budgetExhausted | finished .. => .info
  | inferred _ => if verbose then .info else .trace
  | entered .. | queued _ | obligations _ | chosen .. => .debug

def message (sorts : Sorts) : Event → String
  | entered phase openLeaves =>
      "state: " ++ phase.render ++ ", open leaves: " ++ toString openLeaves
  | budgetExhausted => "time budget exhausted"
  | queued inf => "queue " ++ inf.render sorts
  | inferred inf => inf.render sorts
  | obligations count => toString count ++ " quantifier obligations"
  | chosen score inf => "commit " ++ score.render ++ ": " ++ inf.render sorts
  | finished verdict inferences =>
      verdict.render ++ " after " ++ toString inferences ++ " inferences"

/-- An event with its level in front. -/
def render (sorts : Sorts) (verbose : Bool) (event : Event) : String :=
  (event.level verbose).render ++ " " ++ event.message sorts

end Event

end Tableau
