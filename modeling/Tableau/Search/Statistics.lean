/-
What a search counts.
-/
namespace Tableau

structure Statistics where
  /-- Inferences in the log. -/
  inferences : Nat := 0
  decompositions : Nat := 0
  /-- Branches that have been committed. -/
  branches : Nat := 0
  closures : Nat := 0
  /-- Universal and existential instantiations. -/
  instantiations : Nat := 0
  /-- Fresh constants. -/
  witnesses : Nat := 0
  /-- Rounds of saturation. -/
  rounds : Nat := 0
  /-- Nodes of the tree. -/
  nodes : Nat := 0
  /-- Milliseconds that the last search took. -/
  elapsed : Nat := 0
deriving DecidableEq

namespace Statistics

/-- The counts with their names, in the order of a report. -/
def fields (stats : Statistics) : List (String × Nat) :=
  [("inferences", stats.inferences), ("decompositions", stats.decompositions),
    ("branches", stats.branches), ("closures", stats.closures),
    ("instantiations", stats.instantiations), ("witnesses", stats.witnesses),
    ("rounds", stats.rounds), ("nodes", stats.nodes), ("elapsed_ms", stats.elapsed)]

/-- The statistics as a JSON object on one line. -/
def render (stats : Statistics) : String :=
  let members := stats.fields.map fun (name, count) => "\"" ++ name ++ "\":" ++ toString count
  "\x7b" ++ ",".intercalate members ++ "\x7d"

end Statistics

end Tableau
