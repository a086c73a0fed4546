import Tableau.Assignment
import Tableau.Branch
import Tableau.CommandLine.Arguments
import Tableau.CommandLine.Program
import Tableau.CommandLine.Seconds
import Tableau.CommandLine.Transcript
import Tableau.Fact
import Tableau.Inference.Basic
import Tableau.Inference.Printer
import Tableau.Lexicon.Basic
import Tableau.Lexicon.Evaluation
import Tableau.Lexicon.Mint
import Tableau.Main
import Tableau.Order
import Tableau.Problem.Basic
import Tableau.Problem.Declaration
import Tableau.Problem.Formula
import Tableau.Problem.ReadError
import Tableau.Problem.Reader
import Tableau.Rule.Propositional
import Tableau.Rule.Quantifier
import Tableau.SExpr.Basic
import Tableau.SExpr.Lexeme
import Tableau.SExpr.Reader
import Tableau.Search.Countermodel
import Tableau.Search.Event
import Tableau.Search.Obligation
import Tableau.Search.Prover
import Tableau.Search.Run
import Tableau.Search.Score
import Tableau.Search.Statistics
import Tableau.Sentence.Basic
import Tableau.Sentence.Distinct
import Tableau.Sentence.Fingerprint
import Tableau.Sentence.Key
import Tableau.Sentence.Paths
import Tableau.Sentence.Printer
import Tableau.Sentence.Subsentences
import Tableau.Sentence.Substitution
import Tableau.Sorts
import Tableau.Status
import Tableau.Table
import Tableau.Text.Blank
import Tableau.Text.CaseTable
import Tableau.Text.Lines
import Tableau.Text.Lowercase
import Tableau.Tree
import Tableau.TruthValue
import Tableau.Update
import Tableau.Proofs.Assignment
import Tableau.Proofs.Ordering
import Tableau.Proofs.Branch
import Tableau.Proofs.Lineage
import Tableau.Proofs.Tree
import Tableau.Proofs.Leaves
import Tableau.Proofs.Lexicon
import Tableau.Proofs.Rule
import Tableau.Proofs.Resemblance
import Tableau.Proofs.Firing
import Tableau.Proofs.Search.Transition
import Tableau.Proofs.Search.Reach
import Tableau.Proofs.Search.Account
import Tableau.Proofs.Search.Heredity
import Tableau.Proofs.Search.Phase
import Tableau.Proofs.Valuation
import Tableau.Proofs.Hintikka
import Tableau.Proofs.Soundness
import Tableau.Proofs.Search.Queue
import Tableau.Proofs.Search.Advance
import Tableau.Proofs.Search.Frontier
import Tableau.Proofs.Search.Replay
import Tableau.Proofs.Search.Provenance
import Tableau.Proofs.Search.Potential
import Tableau.Proofs.Search.Termination
import Tableau.Proofs.Propositional
import Tableau.Proofs.Structure
import Tableau.Proofs.Formula
import Tableau.Proofs.Search.Freshness
import Tableau.Proofs.Reading
import Tableau.Proofs.FirstOrder
import Tableau.Proofs.TermModel
import Tableau.Proofs.Occurrence
import Tableau.Proofs.Evaluation
import Tableau.Proofs.ClosedBranch
import Tableau.Proofs.Search.Discharge
import Tableau.Proofs.Search.Completion
import Tableau.Proofs.Flat
import Tableau.Proofs.Workload
import Tableau.Proofs.FlatSearch
import Tableau.Proofs.Search.Uniqueness
import Tableau.Proofs.Search.Persistence
import Tableau.Proofs.Search.Stability
import Tableau.Proofs.Derivation
import Tableau.Proofs.Expression
import Tableau.Proofs.Knowledge
import Tableau.Proofs.Rereading
import Tableau.Proofs.ScopeStack
import Tableau.Proofs.WellFormedness
import Tableau.Proofs.PremiseOrder
import Tableau.Proofs.Development
import Tableau.Proofs.Shape
import Tableau.Proofs.Substitution
import Tableau.Proofs.Replacement
import Tableau.Proofs.Denotation
import Tableau.Proofs.Declaration
import Tableau.Proofs.DeclaredSort
import Tableau.Proofs.ThreeValued
import Tableau.Proofs.Construction
import Tableau.Proofs.Applicability
import Tableau.Proofs.DepthFirst
import Tableau.Proofs.Merging
import Tableau.Proofs.Search.Survivors
import Tableau.Proofs.SortHierarchy
import Tableau.Proofs.ErrorPosition
import Tableau.Proofs.StatusReport
import Tableau.Proofs.Minting
import Tableau.Proofs.Exactness
import Tableau.Proofs.Intake
import Tableau.Proofs.Mirror
