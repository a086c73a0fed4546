/-
The rules for quantifiers.  A universal sentence is instantiated for every ground
term of the branch that its variable ranges over, again and again as such terms
appear; an existential one is witnessed by one of them or by a fresh constant.
-/
import Tableau.Inference.Basic
import Tableau.Lexicon.Mint

namespace Tableau.Rule

/-- The ground terms of a branch that a variable ranges over. -/
def candidates (lex : Lexicon) (branch : Branch) (binder : Sentence) : List Sentence :=
  match binder.sort? with
  | some sort => lex.values sort (branch.groundTerms lex)
  | none => []

/-- The candidates that a universal sentence has not been instantiated for. -/
def unusedCandidates (lex : Lexicon) (branch : Branch) (k : Key) (binder : Sentence) :
    List Sentence :=
  let used := branch.instancesOf k
  (candidates lex branch binder).filter fun term => !used.contains term

/-- Whether a universal sentence has terms left to be instantiated for: one of
the given terms that its variable ranges over, or a fresh one if there has been
none at all, for no sort is empty. -/
def isUnexhausted (lex : Lexicon) (branch : Branch) (terms : List Sentence) (k : Key)
    (binder : Sentence) : Bool :=
  let used := branch.instancesOf k
  let values := (binder.sort?.map fun sort => lex.values sort terms).getD []
  (values.isEmpty && used.isEmpty) || values.any fun term => !used.contains term

/-- Whether a quantified sentence has something left to do on a branch with the
given ground terms. -/
@[inline]
def isOpenAmong (lex : Lexicon) (branch : Branch) (terms : List Sentence) (k : Key) : Bool :=
  if branch.isDecomposed k then
    false
  else
    match k.sentence, branch.models k with
    | .all binder _, some true => isUnexhausted lex branch terms k binder
    | .all .., some false | .ex .., some _ => true
    | _, _ => false

/-- Whether a quantified sentence has something left to do on a branch. -/
def isOpenQuantifier (lex : Lexicon) (branch : Branch) (k : Key) : Bool :=
  isOpenAmong lex branch branch.termsMentioned k

/-- The quantified sentences that have something left to do on a branch. -/
def openQuantifiers (lex : Lexicon) (branch : Branch) : List Fact :=
  match branch.mappedWhere lex fun k tv => k.sentence.isQuantifier && !tv.decomposed with
  | [] => []
  | quantified =>
      let terms := branch.termsMentioned
      (quantified.filter (isOpenAmong lex branch terms)).filterMap fun k =>
        (branch.models k).map (⟨k, ·⟩)

/-- The instances of a body for a list of terms, entered one after the other. -/
def instancesFor (lex : Lexicon) (binder body : Sentence) : List Sentence → List Sentence × Lexicon
  | [] => ([], lex)
  | term :: terms =>
      let first := lex.substitute body binder term
      let r := instancesFor first.2 binder body terms
      (first.1 :: r.1, r.2)

/-- The terms that a universal sentence is instantiated for: the candidates that
it has not been, or else a fresh constant, for no sort is empty. -/
def universalTerms (lex : Lexicon) (branch : Branch) (k : Key) (binder : Sentence)
    (sort : SortId) : List Sentence × Lexicon :=
  let unused := unusedCandidates lex branch k binder
  if unused.isEmpty then
    let minted := lex.mint sort
    ([minted.1], minted.2)
  else
    (unused, lex)

/-- The terms that may witness an existential sentence: the candidates and a
fresh constant. -/
def witnesses (lex : Lexicon) (branch : Branch) (binder : Sentence) (sort : SortId) :
    List Sentence × Lexicon :=
  let minted := lex.mint sort
  (candidates lex branch binder ++ [minted.1], minted.2)

/-- A false quantified sentence turns into its dual. -/
def dualEffect (lex : Lexicon) (dual : Sentence) : Effect × Lexicon :=
  let lex := lex.intern dual
  (.decomposition (lex.arrange [⟨dual, true⟩]), lex)

/-- The effect of a quantified sentence with a value, and the lexicon with all
sentences that it mentions. -/
def quantifierEffect? (lex : Lexicon) (branch : Branch) (k : Key) (value : Bool) :
    Option (Effect × Lexicon) :=
  match k.sentence, value with
  | .all binder body, true => do
      let terms := universalTerms lex branch k binder (← binder.sort?)
      let insts := instancesFor terms.2 binder body terms.1
      let facts := insts.2.arrange (insts.1.map (Sentence.valued true))
      return (.universal binder terms.1 facts, insts.2)
  | .ex binder body, true => do
      let terms := witnesses lex branch binder (← binder.sort?)
      let insts := instancesFor terms.2 binder body terms.1
      let alternatives := insts.1.map fun inst => insts.2.arrange [inst.valued true]
      return (.existential binder terms.1 alternatives, insts.2)
  | .all binder body, false => some (dualEffect lex (.ex binder (.neg body)))
  | .ex binder body, false => some (dualEffect lex (.all binder (.neg body)))
  | _, _ => none

/-- Fires the rule of a quantified sentence at a node. -/
def instantiate? (lex : Lexicon) (tree : Tree) (node : NodeId) (k : Key) (number : Nat) :
    Option (Inference × Lexicon) :=
  let branch := tree.branch node
  if isOpenQuantifier lex branch k then do
    let value ← branch.models k
    let r ← quantifierEffect? lex branch k value
    let justification := (branch.justification k value).getD 0
    return ({ node, number, justification, origin := k.sentence, effect := r.1 }, r.2)
  else
    none

end Tableau.Rule
