/-
The sentences inside a sentence, in depth-first order, and those of them that
are of interest: constants, ground terms, atomic formulas.
-/
import Tableau.Sentence.Distinct

namespace Tableau.Sentence

mutual

/-- A sentence and all its parts, depth first, repetitions included. -/
def subsentences : Sentence → List Sentence
  | s@(atom _) | s@(const ..) | s@(var ..) => [s]
  | s@(app _ _ xs) | s@(pred _ xs) | s@(conj xs) | s@(disj xs) | s@(equal xs) =>
      s :: subsentencesAll xs
  | s@(neg x) => s :: subsentences x
  | s@(imp l r) | s@(iff l r) | s@(all l r) | s@(ex l r) =>
      s :: (subsentences l ++ subsentences r)
termination_by structural s => s

def subsentencesAll : List Sentence → List Sentence
  | [] => []
  | x :: xs => subsentences x ++ subsentencesAll xs
termination_by structural xs => xs

end

mutual

/-- No variable occurs, not even as a binder. -/
def isGround : Sentence → Bool
  | var .. => false
  | atom _ | const .. => true
  | app _ _ xs | pred _ xs | conj xs | disj xs | equal xs => areGround xs
  | neg x => isGround x
  | imp l r | iff l r | all l r | ex l r => isGround l && isGround r
termination_by structural s => s

def areGround : List Sentence → Bool
  | [] => true
  | x :: xs => isGround x && areGround xs
termination_by structural xs => xs

end

mutual

theorem isGround_eq (s : Sentence) : s.isGround = s.subsentences.all fun x => !x.isVariable := by
  cases s with
  | app _ _ xs | pred _ xs | conj xs | disj xs | equal xs =>
      simp [isGround, subsentences, isVariable, areGround_eq xs]
  | neg x => simp [isGround, subsentences, isVariable, isGround_eq x]
  | imp l r | iff l r | all l r | ex l r =>
      simp [isGround, subsentences, isVariable, isGround_eq l, isGround_eq r]
  | _ => simp [isGround, subsentences, isVariable]

theorem areGround_eq (xs : List Sentence) :
    areGround xs = (subsentencesAll xs).all fun x => !x.isVariable := by
  cases xs with
  | nil => rfl
  | cons x xs => simp [areGround, subsentencesAll, isGround_eq x, areGround_eq xs]

end

def constants (s : Sentence) : List Sentence :=
  distinct (s.subsentences.filter isConstant)

def isGroundTerm : Sentence → Bool
  | const .. => true
  | s@(app ..) => s.isGround
  | _ => false

mutual

/-- Puts the ground terms inside a sentence before a list, depth first and with
repetitions. -/
def groundTermsOnto : Sentence → List Sentence → List Sentence
  | atom _, rest | var .., rest => rest
  | s@(const ..), rest => s :: rest
  | s@(app _ _ xs), rest =>
      if areGround xs then s :: groundTermsOntoAll xs rest else groundTermsOntoAll xs rest
  | pred _ xs, rest | conj xs, rest | disj xs, rest | equal xs, rest => groundTermsOntoAll xs rest
  | neg x, rest => groundTermsOnto x rest
  | imp l r, rest | iff l r, rest | all l r, rest | ex l r, rest =>
      groundTermsOnto l (groundTermsOnto r rest)
termination_by structural s => s

def groundTermsOntoAll : List Sentence → List Sentence → List Sentence
  | [], rest => rest
  | x :: xs, rest => groundTermsOnto x (groundTermsOntoAll xs rest)
termination_by structural xs => xs

end

mutual

theorem groundTermsOnto_eq (s : Sentence) (rest : List Sentence) :
    s.groundTermsOnto rest = s.subsentences.filter isGroundTerm ++ rest := by
  cases s with
  | app _ _ xs =>
      by_cases h : areGround xs = true <;>
        simp [groundTermsOnto, subsentences, isGroundTerm, isGround, h, groundTermsOntoAll_eq xs]
  | pred _ xs | conj xs | disj xs | equal xs =>
      simp [groundTermsOnto, subsentences, isGroundTerm, groundTermsOntoAll_eq xs]
  | neg x => simp [groundTermsOnto, subsentences, isGroundTerm, groundTermsOnto_eq x]
  | imp l r | iff l r | all l r | ex l r =>
      simp [groundTermsOnto, subsentences, isGroundTerm, groundTermsOnto_eq l,
        groundTermsOnto_eq r]
  | const => rfl
  | _ => simp [groundTermsOnto, subsentences, isGroundTerm]

theorem groundTermsOntoAll_eq (xs rest : List Sentence) :
    groundTermsOntoAll xs rest = (subsentencesAll xs).filter isGroundTerm ++ rest := by
  cases xs with
  | nil => rfl
  | cons x xs =>
      simp [groundTermsOntoAll, subsentencesAll, groundTermsOnto_eq x,
        groundTermsOntoAll_eq xs]

end

def groundTerms (s : Sentence) : List Sentence := distinct (s.groundTermsOnto [])

def isAtomic : Sentence → Bool
  | atom .. | pred .. => true
  | _ => false

def atoms (s : Sentence) : List Sentence :=
  distinct (s.subsentences.filter isAtomic)

end Tableau.Sentence
