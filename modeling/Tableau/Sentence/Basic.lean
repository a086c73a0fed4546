/-
Sentences of many-sorted first-order logic.  Terms and formulas are one type:
terms are the constants, the variables and the applications of functions.
-/
import Tableau.Sorts

namespace Tableau

inductive Sentence where
  | atom (name : String)
  | const (name : String) (sort : SortId)
  | var (name : String) (sort : SortId)
  | app (name : String) (sort : SortId) (args : List Sentence)
  | pred (name : String) (args : List Sentence)
  | neg (s : Sentence)
  | conj (items : List Sentence)
  | disj (items : List Sentence)
  | imp (left right : Sentence)
  | iff (left right : Sentence)
  | equal (terms : List Sentence)
  | all (binder body : Sentence)
  | ex (binder body : Sentence)

namespace Sentence

mutual

/-- Structural equality, decided. -/
def same : Sentence → Sentence → Bool
  | atom n, atom m => n == m
  | const n s, const m t => n == m && s == t
  | var n s, var m t => n == m && s == t
  | app n s xs, app m t ys => n == m && s == t && sameAll xs ys
  | pred n xs, pred m ys => n == m && sameAll xs ys
  | neg x, neg y => same x y
  | conj xs, conj ys => sameAll xs ys
  | disj xs, disj ys => sameAll xs ys
  | imp l r, imp l' r' => same l l' && same r r'
  | iff l r, iff l' r' => same l l' && same r r'
  | equal xs, equal ys => sameAll xs ys
  | all v x, all w y => same v w && same x y
  | ex v x, ex w y => same v w && same x y
  | _, _ => false
termination_by structural s => s

def sameAll : List Sentence → List Sentence → Bool
  | [], [] => true
  | x :: xs, y :: ys => same x y && sameAll xs ys
  | _, _ => false
termination_by structural xs => xs

end

mutual

theorem eq_of_same {a b : Sentence} (h : same a b = true) : a = b := by
  cases a <;> cases b <;> simp_all [same] <;>
    first
    | exact eq_of_sameAll (by simp_all)
    | exact eq_of_same (by simp_all)
    | exact ⟨eq_of_same (by simp_all), eq_of_same (by simp_all)⟩

theorem eq_of_sameAll {xs ys : List Sentence} (h : sameAll xs ys = true) : xs = ys := by
  cases xs <;> cases ys <;> simp_all [sameAll]
  exact ⟨eq_of_same h.1, eq_of_sameAll h.2⟩

end

mutual

theorem same_self (a : Sentence) : same a a = true := by
  cases a <;> simp [same] <;>
    first
    | exact sameAll_self _
    | exact same_self _
    | exact ⟨same_self _, same_self _⟩

theorem sameAll_self (xs : List Sentence) : sameAll xs xs = true := by
  cases xs <;> simp [sameAll]
  exact ⟨same_self _, sameAll_self _⟩

end

/-- Equality is decided by structure, and at once for one and the same object. -/
instance : DecidableEq Sentence := fun a b =>
  withPtrEqDecEq a b fun _ =>
    decidable_of_iff (same a b = true) ⟨eq_of_same, fun h => h ▸ same_self a⟩

instance : Inhabited Sentence := ⟨.atom ""⟩

def isQuantifier : Sentence → Bool
  | all .. | ex .. => true
  | _ => false

def isConstant : Sentence → Bool
  | const .. => true
  | _ => false

/-- The name of a constant. -/
def constantName? : Sentence → Option String
  | const name _ => some name
  | _ => none

def isVariable : Sentence → Bool
  | var .. => true
  | _ => false

def isTerm : Sentence → Bool
  | const .. | var .. | app .. => true
  | _ => false

/-- Terms and atomic formulas: nothing is left to decompose. -/
def isTerminal : Sentence → Bool
  | atom .. | pred .. => true
  | s => s.isTerm

/-- The sort of a term. -/
def sort? : Sentence → Option SortId
  | const _ sort | var _ sort | app _ sort _ => some sort
  | _ => none

/-- The immediate parts, a quantifier's binder included. -/
def parts : Sentence → List Sentence
  | atom .. | const .. | var .. => []
  | app _ _ xs | pred _ xs | conj xs | disj xs | equal xs => xs
  | neg x => [x]
  | imp l r | iff l r => [l, r]
  | all v x | ex v x => [v, x]

/-- Replaces the immediate parts from left to right, if all of them have a
replacement.  A quantifier keeps its binder. -/
def mapParts? (f : Sentence → Option Sentence) : Sentence → Option Sentence
  | s@(atom _) | s@(const ..) | s@(var ..) => some s
  | app name sort xs => (xs.mapM f).map (app name sort)
  | pred name xs => (xs.mapM f).map (pred name)
  | neg x => (f x).map neg
  | conj xs => (xs.mapM f).map conj
  | disj xs => (xs.mapM f).map disj
  | imp l r => do return imp (← f l) (← f r)
  | iff l r => do return iff (← f l) (← f r)
  | equal xs => (xs.mapM f).map equal
  | all v x => (f x).map (all v)
  | ex v x => (f x).map (ex v)

end Sentence

end Tableau
