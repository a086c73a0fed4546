/-
Putting a term for a variable.  Where a quantifier binds the variable again, the
sentence stays as it is.
-/
import Tableau.Sentence.Basic

namespace Tableau.Sentence

mutual

/-- Replaces `target` by `term`.  Binders are kept, and so is the body of a
quantifier that binds `target`. -/
def subst (s target term : Sentence) : Sentence :=
  if s = target then
    term
  else
    match s with
    | atom name => atom name
    | const name sort => const name sort
    | var name sort => var name sort
    | app name sort xs => app name sort (substAll xs target term)
    | pred name xs => pred name (substAll xs target term)
    | neg x => neg (subst x target term)
    | conj xs => conj (substAll xs target term)
    | disj xs => disj (substAll xs target term)
    | imp l r => imp (subst l target term) (subst r target term)
    | iff l r => iff (subst l target term) (subst r target term)
    | equal xs => equal (substAll xs target term)
    | all v x => all v (if v = target then x else subst x target term)
    | ex v x => ex v (if v = target then x else subst x target term)
termination_by structural s

def substAll (xs : List Sentence) (target term : Sentence) : List Sentence :=
  match xs with
  | [] => []
  | x :: xs => subst x target term :: substAll xs target term
termination_by structural xs

end

theorem substAll_eq_map (target term : Sentence) (xs : List Sentence) :
    substAll xs target term = xs.map (·.subst target term) := by
  induction xs with
  | nil => rfl
  | cons x xs ih => simp [substAll, ih]

mutual

/-- The nesting depth of connectives and quantifiers; terms and atomic formulas
have none, whatever they contain. -/
def rank : Sentence → Nat
  | atom .. | const .. | var .. | app .. | pred .. | equal .. => 0
  | neg x => rank x + 1
  | conj xs | disj xs => rankAll xs + 1
  | imp l r | iff l r => max (rank l) (rank r) + 1
  | all _ x | ex _ x => rank x + 1
termination_by structural s => s

/-- The greatest rank in a list. -/
def rankAll : List Sentence → Nat
  | [] => 0
  | x :: xs => max (rank x) (rankAll xs)
termination_by structural xs => xs

end

theorem rank_eq_zero_of_isTerm {s : Sentence} (h : s.isTerm = true) : s.rank = 0 := by
  cases s <;> simp_all [isTerm, rank]

theorem rank_le_rankAll {x : Sentence} {xs : List Sentence} (h : x ∈ xs) :
    x.rank ≤ rankAll xs := by
  induction xs with
  | nil => simp at h
  | cons y ys ih =>
      rcases List.mem_cons.mp h with rfl | h
      · exact Nat.le_max_left ..
      · exact Nat.le_trans (ih h) (Nat.le_max_right ..)

mutual

/-- Putting a term for a term does not change the connectives around it. -/
theorem rank_subst {target term : Sentence} (htarget : target.isTerm = true)
    (hterm : term.isTerm = true) (s : Sentence) : (subst s target term).rank = s.rank := by
  by_cases h : s = target
  · subst h
    cases s <;> simp_all [subst, isTerm, rank, rank_eq_zero_of_isTerm]
  · cases s with
    | conj xs => simp [subst, h, rank, rankAll_substAll htarget hterm xs]
    | disj xs => simp [subst, h, rank, rankAll_substAll htarget hterm xs]
    | neg x => simp [subst, h, rank, rank_subst htarget hterm x]
    | imp l r => simp [subst, h, rank, rank_subst htarget hterm l, rank_subst htarget hterm r]
    | iff l r => simp [subst, h, rank, rank_subst htarget hterm l, rank_subst htarget hterm r]
    | all v x =>
        have := rank_subst htarget hterm x
        simp only [subst, h, if_false, rank]
        split <;> simp_all
    | ex v x =>
        have := rank_subst htarget hterm x
        simp only [subst, h, if_false, rank]
        split <;> simp_all
    | _ => simp [subst, h, rank]

theorem rankAll_substAll {target term : Sentence} (htarget : target.isTerm = true)
    (hterm : term.isTerm = true) (xs : List Sentence) :
    rankAll (substAll xs target term) = rankAll xs := by
  cases xs with
  | nil => rfl
  | cons x xs =>
      simp [substAll, rankAll, rank_subst htarget hterm x, rankAll_substAll htarget hterm xs]

end

end Tableau.Sentence
