/-
Three-valued evaluation.  A sentence that the given values do not decide is
evaluated from its parts, and a quantifier from those of its instances that are
entered in the lexicon.
-/
import Tableau.Lexicon.Basic
import Tableau.Sentence.Subsentences

namespace Tableau

/-- Strong Kleene combination of the values of some elements: the dominant value
wins, and the other one needs all of the values.  The elements are valued in
turn, and none after the first dominant one. -/
def kleene {α : Type} (dominant : Bool) (value : α → Option Bool) : List α → Option Bool
  | [] => some !dominant
  | x :: xs =>
      match value x with
      | some truth => if truth = dominant then some dominant else kleene dominant value xs
      | none => if kleene dominant value xs = some dominant then some dominant else none

theorem kleene_map {α β : Type} (dominant : Bool) (value : β → Option Bool) (f : α → β)
    (xs : List α) :
    kleene dominant value (xs.map f) = kleene dominant (fun x => value (f x)) xs := by
  induction xs with
  | nil => rfl
  | cons x xs ih => simp [kleene, ih]

/-- Kleene combination over the instances of a quantifier, undecided without any. -/
def kleeneInstances {α : Type} (dominant : Bool) (value : α → Option Bool) (xs : List α) :
    Option Bool :=
  if xs.isEmpty then none else kleene dominant value xs

/-- All elements are equal, each to the next. -/
def allEqual : List Sentence → Bool
  | x :: y :: rest => x = y && allEqual (y :: rest)
  | _ => true

theorem Sentence.isTerm_of_sort? {s : Sentence} {sort : SortId} (h : s.sort? = some sort) :
    s.isTerm = true := by
  cases s <;> simp_all [sort?, isTerm]

namespace Lexicon

theorem isTerm_of_mem_values {lex : Lexicon} {var : SortId} {domain : List Sentence}
    {term : Sentence} (h : term ∈ lex.values var domain) : term.isTerm = true := by
  simp only [values, List.mem_filter] at h
  cases hs : term.sort? with
  | none => simp [hs] at h
  | some sort => exact Sentence.isTerm_of_sort? hs

/-- The instances of the body of a quantifier, for the terms of `domain` that the
variable ranges over. -/
def instances (lex : Lexicon) (domain : List Sentence) (v x : Sentence) : List Sentence :=
  match v.sort? with
  | none => []
  | some sort => Sentence.distinct ((lex.values sort domain).map (x.subst v))

/-- Instances are no more complex than the body. -/
theorem rank_of_mem_instances {lex : Lexicon} {domain : List Sentence} {v x inst : Sentence}
    (h : inst ∈ lex.instances domain v x) : inst.rank = x.rank := by
  unfold instances at h
  split at h
  · simp at h
  · next sort hv =>
      simp only [Sentence.mem_distinct, List.mem_map] at h
      obtain ⟨term, hterm, rfl⟩ := h
      exact Sentence.rank_subst (Sentence.isTerm_of_sort? hv) (isTerm_of_mem_values hterm) x

/-- The value of a sentence, as far as `lookup` and the instances for the terms
of `domain` decide it. -/
def evaluate (lex : Lexicon) (lookup : Sentence → Option Bool) (domain : List Sentence)
    (s : Sentence) : Option Bool :=
  match lookup s with
  | some value => some value
  | none =>
      match s with
      | .atom .. | .pred .. | .const .. | .var .. | .app .. => none
      | .equal xs => if allEqual xs then some true else none
      | .neg x => (lex.evaluate lookup domain x).map (!·)
      | .conj xs => kleene false (fun ⟨x, _⟩ => lex.evaluate lookup domain x) xs.attach
      | .disj xs => kleene true (fun ⟨x, _⟩ => lex.evaluate lookup domain x) xs.attach
      | .imp l r =>
          kleene true id
            [(lex.evaluate lookup domain l).map (!·), lex.evaluate lookup domain r]
      | .iff l r => do
          let left ← lex.evaluate lookup domain l
          let right ← lex.evaluate lookup domain r
          return left == right
      | .all v x =>
          kleeneInstances false
            (fun ⟨inst, _⟩ => if lex.contains inst then lex.evaluate lookup domain inst else none)
            (lex.instances domain v x).attach
      | .ex v x =>
          kleeneInstances true
            (fun ⟨inst, _⟩ => if lex.contains inst then lex.evaluate lookup domain inst else none)
            (lex.instances domain v x).attach
termination_by s.rank
decreasing_by
  all_goals simp only [Sentence.rank]
  all_goals
    first
    | omega
    | exact Nat.lt_succ_of_le (Sentence.rank_le_rankAll (by assumption))
    | rw [rank_of_mem_instances (by assumption)]
      exact Nat.lt_succ_self _

end Lexicon

end Tableau
