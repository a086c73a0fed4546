/-
Structures of many-sorted first-order logic, and what is true in them.  Putting a ground
term for a variable is the same as giving the variable the value of the term, and a
constant that does not occur in a sentence may be given any value of its sort.
-/
import Mathlib.Data.Set.Basic
import Mathlib.Logic.Function.Basic
import Tableau.Proofs.Sentence
import Tableau.Proofs.Valuation

namespace Tableau

theorem allEqual_iff {xs : List Sentence} : allEqual xs = true ↔ ∀ x ∈ xs, ∀ y ∈ xs, x = y := by
  induction xs with
  | nil => simp [allEqual]
  | cons x xs ih =>
      cases xs with
      | nil => simp [allEqual]
      | cons y ys =>
          simp only [allEqual, Bool.and_eq_true, decide_eq_true_eq, ih]
          constructor
          · rintro ⟨rfl, hsame⟩ a ha b hb
            exact hsame a (by simpa using ha) b (by simpa using hb)
          · intro hsame
            refine ⟨hsame x List.mem_cons_self y (by simp), ?_⟩
            intro a ha b hb
            exact hsame a (List.mem_cons_of_mem x ha) b (List.mem_cons_of_mem x hb)

universe u

/-- Meanings for all symbols, in a universe `U`.  No sort is empty, the values of a subsort
are values of its supersorts, and constants and functions have values of their sort.  A
function symbol is a name with a result sort, and all functions are total.  Equality is a
relation of which only reflexivity is known. -/
structure Structure (sorts : Sorts) (U : Type u) where
  domain : SortId → Set U
  domain_nonempty : ∀ sort, (domain sort).Nonempty
  domain_mono : ∀ sub sup, sorts.isSubsort sub sup = true → domain sub ⊆ domain sup
  const : String → SortId → U
  const_mem : ∀ name sort, const name sort ∈ domain sort
  func : String → SortId → List U → U
  func_mem : ∀ name sort args, func name sort args ∈ domain sort
  atom : String → Prop
  pred : String → List U → Prop
  equal : List U → Prop
  equal_of_same : ∀ args, (∀ a ∈ args, ∀ b ∈ args, a = b) → equal args

namespace Structure

variable {sorts : Sorts} {U : Type u} (M : Structure sorts U)

/-- Equality means that all its arguments are the same. -/
def IsNormal : Prop := ∀ args, M.equal args → ∀ a ∈ args, ∀ b ∈ args, a = b

mutual

/-- The value of a term, given those of the variables.  What is not a term has some
value, too. -/
def value (env : Sentence → U) : Sentence → U
  | s@(.var ..) => env s
  | .const name sort => M.const name sort
  | .app name sort xs => M.func name sort (values env xs)
  | .atom _ | .pred .. | .neg _ | .conj _ | .disj _ | .imp .. | .iff .. | .equal _
  | .all .. | .ex .. =>
      M.func "" SortId.object []
termination_by structural s => s

def values (env : Sentence → U) : List Sentence → List U
  | [] => []
  | x :: xs => value env x :: values env xs
termination_by structural xs => xs

end

/-- What the variable of a quantifier ranges over. -/
def range (binder : Sentence) : Set U := M.domain (binder.sort?.getD SortId.object)

mutual

/-- Whether a formula is true, given the values of the variables.  A term is not. -/
def holds (env : Sentence → U) (s : Sentence) : Prop :=
  match s with
  | .atom name => M.atom name
  | .pred name xs => M.pred name (M.values env xs)
  | .equal xs => M.equal (M.values env xs)
  | .neg x => ¬ holds env x
  | .conj xs => holdsAll env xs
  | .disj xs => holdsAny env xs
  | .imp l r => holds env l → holds env r
  | .iff l r => holds env l ↔ holds env r
  | .all v x => ∀ a ∈ M.range v, holds (Function.update env v a) x
  | .ex v x => ∃ a ∈ M.range v, holds (Function.update env v a) x
  | .const .. | .var .. | .app .. => False
termination_by structural s

def holdsAll (env : Sentence → U) (xs : List Sentence) : Prop :=
  match xs with
  | [] => True
  | x :: xs => holds env x ∧ holdsAll env xs
termination_by structural xs

def holdsAny (env : Sentence → U) (xs : List Sentence) : Prop :=
  match xs with
  | [] => False
  | x :: xs => holds env x ∨ holdsAny env xs
termination_by structural xs

end

variable {M} {env : Sentence → U}

@[simp]
theorem values_eq_map (xs : List Sentence) : M.values env xs = xs.map (M.value env) := by
  induction xs with
  | nil => rfl
  | cons x xs ih => simp [values, ih]

@[simp]
theorem holdsAll_iff {xs : List Sentence} : M.holdsAll env xs ↔ ∀ x ∈ xs, M.holds env x := by
  induction xs with
  | nil => simp [holdsAll]
  | cons x xs ih => simp [holdsAll, ih]

@[simp]
theorem holdsAny_iff {xs : List Sentence} : M.holdsAny env xs ↔ ∃ x ∈ xs, M.holds env x := by
  induction xs with
  | nil => simp [holdsAny]
  | cons x xs ih => simp [holdsAny, ih]

theorem not_holds_of_isTerm {s : Sentence} (h : s.isTerm = true) : ¬ M.holds env s := by
  cases s <;> simp_all [Sentence.isTerm, holds]

/-- Truth in a structure respects the connectives. -/
theorem isValuation_holds : IsValuation (M.holds env) where
  neg x := by simp [holds]
  conj xs := by simp [holds]
  disj xs := by simp [holds]
  imp l r := by simp [holds]
  iff l r := by simp [holds]
  equal xs h := by
    have hsame : ∀ x ∈ xs, ∀ y ∈ xs, x = y := allEqual_iff.mp h
    simp only [holds, values_eq_map]
    apply M.equal_of_same
    intro a ha b hb
    obtain ⟨x, hx, rfl⟩ := List.mem_map.mp ha
    obtain ⟨y, hy, rfl⟩ := List.mem_map.mp hb
    rw [hsame x hx y hy]

/-! Ground terms. -/

/-- Without variables the value of a term depends on nothing else. -/
theorem value_of_isGround {s : Sentence} (h : s.isGround = true) (env env' : Sentence → U) :
    M.value env s = M.value env' s := by
  induction s using Sentence.partsInduction with
  | step s ih =>
      cases s with
      | var => simp [Sentence.isGround] at h
      | app name sort xs =>
          have hxs : ∀ x ∈ xs, x.isGround = true := Sentence.areGround_iff.mp h
          have hvalues : xs.map (M.value env) = xs.map (M.value env') :=
            List.map_congr_left fun x hx => ih x hx (hxs x hx)
          simp [value, hvalues]
      | _ => rfl

/-- The value of a ground term belongs to its sort. -/
theorem value_mem_domain {s : Sentence} {sort : SortId} (h : s.isGroundTerm = true)
    (hsort : s.sort? = some sort) : M.value env s ∈ M.domain sort := by
  cases s with
  | const name sort' =>
      obtain rfl : sort' = sort := by simpa [Sentence.sort?] using hsort
      exact M.const_mem name sort'
  | app name sort' xs =>
      obtain rfl : sort' = sort := by simpa [Sentence.sort?] using hsort
      exact M.func_mem name sort' _
  | _ => simp [Sentence.isGroundTerm] at h

/-! Putting a ground term for a variable. -/

section Subst

variable {target term : Sentence} (htarget : target.isVariable = true)
include htarget

theorem value_subst (s : Sentence) (env : Sentence → U) :
    M.value env (s.subst target term) =
      M.value (Function.update env target (M.value env term)) s := by
  induction s using Sentence.partsInduction with
  | step s ih =>
      by_cases hs : s = target
      · subst hs
        cases s with
        | var => simp [Sentence.subst, value]
        | _ => simp [Sentence.isVariable] at htarget
      · cases s with
        | var => simp [Sentence.subst, hs, value]
        | app name sort xs =>
            have hvalues : (xs.map (·.subst target term)).map (M.value env) =
                xs.map (M.value (Function.update env target (M.value env term))) := by
              rw [List.map_map]
              exact List.map_congr_left fun x hx => ih x hx
            simp [Sentence.subst, hs, value, Sentence.substAll_eq_map, hvalues]
        | _ => simp [Sentence.subst, hs, value]

/-- A formula with a ground term for a variable is true if the formula is true when the
variable has the value of the term. -/
theorem holds_subst (hterm : term.isGroundTerm = true) (s : Sentence) (env : Sentence → U) :
    M.holds env (s.subst target term) ↔
      M.holds (Function.update env target (M.value env term)) s := by
  have hground : term.isGround = true := Sentence.isGround_of_isGroundTerm hterm
  induction s using Sentence.partsInduction generalizing env with
  | step s ih =>
      by_cases hs : s = target
      · subst hs
        have hvariable : s.isTerm = true := by
          cases s <;> simp_all [Sentence.isVariable, Sentence.isTerm]
        rw [Sentence.subst_self]
        exact iff_of_false (not_holds_of_isTerm (Sentence.isTerm_of_isGroundTerm hterm))
          (not_holds_of_isTerm hvariable)
      · have hvalues : ∀ xs : List Sentence, (Sentence.substAll xs target term).map (M.value env) =
            xs.map (M.value (Function.update env target (M.value env term))) := by
          intro xs
          rw [Sentence.substAll_eq_map, List.map_map]
          exact List.map_congr_left fun x _ => value_subst htarget x env
        -- The body of a quantifier is read with a value for its variable, and the value of
        -- the ground term stays the same.
        have hbody : ∀ (v x : Sentence) (a : U), x ∈ s.parts →
            (M.holds (Function.update env v a) (if v = target then x else x.subst target term) ↔
              M.holds (Function.update (Function.update env target (M.value env term)) v a) x) := by
          intro v x a hx
          split
          · next hv =>
              subst hv
              rw [Function.update_idem]
          · next hv =>
              have hx := ih x hx (Function.update env v a)
              rwa [value_of_isGround hground _ env, Function.update_comm hv] at hx
        cases s with
        | atom | const | var | app => simp [Sentence.subst, hs, holds]
        | pred name xs | equal xs => simp [Sentence.subst, hs, holds, hvalues]
        | neg x => simp [Sentence.subst, hs, holds, ih x (by simp [Sentence.parts])]
        | conj xs =>
            simp only [Sentence.subst, hs, if_false, holds, Sentence.substAll_eq_map, holdsAll_iff,
              List.forall_mem_map]
            exact forall₂_congr fun x hx => ih x hx env
        | disj xs =>
            simp only [Sentence.subst, hs, if_false, holds, Sentence.substAll_eq_map, holdsAny_iff,
              List.mem_map, exists_exists_and_eq_and]
            exact exists_congr fun x => and_congr_right fun hx => ih x hx env
        | imp l r | iff l r =>
            simp [Sentence.subst, hs, holds, ih l (by simp [Sentence.parts]),
              ih r (by simp [Sentence.parts])]
        | all v x | ex v x =>
            simp only [Sentence.subst, hs, if_false, holds]
            simp only [hbody v x _ (by simp [Sentence.parts])]

end Subst

/-! Giving a constant another value. -/

section SetConst

variable (M) {name : String} {sort : SortId} {a : U}

/-- The structure in which one constant has a given value of its sort. -/
def setConst (name : String) (sort : SortId) (a : U) (ha : a ∈ M.domain sort) :
    Structure sorts U :=
  { M with
    const := fun other sort' => if other = name ∧ sort' = sort then a else M.const other sort'
    const_mem := by
      intro other sort'
      split
      · next h => exact h.2 ▸ ha
      · exact M.const_mem other sort' }

variable (ha : a ∈ M.domain sort)

@[simp]
theorem value_setConst_self (env : Sentence → U) :
    (M.setConst name sort a ha).value env (.const name sort) = a := by
  simp [value, setConst]

theorem value_setConst {s : Sentence} (h : .const name sort ∉ s.subsentences)
    (env : Sentence → U) : (M.setConst name sort a ha).value env s = M.value env s := by
  induction s using Sentence.partsInduction with
  | step s ih =>
      cases s with
      | const other sort' =>
          have hne : ¬ (other = name ∧ sort' = sort) := by
            rintro ⟨rfl, rfl⟩
            exact h (Sentence.self_mem_subsentences _)
          simp [value, setConst, hne]
      | app f sort' xs =>
          have hvalues : xs.map ((M.setConst name sort a ha).value env) = xs.map (M.value env) :=
            List.map_congr_left fun x hx =>
              ih x hx fun hmem => h (Sentence.mem_subsentences_of_part hx hmem)
          simp only [value, values_eq_map, hvalues]
          rfl
      | _ => rfl

/-- Only sentences with the constant can tell the difference. -/
theorem holds_setConst {s : Sentence} (h : .const name sort ∉ s.subsentences)
    (env : Sentence → U) :
    (M.setConst name sort a ha).holds env s ↔ M.holds env s := by
  induction s using Sentence.partsInduction generalizing env with
  | step s ih =>
      have hparts : ∀ x ∈ s.parts, .const name sort ∉ x.subsentences :=
        fun x hx hmem => h (Sentence.mem_subsentences_of_part hx hmem)
      have ih : ∀ x ∈ s.parts, ∀ env : Sentence → U,
          ((M.setConst name sort a ha).holds env x ↔ M.holds env x) :=
        fun x hx => ih x hx (hparts x hx)
      have hvalues : s.parts.map ((M.setConst name sort a ha).value env) =
          s.parts.map (M.value env) :=
        List.map_congr_left fun x hx => M.value_setConst ha (hparts x hx) env
      cases s with
      | atom | const | var | app => exact Iff.rfl
      | pred P xs =>
          simp only [Sentence.parts] at hvalues
          simp only [holds, values_eq_map, hvalues]
          rfl
      | equal xs =>
          simp only [Sentence.parts] at hvalues
          simp only [holds, values_eq_map, hvalues]
          rfl
      | neg x => exact not_congr (ih x (by simp [Sentence.parts]) env)
      | conj xs =>
          simp only [holds, holdsAll_iff]
          exact forall₂_congr fun x hx => ih x hx env
      | disj xs =>
          simp only [holds, holdsAny_iff]
          exact exists_congr fun x => and_congr_right fun hx => ih x hx env
      | imp l r =>
          exact imp_congr (ih l (by simp [Sentence.parts]) env)
            (ih r (by simp [Sentence.parts]) env)
      | iff l r =>
          exact iff_congr (ih l (by simp [Sentence.parts]) env)
            (ih r (by simp [Sentence.parts]) env)
      | all v x => exact forall₂_congr fun b _ => ih x (by simp [Sentence.parts]) _
      | ex v x =>
          exact exists_congr fun b => and_congr_right fun _ => ih x (by simp [Sentence.parts]) _

end SetConst

end Structure

end Tableau
