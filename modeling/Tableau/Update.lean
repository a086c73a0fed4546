/-
Changes that report whether they had any effect, one after the other and
repeated until nothing changes any more.
-/
namespace Tableau

/-- A change to a value, with a report whether it had any effect. -/
abbrev Update (α : Type) := α → α × Bool

namespace Update

variable {α β : Type}

/-- No change. -/
def skip : Update α := fun a => (a, false)

/-- One change after the other; it has an effect if either has. -/
def andThen (first second : Update α) : Update α := fun a =>
  let r := first a
  let r' := second r.1
  (r'.1, r.2 || r'.2)

/-- The change for every element of a list, in its order. -/
def each (change : β → Update α) : List β → Update α
  | [] => skip
  | x :: xs => andThen (change x) (each change xs)

theorem each_preserves {change : β → Update α} (keeps : α → Prop)
    (hkeeps : ∀ x a, keeps a → keeps (change x a).1) {a : α} (ha : keeps a) (xs : List β) :
    keeps (each change xs a).1 := by
  induction xs generalizing a with
  | nil => exact ha
  | cons x xs ih => exact ih (hkeeps x a ha)

theorem each_relates {δ : Type} {change : β → Update α} {change' : β → Update δ}
    (related : α → δ → Prop)
    (hstep : ∀ x a d, related a d → related (change x a).1 (change' x d).1) {a : α} {d : δ}
    (h : related a d) (xs : List β) : related (each change xs a).1 (each change' xs d).1 := by
  induction xs generalizing a d with
  | nil => exact h
  | cons x xs ih => exact ih (hstep x a d h)

/-- If every change gives an answer where there is none, the first one that is given stays. -/
theorem each_first {γ : Type} {change : β → Update α} (keeps : α → Prop) (answer : α → Option γ)
    (gives : β → Option γ) (hkeeps : ∀ x a, keeps a → keeps (change x a).1)
    (hstep : ∀ x a, keeps a → answer (change x a).1 = (answer a).or (gives x)) {a : α}
    (ha : keeps a) (xs : List β) :
    answer (each change xs a).1 = (answer a).or (xs.findSome? gives) := by
  induction xs generalizing a with
  | nil => exact Option.or_none.symm
  | cons x xs ih =>
      have hrest := ih (hkeeps x a ha)
      rw [hstep x a ha, Option.or_assoc] at hrest
      have hcons : (x :: xs).findSome? gives = (gives x).or (xs.findSome? gives) := by
        rw [List.findSome?_cons]
        cases gives x <;> rfl
      rw [hcons]
      exact hrest

/-- If every change may bring something about, it is brought about by one of them or was there. -/
theorem each_any {change : β → Update α} (keeps holds : α → Prop) (brings : β → Prop)
    (hkeeps : ∀ x a, keeps a → keeps (change x a).1)
    (hstep : ∀ x a, keeps a → (holds (change x a).1 ↔ holds a ∨ brings x)) {a : α} (ha : keeps a)
    (xs : List β) : holds (each change xs a).1 ↔ holds a ∨ ∃ x ∈ xs, brings x := by
  induction xs generalizing a with
  | nil => simp [each, skip]
  | cons x xs ih =>
      have hrest := ih (hkeeps x a ha)
      rw [hstep x a ha, or_assoc] at hrest
      simp only [List.mem_cons, exists_eq_or_imp]
      exact hrest

/-- The change reports every effect: where it reports none, it has none. -/
def IsHonest (change : Update α) : Prop := ∀ a, (change a).2 = false → (change a).1 = a

theorem IsHonest.eq_skip_iff {change : Update α} (h : change.IsHonest) {a : α} :
    change a = skip a ↔ (change a).2 = false := by
  constructor
  · intro hskip
    rw [hskip]
    rfl
  · intro hfalse
    exact Prod.ext (h a hfalse) hfalse

theorem isHonest_skip : (skip : Update α).IsHonest := fun _ _ => rfl

theorem IsHonest.andThen {first second : Update α} (h : first.IsHonest) (h' : second.IsHonest) :
    (first.andThen second).IsHonest := by
  intro a hfalse
  obtain ⟨hfirst, hsecond⟩ := Bool.or_eq_false_iff.mp hfalse
  exact (h' (first a).1 hsecond).trans (h a hfirst)

/-- Two changes have no effect together if and only if neither of them has. -/
theorem IsHonest.andThen_eq_skip_iff {first second : Update α} (h : first.IsHonest)
    (h' : second.IsHonest) {a : α} :
    first.andThen second a = skip a ↔ first a = skip a ∧ second a = skip a := by
  constructor
  · intro hskip
    have hfalse : (first.andThen second a).2 = false := (h.andThen h').eq_skip_iff.mp hskip
    obtain ⟨hfirst, hsecond⟩ := Bool.or_eq_false_iff.mp hfalse
    rw [h a hfirst] at hsecond
    exact ⟨h.eq_skip_iff.mpr hfirst, h'.eq_skip_iff.mpr hsecond⟩
  · rintro ⟨hfirst, hsecond⟩
    have hthen : first.andThen second a =
        ((second (first a).1).1, (first a).2 || (second (first a).1).2) := rfl
    rw [hthen, hfirst]
    exact hsecond

theorem isHonest_each {change : β → Update α} (h : ∀ x, (change x).IsHonest) (xs : List β) :
    (each change xs).IsHonest := by
  induction xs with
  | nil => exact isHonest_skip
  | cons x xs ih => exact (h x).andThen ih

/-- Changes one after the other have no effect if and only if none of them has. -/
theorem each_eq_skip_iff {change : β → Update α} (h : ∀ x, (change x).IsHonest) {xs : List β}
    {a : α} : each change xs a = skip a ↔ ∀ x ∈ xs, change x a = skip a := by
  induction xs with
  | nil => exact ⟨fun _ _ hx => absurd hx List.not_mem_nil, fun _ => rfl⟩
  | cons x xs ih =>
      rw [List.forall_mem_cons, ← ih]
      exact (h x).andThen_eq_skip_iff (isHonest_each h xs)

/-- A change that is skipped where it would have no effect reports every effect. -/
theorem of_guarded {guard : α → Bool} {change : Update α}
    (h : ∀ a, guard a = false → (change a).2 = true) :
    IsHonest (fun a => if guard a then (a, false) else change a) ∧
      ∀ a, (if guard a then (a, false) else change a) = skip a ↔ guard a = true := by
  have hflag : ∀ a, (if guard a then (a, false) else change a).2 = !guard a := by
    intro a
    cases hguard : guard a with
    | false => exact h a hguard
    | true => rfl
  have honest : IsHonest (fun a => if guard a then (a, false) else change a) := by
    intro a hfalse
    have hguard : guard a = true := by simpa [hflag] using hfalse
    simp only [hguard, if_true]
  refine ⟨honest, fun a => honest.eq_skip_iff.trans ?_⟩
  rw [hflag, Bool.not_eq_false']

/-- Repeats a change until it reports no effect, and counts the rounds on from
`round`. -/
@[specialize]
def untilStableFrom (change : Update α) : (fuel : Nat) → (round : Nat) → α → Option (α × Nat)
  | 0, _, _ => none
  | fuel + 1, round, a =>
      let r := change a
      if r.2 then untilStableFrom change fuel (round + 1) r.1 else some (r.1, round)

/-- Repeats a change until it reports no effect.  The result is given with the
number of rounds made, the last one included, and is missing if `fuel` rounds
are not enough. -/
@[inline]
def untilStable (change : Update α) (fuel : Nat) (a : α) : Option (α × Nat) :=
  untilStableFrom change fuel 1 a

end Update

end Tableau
