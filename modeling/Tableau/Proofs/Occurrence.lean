/-
What does not occur in a sentence.  Of the kinds of sentence that may be missing, two
are never brought in by a rule: equalities, and quantifiers whose variable does not
occur free in their body.
-/
import Tableau.Proofs.Search.Heredity

namespace Tableau

namespace Sentence

/-- No sentence of a kind occurs. -/
def lacks (kind : Sentence → Bool) (s : Sentence) : Bool := s.subsentences.all (!kind ·)

variable {kind : Sentence → Bool} {s x target term v : Sentence}

theorem lacks_iff : s.lacks kind = true ↔ ∀ x ∈ s.subsentences, kind x = false := by
  simp [lacks]

theorem lacks_iff_parts :
    s.lacks kind = true ↔ kind s = false ∧ ∀ x ∈ s.parts, x.lacks kind = true := by
  refine ⟨fun h => ⟨?_, fun x hx => ?_⟩, fun ⟨hself, hparts⟩ => lacks_iff.mpr fun x hx => ?_⟩
  · exact lacks_iff.mp h s (self_mem_subsentences s)
  · exact lacks_iff.mpr fun y hy => lacks_iff.mp h y (mem_subsentences_of_part hx hy)
  · rcases mem_subsentences.mp hx with rfl | ⟨y, hy, hxy⟩
    · exact hself
    · exact lacks_iff.mp (hparts y hy) x hxy

theorem lacks_of_mem_subsentences (h : s.lacks kind = true) (hx : x ∈ s.subsentences) :
    x.lacks kind = true :=
  lacks_iff.mpr fun y hy => lacks_iff.mp h y (mem_subsentences_trans hx hy)

theorem lacks_subst (h : s.lacks kind = true) (hterm : term.lacks kind = true)
    (hkind : ∀ x, x ≠ target → kind x = false → kind (x.subst target term) = false) :
    (s.subst target term).lacks kind = true := by
  refine lacks_iff.mpr fun x hx => ?_
  rcases mem_subsentences_subst hx with hmem | ⟨y, hy, rfl | ⟨hne, rfl⟩⟩
  · exact lacks_iff.mp hterm x hmem
  · exact lacks_iff.mp h x hy
  · exact hkind y hne (lacks_iff.mp h y hy)

/-- The rules bring in nothing of a kind that terms, negations, duals and instances are
not of. -/
theorem hereditary_lacks (sorts : Sorts) (hconst : ∀ name sort, kind (const name sort) = false)
    (hneg : ∀ x, kind (neg x) = false)
    (hdualAll : ∀ v x, kind (all v x) = false → kind (ex v (neg x)) = false)
    (hdualEx : ∀ v x, kind (ex v x) = false → kind (all v (neg x)) = false)
    (hsubst : ∀ v x y term, kind (all v x) = false ∨ kind (ex v x) = false →
      term.isGroundTerm = true → term.lacks kind = true → y ≠ v → kind y = false →
      kind (y.subst v term) = false) :
    Rule.Hereditary sorts (·.lacks kind = true) (·.lacks kind = true) where
  alternative := by
    intro s value alternatives halts hs facts hfacts fact hfact
    rcases mem_parts_of_alternatives? halts hfacts hfact with ⟨-, heq⟩ | ⟨-, hpart⟩
    · rwa [heq]
    · exact (lacks_iff_parts.mp hs).2 _ hpart
  dualAll v x hs := by
    obtain ⟨hself, hparts⟩ := lacks_iff_parts.mp hs
    have hx : (neg x).lacks kind = true :=
      lacks_iff_parts.mpr ⟨hneg x, by simpa [parts] using hparts x (by simp [parts])⟩
    exact lacks_iff_parts.mpr ⟨hdualAll v x hself, by simp_all [parts]⟩
  dualEx v x hs := by
    obtain ⟨hself, hparts⟩ := lacks_iff_parts.mp hs
    have hx : (neg x).lacks kind = true :=
      lacks_iff_parts.mpr ⟨hneg x, by simpa [parts] using hparts x (by simp [parts])⟩
    exact lacks_iff_parts.mpr ⟨hdualEx v x hself, by simp_all [parts]⟩
  instAll v x term hs hinst hterm := by
    obtain ⟨hself, hparts⟩ := lacks_iff_parts.mp hs
    exact lacks_subst (hparts x (by simp [parts])) hterm fun y =>
      hsubst v x y term (Or.inl hself) hinst.ground hterm
  instEx v x term hs hinst hterm := by
    obtain ⟨hself, hparts⟩ := lacks_iff_parts.mp hs
    exact lacks_subst (hparts x (by simp [parts])) hterm fun y =>
      hsubst v x y term (Or.inr hself) hinst.ground hterm
  const name sort := lacks_iff_parts.mpr ⟨hconst name sort, by simp [parts]⟩
  mentioned _ _ hs hmem _ := lacks_of_mem_subsentences hs hmem

/-! Equality. -/

def isEquality : Sentence → Bool
  | equal _ => true
  | _ => false

theorem hereditary_lacks_isEquality (sorts : Sorts) :
    Rule.Hereditary sorts (·.lacks isEquality = true) (·.lacks isEquality = true) := by
  refine hereditary_lacks sorts (by simp [isEquality]) (by simp [isEquality]) (by simp [isEquality])
    (by simp [isEquality]) ?_
  intro v x y term _ _ _ hne hy
  cases y <;> simp_all [subst, isEquality]

/-! Free variables. -/

mutual

/-- A variable occurs free in a sentence. -/
def occursFreeIn (v : Sentence) : Sentence → Bool
  | s@(var ..) => s = v
  | atom _ | const .. => false
  | app _ _ xs | pred _ xs | conj xs | disj xs | equal xs => occursFreeInAny v xs
  | neg x => occursFreeIn v x
  | imp l r | iff l r => occursFreeIn v l || occursFreeIn v r
  | all w x | ex w x => w ≠ v && occursFreeIn v x
termination_by structural s => s

def occursFreeInAny (v : Sentence) : List Sentence → Bool
  | [] => false
  | x :: xs => occursFreeIn v x || occursFreeInAny v xs
termination_by structural xs => xs

end

/-- A quantifier whose variable does not occur free in its body. -/
def isVacuous : Sentence → Bool
  | all v x | ex v x => !v.occursFreeIn x
  | _ => false

theorem occursFreeInAny_iff {xs : List Sentence} :
    v.occursFreeInAny xs = true ↔ ∃ x ∈ xs, v.occursFreeIn x = true := by
  induction xs with
  | nil => simp [occursFreeInAny]
  | cons x xs ih => simp [occursFreeInAny, ih]

theorem isVariable_of_occursFreeIn (h : v.occursFreeIn s = true) : v.isVariable = true := by
  induction s using partsInduction with
  | step s ih =>
      cases s with
      | atom | const => simp [occursFreeIn] at h
      | var name sort =>
          obtain rfl : var name sort = v := by simpa [occursFreeIn] using h
          rfl
      | app _ _ xs | pred _ xs | conj xs | disj xs | equal xs =>
          obtain ⟨x, hx, hfree⟩ := occursFreeInAny_iff.mp h
          exact ih x hx hfree
      | neg x => exact ih x (by simp [parts]) h
      | imp l r | iff l r =>
          rcases Bool.or_eq_true_iff.mp h with hl | hr
          · exact ih l (by simp [parts]) hl
          · exact ih r (by simp [parts]) hr
      | all w x | ex w x => exact ih x (by simp [parts]) (Bool.and_eq_true_iff.mp h).2

/-- Putting a term for a variable brings the term in where the variable occurs free. -/
theorem mem_subsentences_subst_of_occursFreeIn (term : Sentence) (h : v.occursFreeIn s = true) :
    term ∈ (s.subst v term).subsentences := by
  induction s using partsInduction with
  | step s ih =>
      by_cases hs : s = v
      · rw [hs, subst_self]
        exact self_mem_subsentences term
      · cases s with
        | atom | const => simp [occursFreeIn] at h
        | var name sort => simp [occursFreeIn, hs] at h
        | app _ _ xs | pred _ xs | conj xs | disj xs | equal xs =>
            obtain ⟨x, hx, hfree⟩ := occursFreeInAny_iff.mp h
            refine mem_subsentences_of_part (x := x.subst v term) ?_ (ih x hx hfree)
            simp only [subst, hs, if_false, parts, substAll_eq_map]
            exact List.mem_map_of_mem hx
        | neg x =>
            refine mem_subsentences_of_part (x := x.subst v term) ?_ (ih x (by simp [parts]) h)
            simp [subst, hs, parts]
        | imp l r | iff l r =>
            rcases Bool.or_eq_true_iff.mp h with hl | hr
            · refine mem_subsentences_of_part (x := l.subst v term) ?_ (ih l (by simp [parts]) hl)
              simp [subst, hs, parts]
            · refine mem_subsentences_of_part (x := r.subst v term) ?_ (ih r (by simp [parts]) hr)
              simp [subst, hs, parts]
        | all w x | ex w x =>
            simp only [occursFreeIn, decide_eq_true_eq, Bool.and_eq_true] at h
            refine mem_subsentences_of_part (x := x.subst v term) ?_ (ih x (by simp [parts]) h.2)
            simp [subst, hs, parts, h.1]

/-- Other variables still occur free. -/
theorem occursFreeIn_subst (htarget : target.isVariable = true) (hne : v ≠ target)
    (h : v.occursFreeIn s = true) : v.occursFreeIn (s.subst target term) = true := by
  induction s using partsInduction with
  | step s ih =>
      have hs : s ≠ target := by
        rintro rfl
        cases s <;> simp_all [isVariable, occursFreeIn]
      cases s with
      | atom | const => simp [occursFreeIn] at h
      | var name sort => simpa [subst, hs] using h
      | app _ _ xs | pred _ xs | conj xs | disj xs | equal xs =>
          obtain ⟨x, hx, hfree⟩ := occursFreeInAny_iff.mp h
          simp only [subst, hs, if_false, substAll_eq_map, occursFreeIn, occursFreeInAny_iff]
          exact ⟨_, List.mem_map_of_mem hx, ih x hx hfree⟩
      | neg x => simpa [subst, hs, occursFreeIn] using ih x (by simp [parts]) h
      | imp l r | iff l r =>
          simp only [subst, hs, if_false, occursFreeIn, Bool.or_eq_true] at h ⊢
          exact h.imp (ih l (by simp [parts])) (ih r (by simp [parts]))
      | all w x | ex w x =>
          simp only [subst, hs, if_false, occursFreeIn, Bool.and_eq_true] at h ⊢
          refine ⟨h.1, ?_⟩
          split
          · exact h.2
          · exact ih x (by simp [parts]) h.2

theorem hereditary_lacks_isVacuous (sorts : Sorts) :
    Rule.Hereditary sorts (·.lacks isVacuous = true) (·.lacks isVacuous = true) := by
  refine hereditary_lacks sorts (by simp [isVacuous]) (by simp [isVacuous])
    (by simp [isVacuous, occursFreeIn]) (by simp [isVacuous, occursFreeIn]) ?_
  intro v x y term hx _ _ hne hy
  have hv : v.isVariable = true := by
    apply isVariable_of_occursFreeIn (s := x)
    simpa [isVacuous] using hx
  cases y with
  | all w z | ex w z =>
      simp only [subst, hne, if_false, isVacuous, Bool.not_eq_false'] at hy ⊢
      split
      · exact hy
      · next hw => exact occursFreeIn_subst hv hw hy
  | _ => simp [subst, hne, isVacuous]

end Sentence

/-- What the premises and goals lack is not among the facts that a search begins with. -/
theorem Prover.lacks_of_mem_rootFacts {premises goals : List Sentence} {kind : Sentence → Bool}
    (hkind : ∀ xs, kind (.conj xs) = false)
    (h : ∀ s ∈ premises ++ goals, s.lacks kind = true) :
    ∀ fact ∈ rootFacts premises goals, fact.sentence.lacks kind = true := by
  refine of_mem_rootFacts (fun s hs => h s (List.mem_append_left _ hs))
    (fun s hs => h s (List.mem_append_right _ hs)) fun xs hxs => ?_
  exact Sentence.lacks_iff_parts.mpr ⟨hkind xs, hxs⟩

end Tableau
