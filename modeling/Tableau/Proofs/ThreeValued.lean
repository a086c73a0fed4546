/-
Three-valued evaluation.  A value that is decided stays decided when more values are given,
for unknown values are never taken for true or false.  The evaluation of a quantifier goes on
to instances, which may have been entered long after the quantifier, but each of them has a
smaller rank, so that it comes to an end.  Without quantifiers and equality, and with values
for all atoms, it is classical.
-/
import Tableau.Proofs.Evaluation
import Tableau.Proofs.Substitution
import Tableau.Proofs.WellFormedness

namespace Tableau

/-! Kleene combinations. -/

section Kleene

variable {α β : Type} {dominant truth : Bool} {value value' : α → Option Bool} {xs ys : List α}

/-- What is decided stays decided when more is known of the elements. -/
theorem kleene_mono (h : ∀ x ∈ xs, ∀ truth, value x = some truth → value' x = some truth)
    (hk : kleene dominant value xs = some truth) : kleene dominant value' xs = some truth := by
  rw [kleene_eq_some_iff] at hk ⊢
  split
  · next heq =>
      rw [if_pos heq] at hk
      obtain ⟨x, hx, hvalue⟩ := hk
      exact ⟨x, hx, h x hx truth hvalue⟩
  · next hne =>
      rw [if_neg hne] at hk
      exact fun x hx => h x hx truth (hk x hx)

/-- Neither order nor repetitions matter. -/
theorem kleene_congr (h : ∀ x, x ∈ xs ↔ x ∈ ys) :
    kleene dominant value xs = kleene dominant value ys := by
  apply Option.ext
  intro truth
  simp only [kleene_eq_some_iff, h]

theorem kleeneInstances_map (dominant : Bool) (value : β → Option Bool) (f : α → β) (xs : List α) :
    kleeneInstances dominant value (xs.map f) =
      kleeneInstances dominant (fun x => value (f x)) xs := by
  rw [kleeneInstances, kleeneInstances, kleene_map, List.isEmpty_map]

theorem kleeneInstances_congr (h : ∀ x, x ∈ xs ↔ x ∈ ys) :
    kleeneInstances dominant value xs = kleeneInstances dominant value ys := by
  have hempty : xs.isEmpty = ys.isEmpty := by
    rw [Bool.eq_iff_iff, List.isEmpty_iff, List.isEmpty_iff, List.eq_nil_iff_forall_not_mem,
      List.eq_nil_iff_forall_not_mem]
    simp only [h]
  rw [kleeneInstances, kleeneInstances, hempty, kleene_congr h]

theorem kleeneInstances_mono (h : ∀ x ∈ xs, ∀ truth, value x = some truth → value' x = some truth)
    (hk : kleeneInstances dominant value xs = some truth) :
    kleeneInstances dominant value' xs = some truth := by
  unfold kleeneInstances at hk ⊢
  split
  · next hempty => simp [hempty] at hk
  · next hempty =>
      rw [if_neg hempty] at hk
      exact kleene_mono h hk

end Kleene

/-! Connectives. -/

/-- The value of a connective, given those of its parts, and of a quantifier, given those of its
instances. -/
def Symbol.combine : Symbol → List (Option Bool) → Option Bool
  | neg, [x] => x.map (!·)
  | conj, xs => kleene false id xs
  | disj, xs => kleene true id xs
  | imp, [l, r] => kleene true id [l.map (!·), r]
  | iff, [l, r] => do return (← l) == (← r)
  | all, xs => kleeneInstances false id xs
  | ex, xs => kleeneInstances true id xs
  | _, _ => none

namespace Symbol

variable {α : Type} {xs : List α} {f g : α → Option Bool} {value : Bool} {l r : Option Bool}

theorem combine_imp_true : imp.combine [l, r] = some true ↔ l = some false ∨ r = some true := by
  rcases l with _ | _ | _ <;> rcases r with _ | _ | _ <;> simp [combine, kleene]

theorem combine_imp_false : imp.combine [l, r] = some false ↔ l = some true ∧ r = some false := by
  rcases l with _ | _ | _ <;> rcases r with _ | _ | _ <;> simp [combine, kleene]

/-- What is decided stays decided when more is known of the parts or instances. -/
theorem combine_mono {symbol : Symbol} (h : ∀ x ∈ xs, ∀ value, f x = some value → g x = some value)
    (hs : symbol.combine (xs.map f) = some value) : symbol.combine (xs.map g) = some value := by
  cases symbol with
  | neg =>
      obtain ⟨x, rfl⟩ : ∃ x, xs = [x] := by
        rcases xs with _ | ⟨x, _ | ⟨y, ys⟩⟩ <;> simp_all [combine]
      obtain ⟨v, hv, rfl⟩ := Option.map_eq_some_iff.mp hs
      exact Option.map_eq_some_iff.mpr ⟨v, h x List.mem_cons_self v hv, rfl⟩
  | conj | disj =>
      simp only [combine, kleene_map, id] at hs ⊢
      exact kleene_mono h hs
  | imp =>
      obtain ⟨l, r, rfl⟩ : ∃ l r, xs = [l, r] := by
        rcases xs with _ | ⟨x, _ | ⟨y, _ | ⟨z, zs⟩⟩⟩ <;> simp_all [combine]
      have hl := h l (by simp)
      have hr := h r (by simp)
      cases value with
      | true => exact combine_imp_true.mpr ((combine_imp_true.mp hs).imp (hl false) (hr true))
      | false => exact combine_imp_false.mpr ((combine_imp_false.mp hs).imp (hl true) (hr false))
  | iff =>
      obtain ⟨l, r, rfl⟩ : ∃ l r, xs = [l, r] := by
        rcases xs with _ | ⟨x, _ | ⟨y, _ | ⟨z, zs⟩⟩⟩ <;> simp_all [combine]
      obtain ⟨left, hleft, hs⟩ := Option.bind_eq_some_iff.mp hs
      obtain ⟨right, hright, hs⟩ := Option.bind_eq_some_iff.mp hs
      have hl := h l (by simp) left hleft
      have hr := h r (by simp) right hright
      simpa [combine, hl, hr] using hs
  | all | ex =>
      simp only [combine, kleeneInstances_map, id] at hs ⊢
      exact kleeneInstances_mono h hs
  | _ => simp [combine] at hs

end Symbol

theorem Sentence.rank_lt_of_isConnective {s x : Sentence} (hs : s.isConnective = true)
    (hx : x ∈ s.parts) : x.rank < s.rank := by
  apply rank_lt_of_mem_parts _ _ _ hx <;>
    cases s <;> simp_all [isConnective, isTerminal, isTerm, isQuantifier]

theorem Sentence.symbol_ne_equal {s : Sentence} (hs : s.isConnective = true) :
    s.symbol ≠ .equal := by
  cases s <;> simp_all [isConnective, symbol]

theorem Sentence.exists_of_isQuantifier {s : Sentence} (hs : s.isQuantifier = true) :
    ∃ v x, (s = .all v x ∨ s = .ex v x) ∧ x.rank < s.rank := by
  cases s with
  | all v x => exact ⟨v, x, Or.inl rfl, Nat.lt_succ_self _⟩
  | ex v x => exact ⟨v, x, Or.inr rfl, Nat.lt_succ_self _⟩
  | _ => simp [isQuantifier] at hs

namespace Lexicon

variable {lex : Lexicon} {lookup lookup' : Sentence → Option Bool} {domain : List Sentence}
  {s v x : Sentence} {value : Bool}

theorem evaluate_of_quantifier (hs : s = .all v x ∨ s = .ex v x) (hnone : lookup s = none) :
    lex.evaluate lookup domain s =
      s.symbol.combine ((lex.instances domain v x).map (lex.evaluateEntered lookup domain)) := by
  rcases hs with rfl | rfl
  · rw [evaluate_all hnone, Sentence.symbol, Symbol.combine, kleeneInstances_map]
    rfl
  · rw [evaluate_ex hnone, Sentence.symbol, Symbol.combine, kleeneInstances_map]
    rfl

theorem evaluate_of_isConnective (hs : s.isConnective = true) (hnone : lookup s = none) :
    lex.evaluate lookup domain s = s.symbol.combine (s.parts.map (lex.evaluate lookup domain)) := by
  cases s with
  | conj xs =>
      rw [evaluate_conj hnone, Sentence.symbol, Sentence.parts, Symbol.combine, kleene_map]
      rfl
  | disj xs =>
      rw [evaluate_disj hnone, Sentence.symbol, Sentence.parts, Symbol.combine, kleene_map]
      rfl
  | neg x | imp l r | iff l r =>
      rw [evaluate, hnone]
      rfl
  | _ => simp [Sentence.isConnective] at hs

/-- What the lookup does not know and what is neither a connective nor a quantifier has the value
that it has by itself. -/
theorem evaluate_of_basic (hconnective : s.isConnective = false)
    (hquantifier : s.isQuantifier = false) (hnone : lookup s = none) (hnone' : lookup' s = none) :
    lex.evaluate lookup domain s = lex.evaluate lookup' domain s := by
  cases s with
  | neg | conj | disj | imp | iff => simp [Sentence.isConnective] at hconnective
  | all | ex => simp [Sentence.isQuantifier] at hquantifier
  | _ => rw [evaluate, evaluate, hnone, hnone']

theorem evaluate_of_isAtomic (hs : s.isAtomic = true) :
    lex.evaluate lookup domain s = lookup s := by
  cases hlookup : lookup s with
  | some value => exact evaluate_of_lookup hlookup
  | none =>
      cases s with
      | atom | pred => rw [evaluate, hlookup]
      | _ => simp [Sentence.isAtomic] at hs

/-- Induction on the rank, which is smaller for the parts of a connective as well as for the
instances of a quantifier. -/
theorem evaluate_mono (hatomic : ∀ x value, lookup' x = some value → x.isAtomic = true)
    (hextends : ∀ x value, lookup x = some value → lookup' x = some value)
    (h : lex.evaluate lookup domain s = some value) :
    lex.evaluate lookup' domain s = some value := by
  induction hrank : s.rank using Nat.strongRecOn generalizing s value with
  | ind rank ih =>
      subst hrank
      by_cases hs : s.isAtomic = true
      · rw [evaluate_of_isAtomic hs] at h ⊢
        exact hextends s value h
      · have hnone' : lookup' s = none :=
          Option.eq_none_iff_forall_ne_some.mpr fun v hv => hs (hatomic s v hv)
        have hnone : lookup s = none := Option.eq_none_iff_forall_ne_some.mpr fun v hv => by
          rw [hextends s v hv] at hnone'
          contradiction
        cases hconnective : s.isConnective with
        | true =>
            rw [evaluate_of_isConnective hconnective hnone] at h
            rw [evaluate_of_isConnective hconnective hnone']
            refine Symbol.combine_mono (fun x hx v hv => ih x.rank ?_ hv rfl) h
            exact Sentence.rank_lt_of_isConnective hconnective hx
        | false =>
            cases hquantifier : s.isQuantifier with
            | true =>
                obtain ⟨v, x, hs, hx⟩ := Sentence.exists_of_isQuantifier hquantifier
                rw [evaluate_of_quantifier hs hnone] at h
                rw [evaluate_of_quantifier hs hnone']
                refine Symbol.combine_mono (fun inst hinst truth htruth => ?_) h
                unfold evaluateEntered at htruth ⊢
                split
                · next hentered =>
                    rw [if_pos hentered] at htruth
                    exact ih inst.rank (rank_of_mem_instances hinst ▸ hx) htruth rfl
                · next hmissing => simp [hmissing] at htruth
            | false => rwa [← evaluate_of_basic hconnective hquantifier hnone hnone']

/-! Evaluation by numbers. -/

/-- The sort of the term with a number. -/
def sortOf? (lex : Lexicon) (n : Nat) : Option SortId := lex.entries[n]?.bind (·.sort?)

/-- The numbers of the instances of the body with the number `x`, for the terms of `domain` that the
variable with the number `v` ranges over.  The number of an instance is missing if it is not
entered. -/
def instanceNumbers (lex : Lexicon) (domain : List Nat) (v x : Nat) : List (Option Nat) :=
  ((lex.sortOf? v).elim [] fun sort =>
    domain.filter fun term => (lex.sortOf? term).any (lex.ranges sort)).map (lex.findNumber? x v)

/-- The numbers of the parts of a connective or of the instances of a quantifier. -/
def consulted (lex : Lexicon) (domain : List Nat) : Shape → List (Option Nat)
  | ⟨.all, [v, x]⟩ | ⟨.ex, [v, x]⟩ => lex.instanceNumbers domain v x
  | ⟨.neg, parts⟩ | ⟨.conj, parts⟩ | ⟨.disj, parts⟩ | ⟨.imp, parts⟩ | ⟨.iff, parts⟩ =>
      parts.map some
  | _ => []

/-- The value of the sentence with a number, found by going from numbers to the numbers of parts
and instances.  All of them are valued, even if one of them is enough.  The result is missing if
this goes deeper than `depth`. -/
def evaluateNumber? (lex : Lexicon) (lookup : Nat → Option Bool) (domain : List Nat) :
    (depth : Nat) → Nat → Option (Option Bool)
  | 0, _ => none
  | depth + 1, n =>
      match lookup n with
      | some value => some (some value)
      | none =>
          (lex.shape? n).bind fun shape =>
            if shape.symbol = .equal then
              some (if ∀ a ∈ shape.parts, ∀ b ∈ shape.parts, a = b then some true else none)
            else
              let values := (lex.consulted domain shape).mapM fun (m : Option Nat) =>
                m.elim (some none) (lex.evaluateNumber? lookup domain depth)
              values.map shape.symbol.combine

/-- What is looked up for the sentence with a number. -/
def lookupNumber (lex : Lexicon) (lookup : Sentence → Option Bool) (n : Nat) : Option Bool :=
  lex.entries[n]?.bind lookup

/-- The terms of a domain that a variable ranges over. -/
def range (lex : Lexicon) (domain : List Sentence) (v : Sentence) : List Sentence :=
  v.sort?.elim [] fun sort => lex.values sort domain

theorem instances_eq (lex : Lexicon) (domain : List Sentence) (v x : Sentence) :
    lex.instances domain v x = Sentence.distinct ((lex.range domain v).map (x.subst v)) := by
  unfold instances range
  cases v.sort? <;> rfl

theorem consulted_of_isConnective (hs : s.isConnective = true) (numbers parts : List Nat) :
    lex.consulted numbers ⟨s.symbol, parts⟩ = parts.map some := by
  cases s with
  | neg | conj | disj | imp | iff => rfl
  | _ => simp [Sentence.isConnective] at hs

/-- Of equal instances one is enough. -/
theorem combine_instances (hs : s = .all v x ∨ s = .ex v x) (f : Sentence → Option Bool) :
    s.symbol.combine ((lex.instances domain v x).map f) =
      s.symbol.combine ((lex.range domain v).map fun term => f (x.subst v term)) := by
  have hmem : ∀ y, y ∈ lex.instances domain v x ↔ y ∈ (lex.range domain v).map (x.subst v) := by
    intro y
    rw [instances_eq, Sentence.mem_distinct]
  rcases hs with rfl | rfl
  all_goals
    simp only [Sentence.symbol, Symbol.combine, kleeneInstances_map, kleeneInstances_congr hmem]

/-- Different sentences have different numbers. -/
theorem IsOrderly.allEqual_numbers_iff (h : lex.IsOrderly) {xs : List Sentence}
    (hxs : ∀ x ∈ xs, x ∈ lex.entries) :
    (∀ a ∈ xs.map (lex.number ·.key), ∀ b ∈ xs.map (lex.number ·.key), a = b) ↔
      allEqual xs = true := by
  simp only [List.forall_mem_map, allEqual_iff]
  refine forall₂_congr fun x hx => forall₂_congr fun y hy => ⟨fun heq => ?_, fun heq => heq ▸ rfl⟩
  have hget := h.getElem?_number (hxs x hx)
  rw [heq, h.getElem?_number (hxs y hy)] at hget
  exact (Option.some.inj hget).symm

namespace IsOrderly

variable {numbers : List Nat} {a b n : Nat} (h : lex.IsOrderly)
  (hdomain : lex.Number numbers domain)
include h hdomain

theorem instanceNumbers_eq (ha : lex.entries[a]? = some v) (hb : lex.entries[b]? = some x) :
    lex.instanceNumbers numbers a b =
      (lex.range domain v).map fun term => lex.number? (x.subst v term) := by
  obtain ⟨rfl, hentered⟩ := h.number_iff.mp hdomain
  have hsort : ∀ term ∈ domain, lex.sortOf? (lex.number term) = term.sort? := by
    intro term hterm
    rw [sortOf?, h.getElem?_number (hentered term hterm), Option.bind_some]
  have hv : lex.sortOf? a = v.sort? := by rw [sortOf?, ha, Option.bind_some]
  rw [instanceNumbers, range, hv]
  cases v.sort? with
  | none => rfl
  | some sort =>
      simp only [Option.elim_some, values, List.filter_map, List.map_map]
      have hfilter : domain.filter ((fun term => (lex.sortOf? term).any (lex.ranges sort)) ∘
          fun term => lex.number term.key) =
            domain.filter fun term => term.sort?.any (lex.ranges sort) :=
        List.filter_congr fun term hterm => by rw [Function.comp_apply, hsort term hterm]
      rw [hfilter]
      refine List.map_congr_left fun term hterm => ?_
      exact h.findNumber?_eq hb ha (h.getElem?_number (hentered term (List.mem_filter.mp hterm).1))

/-- What is found by the numbers of the instances of a quantifier is what they evaluate to. -/
theorem mapM_instanceNumbers {eval : Nat → Option (Option Bool)} (ha : lex.entries[a]? = some v)
    (hb : lex.entries[b]? = some x)
    (heval : ∀ m inst, inst ∈ lex.instances domain v x → lex.entries[m]? = some inst →
      eval m = some (lex.evaluate lookup domain inst)) :
    (lex.instanceNumbers numbers a b).mapM (fun m => m.elim (some none) eval) =
      some ((lex.range domain v).map fun term =>
        lex.evaluateEntered lookup domain (x.subst v term)) := by
  rw [h.instanceNumbers_eq hdomain ha hb, mapM_eq_some_iff, List.forall₂_map_left_iff,
    List.forall₂_map_right_iff, List.forall₂_same]
  intro term hterm
  have hinst : x.subst v term ∈ lex.instances domain v x := by
    rw [instances_eq, Sentence.mem_distinct]
    exact List.mem_map_of_mem hterm
  cases hnumber : lex.number? (x.subst v term) with
  | none => simp [evaluateEntered, contains, hnumber]
  | some m =>
      have hm := h.number?_eq_some_iff.mp hnumber
      rw [evaluateEntered_of_mem (List.mem_of_getElem? hm)]
      exact heval m _ hinst hm

/-- Going from number to number never goes deeper than the rank, and finds the value. -/
theorem evaluateNumber?_eq {depth : Nat} (hdepth : s.rank < depth) (hn : lex.entries[n]? = some s) :
    lex.evaluateNumber? (lex.lookupNumber lookup) numbers depth n =
      some (lex.evaluate lookup domain s) := by
  induction depth generalizing n s with
  | zero => exact absurd hdepth (Nat.not_lt_zero _)
  | succ depth ih =>
      have hshape : lex.shape? n = some ⟨s.symbol, s.parts.map (lex.number ·.key)⟩ := by
        rw [shape?, hn]
        rfl
      have hentered := h.hasParts s (List.mem_of_getElem? hn)
      rw [evaluateNumber?, lookupNumber, hn, Option.bind_some]
      cases hlookup : lookup s with
      | some value => rw [evaluate_of_lookup hlookup]
      | none =>
          simp only [hshape, Option.bind_some]
          cases hconnective : s.isConnective with
          | true =>
              rw [if_neg (Sentence.symbol_ne_equal hconnective),
                consulted_of_isConnective hconnective, evaluate_of_isConnective hconnective hlookup]
              refine Option.map_eq_some_iff.mpr ⟨_, ?_, rfl⟩
              rw [mapM_eq_some_iff, List.map_map, List.forall₂_map_left_iff,
                List.forall₂_map_right_iff, List.forall₂_same]
              intro x hx
              have hrank := Sentence.rank_lt_of_isConnective hconnective hx
              exact ih (Nat.lt_of_lt_of_le hrank (Nat.le_of_lt_succ hdepth))
                (h.getElem?_number (hentered x hx))
          | false =>
              cases hquantifier : s.isQuantifier with
              | true =>
                  obtain ⟨v, x, hs, hx⟩ := Sentence.exists_of_isQuantifier hquantifier
                  have hparts : s.parts = [v, x] := by rcases hs with rfl | rfl <;> rfl
                  have hv := h.getElem?_number (hentered v (by simp [hparts]))
                  have hbody := h.getElem?_number (hentered x (by simp [hparts]))
                  have hrank := Nat.lt_of_lt_of_le hx (Nat.le_of_lt_succ hdepth)
                  have hvalues := h.mapM_instanceNumbers hdomain hv hbody fun m inst hinst hm =>
                    ih (rank_of_mem_instances hinst ▸ hrank) hm
                  rw [hparts, evaluate_of_quantifier hs hlookup, combine_instances hs]
                  rcases hs with rfl | rfl
                  · exact congrArg (Option.map _) hvalues
                  · exact congrArg (Option.map _) hvalues
              | false =>
                  cases s with
                  | equal xs =>
                      have hequal : (Sentence.equal xs).symbol = .equal := rfl
                      rw [if_pos hequal, evaluate, hlookup]
                      exact congrArg some (if_congr (h.allEqual_numbers_iff hentered) rfl rfl)
                  | neg | conj | disj | imp | iff => simp [Sentence.isConnective] at hconnective
                  | all | ex => simp [Sentence.isQuantifier] at hquantifier
                  | _ =>
                     rw [evaluate, hlookup]
                     rfl

end IsOrderly

/-! Classical truth. -/

/-- With values for all parts, the combination is the classical one. -/
theorem combine_truth (hs : s.isConnective = true) (v : Sentence → Bool) :
    s.symbol.combine (s.parts.map fun x => some (x.truth v)) = some (s.truth v) := by
  cases s with
  | neg x => rfl
  | conj xs =>
      simp only [Sentence.symbol, Sentence.parts, Symbol.combine, kleene_map, kleene_eq_some_iff,
        Sentence.truth, id, Option.some.injEq]
      split
      · next hfalse =>
          have hnot : ¬ ∀ x ∈ xs, x.truth v = true :=
            mt Sentence.truthAll_iff.mpr (by simp [hfalse])
          simpa [hfalse] using hnot
      · next htrue =>
          rw [Bool.not_eq_false] at htrue
          simpa [htrue] using Sentence.truthAll_iff.mp htrue
  | disj xs =>
      simp only [Sentence.symbol, Sentence.parts, Symbol.combine, kleene_map, kleene_eq_some_iff,
        Sentence.truth, id, Option.some.injEq]
      split
      · next htrue => simpa [htrue] using Sentence.truthAny_iff.mp htrue
      · next hfalse =>
          have hnot : ¬ ∃ x ∈ xs, x.truth v = true := mt Sentence.truthAny_iff.mpr hfalse
          rw [Bool.not_eq_true] at hfalse
          simpa [hfalse] using hnot
  | imp l r =>
      rw [Sentence.truth]
      cases hl : l.truth v <;> cases hr : r.truth v <;>
        simp [Sentence.symbol, Sentence.parts, Symbol.combine, kleene, hl, hr]
  | iff l r => rfl
  | _ => simp [Sentence.isConnective] at hs

theorem evaluate_eq_truth (hatomic : ∀ x value, lookup x = some value → x.isAtomic = true)
    (hs : s.isPropositional = true) {v : Sentence → Bool}
    (hatoms : ∀ x ∈ s.atoms, lookup x = some (v x)) :
    lex.evaluate lookup domain s = some (s.truth v) := by
  induction s using Sentence.partsInduction with
  | step s ih =>
      rcases Sentence.isPropositional_iff.mp hs with hself
        | ⟨hterminal, hquantifier, hequal, hparts⟩
      · have hmem : s ∈ s.atoms := by simp [Sentence.atoms, hself, Sentence.self_mem_subsentences]
        rw [evaluate_of_isAtomic hself, hatoms s hmem]
        cases s with
        | atom | pred => rfl
        | _ => simp [Sentence.isAtomic] at hself
      · have hconnective : s.isConnective = true := by
          cases s <;> simp_all [Sentence.isTerminal, Sentence.isTerm, Sentence.isQuantifier,
            Sentence.isConnective]
        have hnone : lookup s = none := by
          refine Option.eq_none_iff_forall_ne_some.mpr fun value hvalue => ?_
          have hself := hatomic s value hvalue
          cases s <;> simp_all [Sentence.isAtomic, Sentence.isConnective]
        rw [evaluate_of_isConnective hconnective hnone, ← combine_truth hconnective]
        congr 1
        refine List.map_congr_left fun x hx => ih x hx (hparts x hx) fun y hy => hatoms y ?_
        simp only [Sentence.atoms, Sentence.mem_distinct, List.mem_filter] at hy ⊢
        exact ⟨Sentence.mem_subsentences_of_part hx hy.1, hy.2⟩

/-- With values for atomic sentences only, a sentence keeps the value that it evaluates to when more
values are given.  Evaluation ends, since going from numbers to the numbers of parts and instances
never goes deeper than the rank.  If no quantifier, no equality and no unknown atom is met, the
value is the classical one. -/
theorem evaluate_stays_decided (hatomic : ∀ x value, lookup x = some value → x.isAtomic = true)
    (hatomic' : ∀ x value, lookup' x = some value → x.isAtomic = true)
    (hextends : ∀ x value, lookup x = some value → lookup' x = some value)
    (lex : Lexicon) (domain : List Sentence) (s : Sentence) :
    (∀ value, lex.evaluate lookup domain s = some value →
      lex.evaluate lookup' domain s = some value) ∧
    (lex.IsOrderly → ∀ numbers n depth, lex.Number numbers domain → lex.entries[n]? = some s →
      s.rank < depth → lex.evaluateNumber? (lex.lookupNumber lookup) numbers depth n =
        some (lex.evaluate lookup domain s)) ∧
    (s.isPropositional = true → ∀ v : Sentence → Bool, (∀ x ∈ s.atoms, lookup x = some (v x)) →
      lex.evaluate lookup domain s = some (s.truth v)) :=
  ⟨fun _ => evaluate_mono hatomic' hextends,
    fun h _ _ _ hdomain hn hdepth => h.evaluateNumber?_eq hdomain hdepth hn,
    fun hs _ => evaluate_eq_truth hatomic hs⟩

/-- The instance is entered after the quantifier.  Its value decides the disjunction, whatever
the other operand is. -/
theorem evaluate_stays_decided_instance :
    let x := Sentence.var "x" 0
    let c := Sentence.const "c1" 0
    let P (term : Sentence) := Sentence.pred "P" [term]
    let Q := Sentence.atom "Q"
    let s := Sentence.disj [.all x (P x), Q]
    let t := Sentence.imp Q (P c)
    let lookup : Sentence → Option Bool := fun y => if y = P c then some true else none
    let lookup' : Sentence → Option Bool := fun y => if y = Q then some false else lookup y
    let calls : List Call := [.enter ⟨.var "x" 0, []⟩, .enter ⟨.pred "P", [0]⟩,
      .enter ⟨.all, [0, 1]⟩, .enter ⟨.atom "Q", []⟩, .enter ⟨.disj, [2, 3]⟩, .mint 0,
      .substitute 1 0 5]
    ∃ lex, performAll? {} calls = some lex ∧ lex.entries[4]? = some s ∧
      lex.entries[6]? = some (P c) ∧
      lex.evaluateNumber? (lex.lookupNumber lookup) [5] 3 4 = some (some true) ∧
      lex.evaluate lookup [c] s = some true ∧ lex.evaluate lookup' [c] s = some true ∧
      lex.evaluate lookup' [c] t = some true := by
  intro x c P Q s t lookup lookup' calls
  have heval : (performAll? {} calls).any (fun lex => decide (lex.entries[4]? = some s ∧
      lex.entries[5]? = some c ∧ lex.entries[6]? = some (P c) ∧
      lex.evaluateNumber? (lex.lookupNumber lookup) [5] 3 4 = some (some true))) = true := by
    decide +kernel
  obtain ⟨lex, hcalls, htest⟩ := (Option.any_eq_true _ _).mp heval
  obtain ⟨hs, hc, hinstance, hvalue⟩ := of_decide_eq_true htest
  have horderly : lex.IsOrderly := (develops_performAll? hcalls).isOrderly (isOrderly_empty {})
  have hatomic : ∀ y value, lookup y = some value → y.isAtomic = true := by
    intro y value hy
    obtain ⟨rfl, -⟩ : y = P c ∧ true = value := by simpa [lookup] using hy
    rfl
  have hatomic' : ∀ y value, lookup' y = some value → y.isAtomic = true := by
    intro y value hy
    by_cases hQ : y = Q
    · rw [hQ]
      rfl
    · exact hatomic y value (by simpa [lookup', hQ] using hy)
  have hextends : ∀ y value, lookup y = some value → lookup' y = some value := by
    intro y value hy
    obtain ⟨rfl, -⟩ : y = P c ∧ true = value := by simpa [lookup] using hy
    exact hy
  obtain ⟨hkept, hnumbers, -⟩ := evaluate_stays_decided hatomic hatomic' hextends lex [c] s
  have hfirst : lex.evaluate lookup [c] s = some true := by
    have hfound := hnumbers horderly [5] 4 3 (.cons hc .nil) hs (by decide)
    rw [hvalue] at hfound
    exact (Option.some.inj hfound).symm
  obtain ⟨-, -, hclassical⟩ := evaluate_stays_decided hatomic' hatomic' (fun _ _ => id) lex [c] t
  have ht : lex.evaluate lookup' [c] t = some (t.truth fun y => y = P c) :=
    hclassical rfl _ (by decide +kernel)
  exact ⟨lex, hcalls, hs, hinstance, hvalue, hfirst, hkept true hfirst, ht⟩

end Lexicon

end Tableau
