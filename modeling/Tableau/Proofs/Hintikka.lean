/-
Complete branches.  A complete branch is consistent and closed under the rules: every
rule has been carried out, and a true universal sentence holds for all terms of the
branch that its variable ranges over, of which there is at least one.
-/
import Tableau.Proofs.Search.Account
import Tableau.Proofs.Search.Phase
import Tableau.Proofs.Valuation

namespace Tableau

theorem Sentence.subst_neg {target : Sentence} (htarget : target.isVariable = true)
    (x term : Sentence) : (neg x).subst target term = neg (x.subst target term) := by
  have hne : neg x ≠ target := by
    rintro rfl
    simp [isVariable] at htarget
  simp [subst, hne]

/-- A true universal or a false existential sentence: all instances have its value. -/
inductive IsUniversal : Sentence → Bool → (binder body : Sentence) → Prop where
  | all {binder body : Sentence} : IsUniversal (.all binder body) true binder body
  | ex {binder body : Sentence} : IsUniversal (.ex binder body) false binder body

/-- A true existential or a false universal sentence: some instance has its value. -/
inductive IsExistential : Sentence → Bool → (binder body : Sentence) → Prop where
  | ex {binder body : Sentence} : IsExistential (.ex binder body) true binder body
  | all {binder body : Sentence} : IsExistential (.all binder body) false binder body

namespace Branch

/-- A branch that is consistent and closed under the rules. -/
structure IsHintikka (sorts : Sorts) (branch : Branch) : Prop where
  consistent : ∀ k, branch.Gives ⟨k, true⟩ → ¬ branch.Gives ⟨k, false⟩
  carriedOut : ∀ (s : Sentence) value, branch.Gives ⟨s, value⟩ → s.isTerminal = false →
    (∀ binder body, s = .all binder body → value = false) →
    Rule.IsCarriedOut sorts branch.Gives s value
  universal : ∀ binder body, branch.Gives ⟨Sentence.all binder body, true⟩ →
    ∀ term, branch.Visible term → Rule.Instantiates sorts binder term →
      branch.Gives ⟨body.subst binder term, true⟩
  inhabited : ∀ binder body, branch.Gives ⟨Sentence.all binder body, true⟩ →
    ∃ term, branch.Visible term ∧ Rule.Instantiates sorts binder term

theorem IsHintikka.not_gives_not {sorts : Sorts} {branch : Branch} (h : branch.IsHintikka sorts)
    {k : Key} {value : Bool} (hvalue : branch.Gives ⟨k, value⟩) : ¬ branch.Gives ⟨k, !value⟩ := by
  cases value with
  | true => exact h.consistent k hvalue
  | false => exact fun htrue => h.consistent k htrue hvalue

/-- A notion of truth that makes true what the branch makes true agrees with it. -/
theorem IsHintikka.agrees_of_iff_gives {sorts : Sorts} {branch : Branch}
    (h : branch.IsHintikka sorts)
    {truth : Sentence → Prop} {s : Sentence} {value : Bool} (hgives : branch.Gives ⟨s, value⟩)
    (htruth : truth s ↔ branch.Gives ⟨s, true⟩) : (Fact.mk s value).Agrees truth := by
  cases value with
  | true => simpa [htruth] using hgives
  | false => simpa [htruth] using h.not_gives_not hgives

/-- Where a connective has a value, some of its parts have the values of an alternative. -/
theorem IsHintikka.exists_alternative {sorts : Sorts} {branch : Branch}
    (h : branch.IsHintikka sorts)
    {s : Sentence} {value : Bool} (hgives : branch.Gives ⟨s, value⟩)
    (hterminal : s.isTerminal = false)
    (hquantifier : s.isQuantifier = false) (hequal : ∀ xs, s ≠ .equal xs) :
    ∃ alternatives facts, s.alternatives? value = some alternatives ∧ facts ∈ alternatives ∧
      ∀ fact ∈ facts, fact.sentence ∈ s.parts ∧ branch.Gives fact := by
  have hdone := h.carriedOut s value hgives hterminal fun binder body heq => by
    simp [heq, Sentence.isQuantifier] at hquantifier
  cases hdone with
  | @alternative _ _ alternatives facts halts hfacts hall =>
      refine ⟨alternatives, facts, halts, hfacts, fun fact hfact => ?_⟩
      rcases Sentence.mem_parts_of_alternatives? halts hfacts hfact with ⟨⟨xs, hxs⟩, -⟩ | ⟨-, hpart⟩
      · exact absurd hxs (hequal xs)
      · exact ⟨hpart, hall fact hfact⟩
  | absurd halts hopposite => exact absurd hopposite (h.not_gives_not hgives)
  | dualAll | dualEx | witness => simp [Sentence.isQuantifier] at hquantifier

/-- A valuation that agrees with the values of the parts of a connective agrees with its
own. -/
theorem IsHintikka.agrees_of_parts {sorts : Sorts} {branch : Branch} (h : branch.IsHintikka sorts)
    {truth : Sentence → Prop} (hv : IsValuation truth) {s : Sentence} {value : Bool}
    (hgives : branch.Gives ⟨s, value⟩) (hterminal : s.isTerminal = false)
    (hquantifier : s.isQuantifier = false) (hequal : ∀ xs, s ≠ .equal xs)
    (hparts : ∀ x ∈ s.parts, ∀ v, branch.Gives ⟨x, v⟩ → (Fact.mk x v).Agrees truth) :
    (Fact.mk s value).Agrees truth := by
  obtain ⟨alternatives, facts, halts, hfacts, hall⟩ :=
    h.exists_alternative hgives hterminal hquantifier hequal
  refine hv.agrees_of_alternative halts hequal hfacts fun fact hfact => ?_
  obtain ⟨hpart, hfact⟩ := hall fact hfact
  exact hparts _ hpart fact.value (by simpa using hfact)

/-- An equality of one and the same term is true if it has a value. -/
theorem IsHintikka.gives_equal {sorts : Sorts} {branch : Branch} (h : branch.IsHintikka sorts)
    {xs : List Sentence} {value : Bool} (hgives : branch.Gives ⟨Sentence.equal xs, value⟩)
    (hxs : allEqual xs = true) : branch.Gives ⟨Sentence.equal xs, true⟩ := by
  have hdone := h.carriedOut (.equal xs) value hgives rfl (by simp)
  cases hdone with
  | @alternative _ _ alternatives facts halts hfacts hall =>
      obtain rfl : [[⟨(Sentence.equal xs).key, true⟩]] = alternatives := by
        simpa [Sentence.alternatives?, hxs] using halts
      obtain rfl : facts = _ := List.mem_singleton.mp hfacts
      exact hall _ List.mem_cons_self
  | absurd halts => simp [Sentence.alternatives?] at halts

/-! Quantifiers.  A false quantified sentence is as good as its dual. -/

section Quantifiers

variable {sorts : Sorts} {branch : Branch} {s binder body x : Sentence} {value : Bool}

theorem IsHintikka.gives_of_neg (h : branch.IsHintikka sorts)
    (hgives : branch.Gives ⟨Sentence.neg x, value⟩) : branch.Gives ⟨x, !value⟩ := by
  have hdone := h.carriedOut (.neg x) value hgives rfl (by simp)
  cases hdone with
  | @alternative _ _ alternatives facts halts hfacts hall =>
      obtain rfl : [[⟨x.key, !value⟩]] =
          alternatives := by simpa [Sentence.alternatives?] using halts
      obtain rfl : facts = _ := List.mem_singleton.mp hfacts
      exact hall _ List.mem_cons_self
  | absurd halts => simp [Sentence.alternatives?] at halts

/-- All instances of a universal sentence for terms of the branch have its value. -/
theorem IsHintikka.gives_instance (h : branch.IsHintikka sorts)
    (hs : IsUniversal s value binder body)
    (hbinder : binder.isVariable = true) (hgives : branch.Gives ⟨s, value⟩) :
    (∀ term, branch.Visible term → Rule.Instantiates sorts binder term →
        branch.Gives ⟨body.subst binder term, value⟩) ∧
      ∃ term, branch.Visible term ∧ Rule.Instantiates sorts binder term := by
  cases hs with
  | all => exact ⟨h.universal binder body hgives, h.inhabited binder body hgives⟩
  | ex =>
      have hdone := h.carriedOut (.ex binder body) false hgives rfl (by simp)
      cases hdone with
      | alternative halts | absurd halts => simp [Sentence.alternatives?] at halts
      | dualEx hdual =>
          refine ⟨fun term hvisible hterm => ?_, h.inhabited binder _ hdual⟩
          have hneg := h.universal binder _ hdual term hvisible hterm
          rw [Sentence.subst_neg hbinder] at hneg
          exact h.gives_of_neg hneg

theorem IsHintikka.exists_witness (h : branch.IsHintikka sorts)
    (hgives : branch.Gives ⟨Sentence.ex binder body, true⟩) :
    ∃ term, Rule.Instantiates sorts binder term ∧ branch.Gives ⟨body.subst binder term, true⟩ := by
  have hdone := h.carriedOut (.ex binder body) true hgives rfl (by simp)
  cases hdone with
  | alternative halts | absurd halts => simp [Sentence.alternatives?] at halts
  | @witness _ _ term hterm hinstance => exact ⟨term, hterm, hinstance⟩

/-- Some instance of an existential sentence has its value. -/
theorem IsHintikka.exists_instance (h : branch.IsHintikka sorts)
    (hs : IsExistential s value binder body) (hbinder : binder.isVariable = true)
    (hgives : branch.Gives ⟨s, value⟩) :
    ∃ term, Rule.Instantiates sorts binder term ∧ branch.Gives ⟨body.subst binder term, value⟩ := by
  cases hs with
  | ex => exact h.exists_witness hgives
  | all =>
      have hdone := h.carriedOut (.all binder body) false hgives rfl (by simp)
      cases hdone with
      | alternative halts | absurd halts => simp [Sentence.alternatives?] at halts
      | dualAll hdual =>
          obtain ⟨term, hterm, hneg⟩ := h.exists_witness hdual
          rw [Sentence.subst_neg hbinder] at hneg
          exact ⟨term, hterm, h.gives_of_neg hneg⟩

end Quantifiers

end Branch

namespace Prover

variable {p : Prover} {leaf : NodeId}

/-- What completeness of a leaf says. -/
theorem isComplete_iff : p.isComplete leaf = true ↔
    p.tree.children leaf = [] ∧ (∀ inf ∈ p.pending, inf.node ∉ p.tree.ancestry leaf) ∧
      (p.tree.branch leaf).isConsistent = true ∧
      (∀ k, Rule.isUndecomposed (p.tree.branch leaf) k = false) ∧
      ∀ k, Rule.isOpenQuantifier p.lexicon (p.tree.branch leaf) k = false := by
  simp only [isComplete, Bool.and_eq_true, List.isEmpty_iff, Rule.undecomposed_eq_nil,
    Rule.openQuantifiers_eq_nil, Bool.not_eq_true', List.any_eq_false,
    Tree.isDescendant_iff, and_assoc]

/-- A sentence with a value and a mark at a complete leaf has had its rule carried
out. -/
theorem isCarriedOut_of_isComplete (hacc : p.IsAccountable) (hleaf : leaf ∈ p.openLeaves)
    (hcomplete : p.isComplete leaf = true) {k : Key} {value : Bool}
    (hvalue : (p.tree.branch leaf).has k value = true)
    (hmark : (p.tree.branch leaf).isDecomposed k = true) :
    Rule.IsCarriedOut p.lexicon.sorts (p.tree.branch leaf).Gives k.sentence value := by
  obtain ⟨-, hpending, hcons, -⟩ := isComplete_iff.mp hcomplete
  rcases hacc.isCarriedOut_or_pending hleaf hcons hvalue hmark with hdone | ⟨inf, hinf, -, hnode⟩
  · exact hdone
  · exact absurd hnode (hpending inf hinf)

/-- A universal sentence with nothing left to do has been instantiated for all terms of
the branch that its variable ranges over, and for at least one term. -/
theorem instancesOf_of_not_open {lex : Lexicon} {branch : Branch} {binder body : Sentence}
    (hmark : branch.isDecomposed (Sentence.all binder body) = false)
    (hmodels : branch.models (Sentence.all binder body) = some true)
    (hopen : Rule.isOpenQuantifier lex branch (Sentence.all binder body) = false) :
    (∀ term, branch.Visible term → Rule.Instantiates lex.sorts binder term →
        term ∈ branch.instancesOf (Sentence.all binder body)) ∧
      branch.instancesOf (Sentence.all binder body) ≠ [] := by
  simp only [Rule.isOpenQuantifier, Rule.isOpenAmong, hmark, hmodels, Key.sentence_key,
    Bool.false_eq_true, if_false] at hopen
  rw [← Bool.not_eq_true, Rule.isUnexhausted_iff] at hopen
  refine ⟨fun term hvisible hinst => ?_, fun hnone => hopen (Or.inl hnone)⟩
  by_contra hnew
  exact hopen (Or.inr ⟨term, Rule.mem_candidates.mpr ⟨hvisible, hinst.sorted⟩, hnew⟩)

/-- A sentence with a value at a complete leaf is marked, unless it is terminal or a true
universal sentence. -/
theorem isDecomposed_of_isComplete (hcomplete : p.isComplete leaf = true) {s : Sentence}
    {value : Bool}
    (hgives : (p.tree.branch leaf).Gives ⟨s, value⟩) (hterminal : s.isTerminal = false)
    (huniversal : ∀ binder body, s = .all binder body → value = false) :
    (p.tree.branch leaf).isDecomposed s = true := by
  obtain ⟨-, -, hcons, hwaiting, hopen⟩ := isComplete_iff.mp hcomplete
  have hmodels := (Branch.models_eq_some hcons).mpr hgives
  rw [← Bool.not_eq_false]
  intro hmark
  cases hquantifier : s.isQuantifier with
  | false =>
      have hnotWaiting := hwaiting s
      simp [Rule.isUndecomposed, hterminal, hquantifier, hmark, hmodels] at hnotWaiting
  | true =>
      have hnotOpen := hopen s
      cases s with
      | all binder body =>
          obtain rfl := huniversal binder body rfl
          simp [Rule.isOpenQuantifier, Rule.isOpenAmong, hmark, hmodels] at hnotOpen
      | ex binder body => simp [Rule.isOpenQuantifier, Rule.isOpenAmong, hmark, hmodels] at hnotOpen
      | _ => simp [Sentence.isQuantifier] at hquantifier

/-- A true universal sentence at a complete leaf has been instantiated for all terms of
the branch that its variable ranges over, and for at least one term. -/
theorem instancesOf_of_isComplete (hacc : p.IsAccountable) (hleaf : leaf ∈ p.openLeaves)
    (hcomplete : p.isComplete leaf = true) {binder body : Sentence}
    (hgives : (p.tree.branch leaf).Gives ⟨Sentence.all binder body, true⟩) :
    (∀ term, (p.tree.branch leaf).Visible term → Rule.Instantiates p.lexicon.sorts binder term →
        term ∈ (p.tree.branch leaf).instancesOf (Sentence.all binder body)) ∧
      (p.tree.branch leaf).instancesOf (Sentence.all binder body) ≠ [] := by
  obtain ⟨-, -, hcons, -, hopen⟩ := isComplete_iff.mp hcomplete
  -- it is never marked, for its rule is never done with
  have hunmarked : (p.tree.branch leaf).isDecomposed (Sentence.all binder body) = false := by
    rw [← Bool.not_eq_true]
    intro hmark
    have hdone := isCarriedOut_of_isComplete hacc hleaf hcomplete hgives hmark
    cases hdone with
    | alternative halts | absurd halts => simp [Sentence.alternatives?] at halts
  exact instancesOf_of_not_open hunmarked ((Branch.models_eq_some hcons).mpr hgives) (hopen _)

/-- The branch of a complete leaf is closed under the rules. -/
theorem isHintikka_of_isComplete (hp : p.Coherent) (hacc : p.IsAccountable)
    (hleaf : leaf ∈ p.openLeaves) (hcomplete : p.isComplete leaf = true) :
    (p.tree.branch leaf).IsHintikka p.lexicon.sorts where
  consistent k htrue hfalse := by
    obtain ⟨-, -, hcons, -⟩ := isComplete_iff.mp hcomplete
    have hopposite := Branch.isConsistent_iff.mp hcons k true htrue
    rw [Branch.Gives] at hfalse
    simp [hfalse] at hopposite
  carriedOut s value hgives hterminal huniversal := by
    have hmark := isDecomposed_of_isComplete hcomplete hgives hterminal huniversal
    exact isCarriedOut_of_isComplete hacc hleaf hcomplete hgives hmark
  universal binder body hgives term hvisible hinst := by
    have hterm := (instancesOf_of_isComplete hacc hleaf hcomplete hgives).1 term hvisible hinst
    obtain ⟨binder', body', heq, -, hfact⟩ := hp.instances leaf _ term hterm
    cases heq
    exact hfact
  inhabited binder body hgives := by
    obtain ⟨term, hterm⟩ := List.exists_mem_of_ne_nil _
      (instancesOf_of_isComplete hacc hleaf hcomplete hgives).2
    obtain ⟨binder', body', heq, hinst, -⟩ := hp.instances leaf _ term hterm
    cases heq
    exact ⟨term, Or.inr ⟨_, hterm⟩, hinst⟩

end Prover

end Tableau
