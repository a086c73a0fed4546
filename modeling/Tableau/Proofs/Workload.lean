/-
What is left to do on a branch.  First come the quantifiers that may still bring in a new
term, whether their sentences have values or wait in pending inferences.  Second come the
rules that may still be fired for the terms that are there.  Every rule for a flat sentence
lowers the first, or keeps the first and the terms of the branch and lowers the second.
-/
import Mathlib.Algebra.BigOperators.Group.Finset.Basic
import Mathlib.Algebra.Order.BigOperators.Group.Finset
import Mathlib.Data.Prod.Lex
import Tableau.Proofs.Flat

namespace Tableau

namespace Branch

variable {branch branch' : Branch} {added : Addition} {fact : Fact} {term : Sentence} {k : Key}

/-- One branch has what the other has and an addition. -/
structure Extends (branch : Branch) (added : Addition) (branch' : Branch) : Prop where
  has : ∀ k value, branch'.has k value = true ↔
    branch.has k value = true ∨ ⟨k, value⟩ ∈ added.facts
  isDecomposed : ∀ k, branch'.isDecomposed k = true ↔
    branch.isDecomposed k = true ∨ k ∈ added.marks
  mem_instancesOf : ∀ k term, term ∈ branch'.instancesOf k ↔
    term ∈ branch.instancesOf k ∨ (k, term) ∈ added.terms

theorem extends_cons (facts : Outcome) (number : Nat) (above : Branch) :
    above.Extends { facts } (Assignment.ofFacts facts number :: above) where
  has k value := by
    rw [has_cons, Assignment.has_ofFacts]
    exact Or.comm
  isDecomposed k := by simp [isDecomposed_iff]
  mem_instancesOf k term := by simp [mem_instancesOf]

/-- A branch that something has been added to was consistent before if it is now. -/
theorem Extends.isConsistent (h : branch.Extends added branch')
    (hcons : branch'.isConsistent = true) : branch.isConsistent = true := by
  refine isConsistent_iff.mpr fun k value hvalue => ?_
  have hnone := isConsistent_iff.mp hcons k value ((h.has k value).mpr (Or.inl hvalue))
  rw [← Bool.not_eq_true] at hnone ⊢
  exact fun hopposite => hnone ((h.has k _).mpr (Or.inl hopposite))

/-- The terms of a branch. -/
def terms (branch : Branch) : Finset Sentence := branch.termsMentioned.toFinset

@[simp]
theorem mem_terms : term ∈ branch.terms ↔ branch.Visible term := by simp [terms]

/-- The terms that a universal sentence has not been instantiated for. -/
def unused (branch : Branch) (k : Key) : Finset Sentence :=
  branch.terms.filter (· ∉ branch.instancesOf k)

/-- The quantifiers of a sentence that may still bring in a new term.  A true universal
sentence does so only the first time that it is instantiated. -/
def prospects (branch : Branch) (fact : Fact) : Nat :=
  if branch.isDecomposed fact.key then 0
  else
    match fact.sentence, fact.value with
    | .all .., true => if branch.instancesOf fact.key = [] then 1 else 0
    | s, _ => s.quantifierCount

/-- What is left to do for a sentence and its parts, with the terms that are there. -/
def duties (branch : Branch) (fact : Fact) : Nat :=
  if branch.isDecomposed fact.key then 0
  else
    match fact.sentence, fact.value with
    | .all _ x, true => (branch.unused fact.key).card * (x.weight branch.terms.card + 1)
    | .ex .., true => 1
    | .all .., false => 2
    | .ex _ x, false => branch.terms.card * (x.weight branch.terms.card + 3) + 1
    | s, _ => s.weight branch.terms.card

theorem prospects_of_isDecomposed (h : branch.isDecomposed fact.key = true) :
    branch.prospects fact = 0 := by
  simp [prospects, h]

theorem duties_of_isDecomposed (h : branch.isDecomposed fact.key = true) :
    branch.duties fact = 0 := by
  simp [duties, h]

theorem prospects_le (branch : Branch) (fact : Fact) :
    branch.prospects fact ≤ fact.sentence.quantifierCount := by
  unfold prospects
  split
  · exact Nat.zero_le _
  · split
    · next hs _ =>
        rw [hs, Sentence.quantifierCount_eq, Sentence.isQuantifier]
        split <;> simp
    · exact Nat.le_refl _

theorem duties_le (branch : Branch) (fact : Fact) :
    branch.duties fact ≤ fact.sentence.weight branch.terms.card := by
  unfold duties
  split
  · exact Nat.zero_le _
  · split
    · next hs _ =>
        have hcard : (branch.unused fact.key).card ≤ branch.terms.card :=
          Finset.card_le_card (Finset.filter_subset ..)
        rw [hs, Sentence.weight]
        exact (Nat.mul_le_mul hcard (Nat.add_le_add_left (by decide) _)).trans
          (Nat.le_add_right _ 2)
    · next hs _ =>
        rw [hs, Sentence.weight]
        omega
    · next hs _ =>
        rw [hs, Sentence.weight]
        omega
    · next hs _ =>
        rw [hs, Sentence.weight]
        omega
    · exact Nat.le_refl _

namespace Extends

theorem prospects_le (h : branch.Extends added branch') (fact : Fact) :
    branch'.prospects fact ≤ branch.prospects fact := by
  by_cases hmark' : branch'.isDecomposed fact.key = true
  · rw [prospects_of_isDecomposed hmark']
    exact Nat.zero_le _
  · have hmark : ¬ branch.isDecomposed fact.key = true :=
      fun hold => hmark' ((h.isDecomposed _).mpr (Or.inl hold))
    unfold prospects
    rw [if_neg hmark', if_neg hmark]
    split
    · split
      · next hnone' =>
          have hnone : branch.instancesOf fact.key = [] := by
            rw [List.eq_nil_iff_forall_not_mem] at hnone' ⊢
            exact fun term hold => hnone' term ((h.mem_instancesOf ..).mpr (Or.inl hold))
          simp [hnone]
      · exact Nat.zero_le _
    · exact Nat.le_refl _

theorem duties_le (h : branch.Extends added branch') (hterms : branch'.terms = branch.terms)
    (fact : Fact) : branch'.duties fact ≤ branch.duties fact := by
  by_cases hmark' : branch'.isDecomposed fact.key = true
  · rw [duties_of_isDecomposed hmark']
    exact Nat.zero_le _
  · have hmark : ¬ branch.isDecomposed fact.key = true :=
      fun hold => hmark' ((h.isDecomposed _).mpr (Or.inl hold))
    have hunused : (branch'.unused fact.key).card ≤ (branch.unused fact.key).card := by
      refine Finset.card_le_card fun term hterm => ?_
      simp only [unused, hterms, Finset.mem_filter] at hterm ⊢
      exact ⟨hterm.1, fun hold => hterm.2 ((h.mem_instancesOf ..).mpr (Or.inl hold))⟩
    unfold duties
    rw [if_neg hmark', if_neg hmark, hterms]
    split
    · exact Nat.mul_le_mul_right _ hunused
    all_goals exact Nat.le_refl _

/-- The terms stay the same if what is added mentions no others. -/
theorem terms_eq (h : branch.Extends added branch')
    (hfacts : ∀ fact ∈ added.facts, ∀ term ∈ fact.sentence.subsentences, term.isGroundTerm = true →
      branch.Visible term)
    (hterms : ∀ k term, (k, term) ∈ added.terms → branch.Visible term) :
    branch'.terms = branch.terms := by
  ext term
  rw [mem_terms, mem_terms]
  constructor
  · rintro (⟨k, value, hvalue, hmem, hground⟩ | ⟨k, hterm⟩)
    · rcases (h.has k value).mp hvalue with hold | hnew
      · exact Or.inl ⟨k, value, hold, hmem, hground⟩
      · exact hfacts _ hnew term hmem hground
    · rcases (h.mem_instancesOf k term).mp hterm with hold | hnew
      · exact Or.inr ⟨k, hold⟩
      · exact hterms k term hnew
  · intro hvisible
    exact hvisible.mono (fun k value hold => (h.has k value).mpr (Or.inl hold))
      fun k term hold => (h.mem_instancesOf k term).mpr (Or.inl hold)

end Extends

/-! Sums over all facts of a branch. -/

def total (branch : Branch) (share : Fact → Nat) : Nat := branch.facts.toFinset.sum share

theorem sum_toFinset_le (facts : List Fact) (share : Fact → Nat) :
    facts.toFinset.sum share ≤ (facts.map share).sum := by
  induction facts with
  | nil => simp
  | cons fact facts ih =>
      rw [List.toFinset_cons, List.map_cons, List.sum_cons]
      by_cases hmem : fact ∈ facts.toFinset
      · rw [Finset.insert_eq_of_mem hmem]
        exact ih.trans (Nat.le_add_left ..)
      · rw [Finset.sum_insert hmem]
        exact Nat.add_le_add_left ih _

/-- Shares that only get smaller sum up to no more than before and the shares of new facts. -/
theorem Extends.total_le (h : branch.Extends added branch') {share share' : Fact → Nat}
    (hle : ∀ fact, share' fact ≤ share fact) :
    branch'.total share' ≤ branch.total share + added.facts.toFinset.sum share' := by
  have hfacts : branch'.facts.toFinset = branch.facts.toFinset ∪ added.facts.toFinset := by
    ext fact
    simp only [List.mem_toFinset, Finset.mem_union, mem_facts]
    exact h.has fact.key fact.value
  have hunion : (branch.facts.toFinset ∪ added.facts.toFinset).sum share' +
        (branch.facts.toFinset ∩ added.facts.toFinset).sum share' =
      branch.facts.toFinset.sum share' + added.facts.toFinset.sum share' :=
    Finset.sum_union_inter
  have hold : branch.facts.toFinset.sum share' ≤ branch.facts.toFinset.sum share :=
    Finset.sum_le_sum fun fact _ => hle fact
  unfold total
  rw [hfacts]
  omega

/-- What the share of one fact loses is lost by the sum. -/
theorem Extends.total_add_le (h : branch.Extends added branch') {share share' : Fact → Nat}
    (hle : ∀ fact, share' fact ≤ share fact) (hfact : branch.Gives fact) :
    branch'.total share' + share fact ≤
      branch.total share + share' fact + added.facts.toFinset.sum share' := by
  have hmem : fact ∈ branch.facts.toFinset := by simpa using hfact
  have hbefore : share fact + (branch.facts.toFinset.erase fact).sum share = branch.total share :=
    Finset.add_sum_erase _ _ hmem
  have hafter : share' fact + (branch.facts.toFinset.erase fact).sum share' = branch.total share' :=
    Finset.add_sum_erase _ _ hmem
  have hothers : (branch.facts.toFinset.erase fact).sum share' ≤
      (branch.facts.toFinset.erase fact).sum share := Finset.sum_le_sum fun fact _ => hle fact
  have hnew := h.total_le (fun fact => Nat.le_refl (share' fact))
  omega

/-! The workload. -/

/-- What is left to do for a sentence that waits in a pending inference, before what its parts
call for. -/
def postponed (terms : Nat) (s : Sentence) : Nat :=
  if s.isQuantifier then 0 else s.weight terms - 1

/-- The workload of a branch, with the sentences of the inferences that are pending there. -/
def workload (branch : Branch) (queue : List Sentence) : ℕ ×ₗ ℕ :=
  toLex (branch.total branch.prospects + (queue.map Sentence.quantifierCount).sum,
    branch.total branch.duties + (queue.map (postponed branch.terms.card)).sum)

theorem workload_perm (branch : Branch) {queue queue' : List Sentence} (h : queue.Perm queue') :
    branch.workload queue = branch.workload queue' := by
  unfold workload
  rw [(h.map _).sum_eq, (h.map (postponed _)).sum_eq]

theorem workload_lt_of_prospects {queue queue' : List Sentence}
    (h : branch'.total branch'.prospects + (queue'.map Sentence.quantifierCount).sum <
      branch.total branch.prospects + (queue.map Sentence.quantifierCount).sum) :
    branch'.workload queue' < branch.workload queue :=
  Prod.Lex.toLex_lt_toLex.mpr (Or.inl h)

theorem workload_lt_of_duties {queue queue' : List Sentence}
    (hle : branch'.total branch'.prospects + (queue'.map Sentence.quantifierCount).sum ≤
      branch.total branch.prospects + (queue.map Sentence.quantifierCount).sum)
    (hlt : branch'.total branch'.duties + (queue'.map (postponed branch'.terms.card)).sum <
      branch.total branch.duties + (queue.map (postponed branch.terms.card)).sum) :
    branch'.workload queue' < branch.workload queue := by
  refine Prod.Lex.toLex_lt_toLex.mpr ?_
  rcases Nat.lt_or_eq_of_le hle with hless | hsame
  · exact Or.inl hless
  · exact Or.inr ⟨hsame, hlt⟩

/-! Connectives. -/

section Connective

variable {s : Sentence} {value : Bool} {alternatives : List Outcome} {facts : Outcome}
  (halts : s.alternatives? value = some alternatives)
include halts

theorem kind_of_alternatives? : s.isTerminal = false ∧ s.isQuantifier = false := by
  cases s <;>
    simp_all [Sentence.alternatives?, Sentence.isTerminal, Sentence.isTerm, Sentence.isQuantifier]

theorem prospects_of_alternatives? (hunmarked : branch.isDecomposed s = false) :
    branch.prospects ⟨s, value⟩ = s.quantifierCount := by
  obtain ⟨-, hquantifier⟩ := kind_of_alternatives? halts
  unfold prospects
  rw [if_neg (by simp [hunmarked])]
  split
  · next hs _ =>
      obtain rfl : s = _ := hs
      simp [Sentence.isQuantifier] at hquantifier
  · rfl

theorem duties_of_alternatives? (hunmarked : branch.isDecomposed s = false) :
    branch.duties ⟨s, value⟩ = s.weight branch.terms.card := by
  obtain ⟨-, hquantifier⟩ := kind_of_alternatives? halts
  unfold duties
  rw [if_neg (by simp [hunmarked])]
  split
  case h_5 => rfl
  all_goals
    next hs _ =>
      obtain rfl : s = _ := hs
      simp [Sentence.isQuantifier] at hquantifier

variable (hfacts : facts ∈ alternatives) {new : List Fact} (hnew : ∀ fact ∈ new, fact ∈ facts)
include hfacts hnew

/-- What is shared out among the facts of an alternative is shared out among the parts. -/
theorem sum_new_le {share : Fact → Nat} {size : Sentence → Nat}
    (hshare : ∀ fact, share fact ≤ size fact.sentence)
    (hself : ∀ fact : Fact, fact.sentence = s → share fact = 0) :
    (∃ xs, s = .equal xs) ∧ new.toFinset.sum share = 0 ∨
      (∀ xs, s ≠ .equal xs) ∧ new.toFinset.sum share ≤ (s.parts.map size).sum := by
  by_cases hequal : ∃ xs, s = .equal xs
  · refine Or.inl ⟨hequal, Finset.sum_eq_zero fun fact hfact => hself fact ?_⟩
    have hfact := hnew fact (List.mem_toFinset.mp hfact)
    rcases Sentence.mem_parts_of_alternatives? halts hfacts hfact with ⟨-, hsame⟩ | ⟨hnot, -⟩
    · exact hsame
    · obtain ⟨xs, hxs⟩ := hequal
      exact absurd hxs (hnot xs)
  · have hequal : ∀ xs, s ≠ .equal xs := fun xs hxs => hequal ⟨xs, hxs⟩
    refine Or.inr ⟨hequal, ?_⟩
    have hsubset : new.toFinset ⊆ facts.toFinset := fun fact hfact =>
      List.mem_toFinset.mpr (hnew fact (List.mem_toFinset.mp hfact))
    calc new.toFinset.sum share ≤ facts.toFinset.sum share :=
          Finset.sum_le_sum_of_subset hsubset
      _ ≤ (facts.map share).sum := sum_toFinset_le facts share
      _ ≤ (s.parts.map size).sum := Sentence.sum_alternative_le halts hfacts hequal hshare

theorem sum_prospects_new_le (hmark : branch.isDecomposed s = true) :
    new.toFinset.sum branch.prospects ≤ s.quantifierCount := by
  have hself : ∀ fact : Fact, fact.sentence = s → branch.prospects fact = 0 := by
    rintro fact rfl
    exact prospects_of_isDecomposed (by simpa [Fact.sentence] using hmark)
  rcases sum_new_le halts hfacts hnew branch.prospects_le hself with ⟨-, hzero⟩ | ⟨-, hle⟩
  · simp [hzero]
  · rw [Sentence.quantifierCount_eq]
    exact hle.trans (Nat.le_add_right ..)

theorem sum_duties_new_le (hmark : branch.isDecomposed s = true) :
    new.toFinset.sum branch.duties + 2 ≤ s.weight branch.terms.card := by
  have hself : ∀ fact : Fact, fact.sentence = s → branch.duties fact = 0 := by
    rintro fact rfl
    exact duties_of_isDecomposed (by simpa [Fact.sentence] using hmark)
  rcases sum_new_le halts hfacts hnew branch.duties_le hself with ⟨⟨xs, rfl⟩, hzero⟩ | ⟨hequal, hle⟩
  · simp [hzero, Sentence.weight]
  · obtain ⟨hterminal, hquantifier⟩ := kind_of_alternatives? halts
    rw [Sentence.weight_eq_of_connective _ hterminal hquantifier hequal]
    exact Nat.add_le_add_right hle 2

/-- The parts of a sentence have no terms that the sentence does not have. -/
theorem visible_of_mem_alternative (hgives : branch.Gives ⟨s, value⟩) :
    ∀ fact ∈ new, ∀ term ∈ fact.sentence.subsentences, term.isGroundTerm = true →
      branch.Visible term := by
  intro fact hfact term hterm hground
  refine Or.inl ⟨s, value, hgives, ?_, hground⟩
  rcases Sentence.mem_parts_of_alternatives? halts hfacts (hnew fact hfact) with
    ⟨-, hsame⟩ | ⟨-, hpart⟩
  · simpa [hsame] using hterm
  · exact Sentence.mem_subsentences_of_part hpart hterm

end Connective

section Alternative

variable {s : Sentence} {value : Bool} {alternatives : List Outcome} {facts : Outcome}
  (halts : s.alternatives? value = some alternatives) (hfacts : facts ∈ alternatives)
  (h : branch.Extends added branch') (hnew : ∀ fact ∈ added.facts, fact ∈ facts)
  (hterms : added.terms = []) (hgives : branch.Gives ⟨s, value⟩)
  (hmarked : branch'.isDecomposed s = true)
include halts hfacts h hnew hterms hgives hmarked

/-- Decomposing a connective. -/
theorem workload_lt_of_alternative (hunmarked : branch.isDecomposed s = false)
    (queue : List Sentence) : branch'.workload queue < branch.workload queue := by
  have hsame : branch'.terms = branch.terms :=
    h.terms_eq (visible_of_mem_alternative halts hfacts hnew hgives) (by simp [hterms])
  have hprospects := h.total_add_le h.prospects_le hgives
  have hduties := h.total_add_le (h.duties_le hsame) hgives
  rw [prospects_of_alternatives? halts hunmarked, prospects_of_isDecomposed hmarked] at hprospects
  rw [duties_of_alternatives? halts hunmarked, duties_of_isDecomposed hmarked] at hduties
  have hfewer := sum_prospects_new_le halts hfacts hnew hmarked
  have hless := sum_duties_new_le halts hfacts hnew hmarked
  rw [hsame] at hless
  refine workload_lt_of_duties ?_ ?_
  · omega
  · rw [hsame]
    omega

/-- Carrying out the pending inference of a connective. -/
theorem workload_lt_of_pending_alternative (queue : List Sentence) :
    branch'.workload queue < branch.workload (s :: queue) := by
  have hsame : branch'.terms = branch.terms :=
    h.terms_eq (visible_of_mem_alternative halts hfacts hnew hgives) (by simp [hterms])
  obtain ⟨-, hquantifier⟩ := kind_of_alternatives? halts
  have hprospects := h.total_le h.prospects_le
  have hduties := h.total_le (h.duties_le hsame)
  have hfewer := sum_prospects_new_le halts hfacts hnew hmarked
  have hless := sum_duties_new_le halts hfacts hnew hmarked
  have hpostponed : postponed branch.terms.card s = s.weight branch.terms.card - 1 := by
    simp [postponed, hquantifier]
  rw [hsame] at hless
  refine workload_lt_of_duties ?_ ?_
  · rw [List.map_cons, List.sum_cons]
    omega
  · rw [hsame, List.map_cons, List.sum_cons, hpostponed]
    omega

end Alternative

/-! Quantifiers. -/

/-- Putting off an inference that splits. -/
theorem workload_lt_of_queued {s : Sentence} {value : Bool}
    (h : branch.Extends { marks := [s.key] } branch') (hgives : branch.Gives ⟨s, value⟩)
    (hunmarked : branch.isDecomposed s = false)
    (hsplits : (∃ alternatives, s.alternatives? value = some alternatives ∧
      1 < alternatives.length) ∨ (∃ binder body, s = .ex binder body) ∧ value = true)
    (queue : List Sentence) : branch'.workload (s :: queue) < branch.workload queue := by
  have hmarked : branch'.isDecomposed s = true := (h.isDecomposed _).mpr (Or.inr (by simp))
  have hsame : branch'.terms = branch.terms := h.terms_eq (by simp) (by simp)
  have hprospects := h.total_add_le h.prospects_le hgives
  have hduties := h.total_add_le (h.duties_le hsame) hgives
  have hnone : branch'.prospects ⟨s, value⟩ = 0 := prospects_of_isDecomposed hmarked
  have hdone : branch'.duties ⟨s, value⟩ = 0 := duties_of_isDecomposed hmarked
  simp only [List.toFinset_nil, Finset.sum_empty, hnone, hdone] at hprospects hduties
  have hboth : branch.prospects ⟨s, value⟩ = s.quantifierCount ∧
      postponed branch.terms.card s < branch.duties ⟨s, value⟩ := by
    rcases hsplits with ⟨alternatives, halts, hmany⟩ | ⟨⟨binder, body, rfl⟩, rfl⟩
    · obtain ⟨-, hquantifier⟩ := kind_of_alternatives? halts
      obtain ⟨facts, hfacts⟩ := List.exists_mem_of_length_pos (Nat.zero_lt_of_lt hmany)
      have hweight := sum_duties_new_le halts hfacts (List.forall_mem_nil (· ∈ facts)) hmarked
      rw [hsame] at hweight
      refine ⟨prospects_of_alternatives? halts hunmarked, ?_⟩
      rw [duties_of_alternatives? halts hunmarked, postponed, if_neg (by simp [hquantifier])]
      omega
    · simp [prospects, duties, postponed, hunmarked, Fact.sentence, Sentence.isQuantifier]
  refine workload_lt_of_duties ?_ ?_
  · rw [List.map_cons, List.sum_cons]
    omega
  · rw [hsame, List.map_cons, List.sum_cons]
    omega

section Dual

variable {s dual binder body : Sentence}
  (hdual : s = .all binder body ∧ dual = .ex binder (.neg body) ∨
    s = .ex binder body ∧ dual = .all binder (.neg body))
include hdual

/-- The dual has no ground term that the sentence does not have. -/
theorem mem_subsentences_of_dual (hterm : term ∈ dual.subsentences)
    (hground : term.isGroundTerm = true) : term ∈ s.subsentences := by
  rcases hdual with ⟨rfl, rfl⟩ | ⟨rfl, rfl⟩
  all_goals
    simp only [Sentence.subsentences, List.mem_cons, List.mem_append] at hterm ⊢
    rcases hterm with rfl | hbinder | rfl | hbody
    · simp [Sentence.isGroundTerm] at hground
    · exact Or.inr (Or.inl hbinder)
    · simp [Sentence.isGroundTerm] at hground
    · exact Or.inr (Or.inr hbody)

theorem prospects_dual_le (hunmarked : branch.isDecomposed s = false) :
    branch'.prospects ⟨dual, true⟩ ≤ branch.prospects ⟨s, false⟩ := by
  have hquantifiers : dual.quantifierCount = s.quantifierCount := by
    rw [Sentence.quantifierCount_quantified (hdual.symm.imp And.right And.right),
      Sentence.quantifierCount_quantified (hdual.imp And.left And.left),
      Sentence.quantifierCount_neg]
  have hprospects : branch.prospects ⟨s, false⟩ = s.quantifierCount := by
    simp [prospects, hunmarked, Fact.sentence]
  rw [hprospects, ← hquantifiers]
  exact branch'.prospects_le ⟨dual, true⟩

theorem duties_dual_lt (hunmarked : branch.isDecomposed s = false)
    (hsame : branch'.terms = branch.terms) :
    branch'.duties ⟨dual, true⟩ < branch.duties ⟨s, false⟩ := by
  unfold duties
  rw [if_neg (show ¬ branch.isDecomposed s = true by simp [hunmarked])]
  split
  · rcases hdual with ⟨rfl, rfl⟩ | ⟨rfl, rfl⟩ <;> simp [Fact.sentence]
  · rcases hdual with ⟨rfl, rfl⟩ | ⟨rfl, rfl⟩
    · simp [Fact.sentence]
    · have hcard : (branch'.unused (Sentence.all binder (.neg body))).card ≤ branch.terms.card :=
        hsame ▸ Finset.card_le_card (Finset.filter_subset ..)
      simp only [Fact.sentence, Key.sentence_key, Sentence.weight, hsame]
      exact Nat.lt_succ_of_le (Nat.mul_le_mul_right _ hcard)

/-- Turning a false quantified sentence into its dual. -/
theorem workload_lt_of_dual (h : branch.Extends added branch')
    (hnew : ∀ fact ∈ added.facts, fact = ⟨dual, true⟩) (hterms : added.terms = [])
    (hgives : branch.Gives ⟨s, false⟩) (hunmarked : branch.isDecomposed s = false)
    (hmarked : branch'.isDecomposed s = true) (queue : List Sentence) :
    branch'.workload queue < branch.workload queue := by
  have hsum : ∀ share : Fact → Nat, added.facts.toFinset.sum share ≤ share ⟨dual, true⟩ := by
    intro share
    rw [← Finset.sum_singleton share ⟨dual, true⟩]
    refine Finset.sum_le_sum_of_subset fun fact hfact => ?_
    exact Finset.mem_singleton.mpr (hnew fact (List.mem_toFinset.mp hfact))
  have hsame : branch'.terms = branch.terms := by
    refine h.terms_eq (fun fact hfact term hterm hground => ?_) (by simp [hterms])
    rw [hnew fact hfact] at hterm
    exact Or.inl ⟨s, false, hgives, mem_subsentences_of_dual hdual hterm hground, hground⟩
  have hprospects := h.total_add_le h.prospects_le hgives
  have hduties := h.total_add_le (h.duties_le hsame) hgives
  have hnone : branch'.prospects ⟨s, false⟩ = 0 := prospects_of_isDecomposed hmarked
  have hdone : branch'.duties ⟨s, false⟩ = 0 := duties_of_isDecomposed hmarked
  have hfewer := (hsum branch'.prospects).trans (prospects_dual_le hdual hunmarked)
  have hlighter := (hsum branch'.duties).trans_lt (duties_dual_lt hdual hunmarked hsame)
  refine workload_lt_of_duties ?_ ?_
  · omega
  · rw [hsame]
    omega

end Dual

/-- The instances of a flat sentence bring in no terms. -/
theorem sum_prospects_instances (branch : Branch) {s binder body : Sentence} (hs : s.IsFlat)
    (hquantified : s = .all binder body ∨ s = .ex binder body) {new : List Fact}
    (hnew : ∀ fact ∈ new, ∃ term : Sentence, term.isConstant = true ∧
      fact = ⟨body.subst binder term, true⟩) : new.toFinset.sum branch.prospects = 0 := by
  refine Finset.sum_eq_zero fun fact hfact => Nat.le_zero.mp ?_
  obtain ⟨term, hterm, rfl⟩ := hnew fact (List.mem_toFinset.mp hfact)
  exact (branch.prospects_le _).trans_eq (hs.quantifierCount_instance hquantified hterm)

section Existential

variable {binder body : Sentence} (hs : (Sentence.ex binder body).IsFlat)
  (h : branch.Extends added branch')
  (hnew : ∀ fact ∈ added.facts, ∃ term : Sentence, term.isConstant = true ∧
    fact = ⟨body.subst binder term, true⟩)
include hs h hnew

/-- Witnessing an existential sentence. -/
theorem workload_lt_of_witness (hgives : branch.Gives ⟨Sentence.ex binder body, true⟩)
    (hunmarked : branch.isDecomposed (Sentence.ex binder body) = false)
    (hmarked : branch'.isDecomposed (Sentence.ex binder body) = true) (queue : List Sentence) :
    branch'.workload queue < branch.workload queue := by
  have hprospects := h.total_add_le h.prospects_le hgives
  have hnone : branch'.prospects ⟨Sentence.ex binder body, true⟩ = 0 :=
    prospects_of_isDecomposed hmarked
  have hone : branch.prospects ⟨Sentence.ex binder body, true⟩ = 1 := by
    rw [← hs.quantifierCount_eq_one (Or.inr rfl)]
    simp [prospects, hunmarked, Fact.sentence]
  rw [branch'.sum_prospects_instances hs (Or.inr rfl) hnew] at hprospects
  refine workload_lt_of_prospects ?_
  omega

/-- Carrying out the pending inference of an existential sentence. -/
theorem workload_lt_of_pending_witness (queue : List Sentence) :
    branch'.workload queue < branch.workload (.ex binder body :: queue) := by
  have hprospects := h.total_le h.prospects_le
  rw [branch'.sum_prospects_instances hs (Or.inr rfl) hnew] at hprospects
  refine workload_lt_of_prospects ?_
  rw [List.map_cons, List.sum_cons, hs.quantifierCount_eq_one (Or.inr rfl)]
  omega

end Existential

section Universal

variable {binder body : Sentence} {terms : List Sentence}
  (hs : (Sentence.all binder body).IsFlat) (h : branch.Extends added branch')
  (hfacts : ∀ fact ∈ added.facts, ∃ term ∈ terms, fact = ⟨body.subst binder term, true⟩)
  (hused : ∀ k term, (k, term) ∈ added.terms ↔ k = Sentence.all binder body ∧ term ∈ terms)
  (hne : terms ≠ []) (hconstants : ∀ term ∈ terms, term.isConstant = true)
  (hgives : branch.Gives ⟨Sentence.all binder body, true⟩)
include hs h hfacts hused hne hconstants hgives

/-- After a universal sentence has been instantiated it brings in no more terms. -/
theorem total_prospects_of_universal :
    branch'.total branch'.prospects + branch.prospects ⟨Sentence.all binder body, true⟩ ≤
      branch.total branch.prospects := by
  have hnew : ∀ fact ∈ added.facts, ∃ term : Sentence, term.isConstant = true ∧
      fact = ⟨body.subst binder term, true⟩ := fun fact hfact => by
    obtain ⟨term, hterm, heq⟩ := hfacts fact hfact
    exact ⟨term, hconstants term hterm, heq⟩
  have hprospects := h.total_add_le h.prospects_le hgives
  have hnone : branch'.prospects ⟨Sentence.all binder body, true⟩ = 0 := by
    obtain ⟨term, hterm⟩ := List.exists_mem_of_ne_nil _ hne
    have hsome : branch'.instancesOf (Sentence.all binder body) ≠ [] :=
      List.ne_nil_of_mem ((h.mem_instancesOf _ term).mpr (Or.inr ((hused ..).mpr ⟨rfl, hterm⟩)))
    simp [prospects, Fact.sentence, hsome]
  rw [branch'.sum_prospects_instances hs (Or.inl rfl) hnew] at hprospects
  omega

omit h hused hne hgives in
theorem sum_duties_instances_le (hsame : branch'.terms = branch.terms) :
    added.facts.toFinset.sum branch'.duties ≤
      terms.toFinset.card * body.weight branch.terms.card := by
  have hvariable := hs.isVariable_binder (Or.inl rfl)
  have hsubset : added.facts.toFinset ⊆
      terms.toFinset.image fun term => ⟨body.subst binder term, true⟩ := by
    intro fact hfact
    obtain ⟨term, hterm, rfl⟩ := hfacts fact (List.mem_toFinset.mp hfact)
    exact Finset.mem_image_of_mem _ (List.mem_toFinset.mpr hterm)
  have hweight : ∀ fact ∈ added.facts.toFinset,
      branch'.duties fact ≤ body.weight branch.terms.card := by
    intro fact hfact
    obtain ⟨term, hterm, rfl⟩ := hfacts fact (List.mem_toFinset.mp hfact)
    have hisTerm : term.isTerm = true := by
      have hconstant := hconstants term hterm
      cases term <;> simp_all [Sentence.isConstant, Sentence.isTerm]
    rw [← Sentence.weight_subst _ hvariable hisTerm body, ← hsame]
    exact branch'.duties_le _
  calc added.facts.toFinset.sum branch'.duties
      ≤ added.facts.toFinset.card • body.weight branch.terms.card :=
        Finset.sum_le_card_nsmul _ _ _ hweight
    _ ≤ terms.toFinset.card * body.weight branch.terms.card :=
        Nat.mul_le_mul_right _ ((Finset.card_le_card hsubset).trans Finset.card_image_le)

omit hs hfacts hne hconstants hgives in
/-- Every term that a universal sentence is instantiated for is used up. -/
theorem card_unused_of_instances (hsame : branch'.terms = branch.terms)
    (hnew : ∀ term ∈ terms, branch.Visible term ∧
      term ∉ branch.instancesOf (Sentence.all binder body)) :
    (branch'.unused (Sentence.all binder body)).card + terms.toFinset.card =
      (branch.unused (Sentence.all binder body)).card := by
  have hsubset : terms.toFinset ⊆ branch.unused (Sentence.all binder body) := by
    intro term hterm
    obtain ⟨hvisible, hunused⟩ := hnew term (List.mem_toFinset.mp hterm)
    exact Finset.mem_filter.mpr ⟨mem_terms.mpr hvisible, hunused⟩
  have hrest : branch'.unused (Sentence.all binder body) =
      branch.unused (Sentence.all binder body) \ terms.toFinset := by
    ext term
    simp [unused, hsame, h.mem_instancesOf, hused, and_assoc]
  rw [hrest]
  exact Finset.card_sdiff_add_card_eq_card hsubset

/-- Instantiating a universal sentence for the first time. -/
theorem workload_lt_of_first_instances
    (hunmarked : branch.isDecomposed (Sentence.all binder body) = false)
    (hnone : branch.instancesOf (Sentence.all binder body) = []) (queue : List Sentence) :
    branch'.workload queue < branch.workload queue := by
  have hprospects := total_prospects_of_universal hs h hfacts hused hne hconstants hgives
  have hone : branch.prospects ⟨Sentence.all binder body, true⟩ = 1 := by
    simp [prospects, hunmarked, Fact.sentence, hnone]
  refine workload_lt_of_prospects ?_
  omega

/-- Instantiating a universal sentence again, for terms of the branch that are new to it. -/
theorem workload_lt_of_instances
    (hunmarked : branch.isDecomposed (Sentence.all binder body) = false)
    (hmarks : added.marks = [])
    (hnew : ∀ term ∈ terms, branch.Visible term ∧
      term ∉ branch.instancesOf (Sentence.all binder body)) (queue : List Sentence) :
    branch'.workload queue < branch.workload queue := by
  have hsame : branch'.terms = branch.terms := by
    refine h.terms_eq (fun fact hfact x hx hground => ?_) fun k term hterm =>
      (hnew term ((hused k term).mp hterm).2).1
    obtain ⟨term, hterm, rfl⟩ := hfacts fact hfact
    rcases hs.mem_subsentences_of_instance (Or.inl rfl) (hconstants term hterm) hx hground with
      rfl | hold
    · exact (hnew x hterm).1
    · exact Or.inl ⟨_, true, hgives, hold, hground⟩
  have hprospects := total_prospects_of_universal hs h hfacts hused hne hconstants hgives
  have hduties := h.total_add_le (h.duties_le hsame) hgives
  have hinstances := sum_duties_instances_le hs hfacts hconstants hsame
  have hunused := card_unused_of_instances h hused hsame hnew
  have hmarked : branch'.isDecomposed (Sentence.all binder body) = false := by
    rw [← Bool.not_eq_true, h.isDecomposed, hmarks]
    simp [hunmarked]
  have hbefore : branch.duties ⟨Sentence.all binder body, true⟩ =
      (branch.unused (Sentence.all binder body)).card * (body.weight branch.terms.card + 1) := by
    simp [duties, hunmarked, Fact.sentence]
  have hafter : branch'.duties ⟨Sentence.all binder body, true⟩ =
      (branch'.unused (Sentence.all binder body)).card * (body.weight branch.terms.card + 1) := by
    simp [duties, hmarked, Fact.sentence, hsame]
  -- a term that is used up pays for the weight of its instance and for one more
  have hsome : 0 < terms.toFinset.card :=
    Finset.card_pos.mpr ((List.toFinset_nonempty_iff terms).mpr hne)
  rw [hbefore, hafter, ← hunused, Nat.add_mul, Nat.mul_succ terms.toFinset.card] at hduties
  refine workload_lt_of_duties ?_ ?_
  · omega
  · rw [hsame]
    omega

end Universal

end Branch

end Tableau
