/-
What the score of a pending branch foretells.  Its survivors are counted before any node is
created, by comparing the facts of every alternative with the branch of every open leaf that it
concerns.  A new node is closed by a conflict with that branch, but also by one within itself.
Only a false equivalence of a sentence with itself has alternatives that contradict themselves,
so in all other cases the survivors are the new nodes with consistent branches.
-/
import Mathlib.Data.List.Basic
import Tableau.Proofs.FirstOrder
import Tableau.Proofs.Leaves
import Tableau.Proofs.Search.Advance

namespace Tableau

/-- Whether the facts give no sentence both values. -/
def Outcome.isConsistent (facts : Outcome) : Bool :=
  facts.all fun fact => !facts.contains ⟨fact.key, !fact.value⟩

theorem Outcome.isConsistent_iff {facts : Outcome} :
    Outcome.isConsistent facts = true ↔ ∀ k value, ⟨k, value⟩ ∈ facts → ⟨k, !value⟩ ∉ facts := by
  simp only [isConsistent, List.all_eq_true, Bool.not_eq_true', ← Bool.not_eq_true,
    List.contains_iff_mem]
  constructor
  · intro h k value hfact
    exact h ⟨k, value⟩ hfact
  · rintro h ⟨k, value⟩ hfact
    exact h k value hfact

namespace Score

variable {branch : Branch} {facts : Outcome}

/-- On a consistent branch, an alternative is refuted by any value that is opposite to one of
its facts. -/
theorem isRefuted_iff (hcons : branch.isConsistent = true) :
    isRefuted branch facts = true ↔ ∃ k value, ⟨k, value⟩ ∈ facts ∧
      branch.has k (!value) = true := by
  simp only [isRefuted, List.any_eq_true, beq_iff_eq, Branch.models_eq_some hcons]
  constructor
  · rintro ⟨⟨k, value⟩, hfact, hopposite⟩
    exact ⟨k, value, hfact, hopposite⟩
  · rintro ⟨k, value, hfact, hopposite⟩
    exact ⟨⟨k, value⟩, hfact, hopposite⟩

/-- An alternative that gives one sentence both values is refuted by any value of it. -/
theorem isRefuted_of_both (hcons : branch.isConsistent = true) {k : Key}
    (hfacts : ∀ other value, ⟨other, value⟩ ∈ facts ↔ other = k) :
    isRefuted branch facts = branch.isMapped k := by
  rw [Bool.eq_iff_iff, isRefuted_iff hcons, Branch.isMapped_iff]
  constructor
  · rintro ⟨other, value, hfact, hopposite⟩
    rw [(hfacts other value).mp hfact] at hopposite
    exact ⟨!value, hopposite⟩
  · rintro ⟨value, hvalue⟩
    exact ⟨k, !value, (hfacts k (!value)).mpr rfl, by rwa [Bool.not_not]⟩

/-- A new node below a consistent branch stays open if and only if the branch does not refute
its facts and they do not contradict each other. -/
theorem isConsistent_ofFacts_cons (hcons : branch.isConsistent = true) (number : Nat) :
    Branch.isConsistent (Assignment.ofFacts facts number :: branch) =
      (!isRefuted branch facts && Outcome.isConsistent facts) := by
  rw [Bool.eq_iff_iff, Bool.and_eq_true, Bool.not_eq_true', ← Bool.not_eq_true,
    isRefuted_iff hcons, Outcome.isConsistent_iff, Branch.isConsistent_iff]
  simp only [← Bool.not_eq_true, Branch.has_cons, Assignment.has_ofFacts]
  constructor
  · intro h
    refine ⟨?_, fun k value hfact hopposite => h k value (.inl hfact) (.inl hopposite)⟩
    rintro ⟨k, value, hfact, hopposite⟩
    exact h k value (.inl hfact) (.inr hopposite)
  · rintro ⟨hrefuted, hself⟩ k value (hfact | habove) (hopposite | hopposite)
    · exact hself k value hfact hopposite
    · exact hrefuted ⟨k, value, hfact, hopposite⟩
    · exact hrefuted ⟨k, !value, hopposite, by rwa [Bool.not_not]⟩
    · exact absurd hopposite (by simp [Branch.isConsistent_iff.mp hcons k value habove])

theorem countP_flatMap {α β : Type} (test : β → Bool) (f : α → List β) (xs : List α) :
    (xs.flatMap f).countP test = total (xs.map fun x => (f x).countP test) := by
  induction xs with
  | nil => rfl
  | cons x xs ih =>
      rw [List.flatMap_cons, List.countP_append, ih]
      rfl

/-- What counts the same wherever it counts at all is counted by counting where it does. -/
theorem total_map_eq_mul_countP {α : Type} {xs : List α} {f : α → Nat} (n : Nat) (test : α → Bool)
    (hf : ∀ x ∈ xs, f x = if test x then n else 0) : total (xs.map f) = n * xs.countP test := by
  induction xs with
  | nil => rfl
  | cons x xs ih =>
      have hx := hf x List.mem_cons_self
      have hxs := ih fun y hy => hf y (List.mem_cons_of_mem x hy)
      change f x + total (xs.map f) = _
      rw [hx, hxs, List.countP_cons]
      split
      · rw [Nat.mul_add, Nat.mul_one, Nat.add_comm]
      · rw [Nat.zero_add, Nat.add_zero]

end Score

/-- The branches of the new nodes are those of the leaves, each with every new content. -/
theorem Tree.Grafts.map_branch_created {tree tree' : Tree} {leaves created : List NodeId}
    {contents : List Assignment} (h : tree.Grafts leaves contents tree' created)
    (hcoh : tree.Coherent) (hleaves : ∀ leaf ∈ leaves, leaf < tree.size) :
    created.map tree'.branch = leaves.flatMap fun leaf => contents.map (· :: tree.branch leaf) := by
  let branchOf (node : Node) : Branch := node.content :: node.lineage.map tree'.content
  have hnodes : created.map tree'.branch = (created.map tree'.node).map branchOf := by
    rw [List.map_map]
    rfl
  rw [hnodes, h.nodes, List.map_flatMap]
  apply List.flatMap_congr
  intro leaf hleaf
  rw [List.map_map]
  apply List.map_congr_left
  intro content _
  have habove : tree'.branch leaf = tree.branch leaf := h.branch_of_lt hcoh (hleaves leaf hleaf)
  have hancestry : tree'.ancestry leaf = tree.ancestry leaf := h.ancestry (hleaves leaf hleaf)
  rw [← habove, Tree.branch, hancestry]
  rfl

theorem Outcome.isConsistent_pair {k k' : Key} {value value' : Bool} (h : k = k' → value = value') :
    Outcome.isConsistent [⟨k, value⟩, ⟨k', value'⟩] = true := by
  rw [isConsistent_iff]
  intro other v hfact hopposite
  simp only [List.mem_cons, List.not_mem_nil, or_false, Fact.mk.injEq] at hfact hopposite
  grind

theorem Outcome.isConsistent_singleton (fact : Fact) : Outcome.isConsistent [fact] = true := by
  rw [isConsistent_iff]
  intro k value hfact hopposite
  have hsame : (⟨k, value⟩ : Fact) = ⟨k, !value⟩ :=
    (List.mem_singleton.mp hfact).trans (List.mem_singleton.mp hopposite).symm
  simp at hsame

/-- Which facts contradict each other does not depend on their order. -/
theorem Outcome.isConsistent_arrange (lex : Lexicon) (facts : Outcome) :
    Outcome.isConsistent (lex.arrange facts) = Outcome.isConsistent facts := by
  rw [Bool.eq_iff_iff]
  simp only [isConsistent_iff, Lexicon.mem_arrange]

/-- Where there is a choice, no alternative contradicts itself, unless the sentence is a false
equivalence of a sentence with itself. -/
theorem Sentence.isConsistent_of_alternatives? {s : Sentence} {value : Bool}
    {alternatives : List Outcome} (h : s.alternatives? value = some alternatives)
    (hchoice : 2 ≤ alternatives.length) (hs : ∀ x, s = .iff x x → value = true) {facts : Outcome}
    (hfacts : facts ∈ alternatives) : Outcome.isConsistent facts = true := by
  have hsingle : ∀ (xs : List Sentence) (v : Bool), facts ∈ xs.map (fun x => [x.valued v]) →
      Outcome.isConsistent facts = true := by
    intro xs v hmem
    obtain ⟨x, -, rfl⟩ := List.mem_map.mp hmem
    exact Outcome.isConsistent_singleton _
  cases s with
  | atom | pred | const | var | app | all | ex => simp [alternatives?] at h
  | neg | equal =>
      obtain rfl := Option.some.inj h
      simp at hchoice
  | conj xs =>
      cases value with
      | true =>
          obtain rfl := Option.some.inj h
          simp at hchoice
      | false =>
          obtain rfl := Option.some.inj h
          exact hsingle xs false hfacts
  | disj xs =>
      cases value with
      | true =>
          obtain rfl := Option.some.inj h
          exact hsingle xs true hfacts
      | false =>
          obtain rfl := Option.some.inj h
          simp at hchoice
  | imp l r =>
      cases value with
      | true =>
          obtain rfl := Option.some.inj h
          rcases List.mem_pair.mp hfacts with rfl | rfl <;> exact Outcome.isConsistent_singleton _
      | false =>
          obtain rfl := Option.some.inj h
          simp at hchoice
  | iff l r =>
      obtain rfl := Option.some.inj h
      have hvalue : l.key = r.key → value = true := by
        intro hkey
        apply hs l
        rw [show r = l from (congrArg Key.sentence hkey).symm]
      rcases List.mem_pair.mp hfacts with rfl | rfl
      · exact Outcome.isConsistent_pair fun hkey => (hvalue hkey).symm
      · exact Outcome.isConsistent_pair fun hkey => by rw [hvalue hkey]; rfl

namespace Rule.Yields

variable {sorts : Sorts} {s x : Sentence} {value : Bool} {inf : Inference}

/-- A rule that splits has consistent alternatives, unless its sentence is a false equivalence
of a sentence with itself. -/
theorem isConsistent_of_mem_outcomes (h : Yields sorts s value inf.effect)
    (hsplit : inf.isBranching = true) (hs : ∀ x, s = .iff x x → value = true) {facts : Outcome}
    (hfacts : facts ∈ inf.outcomes) : Outcome.isConsistent facts = true := by
  unfold Inference.isBranching at hsplit
  generalize heffect : inf.effect = eff at h hsplit
  cases h with
  | @connective _ _ alternatives lex halts =>
      match alternatives with
      | [] | [facts] => simp [effect] at hsplit
      | first :: second :: rest =>
          rw [outcomes_effect heffect, if_neg (List.cons_ne_nil _ _)] at hfacts
          obtain ⟨alternative, hmem, rfl⟩ := List.mem_map.mp hfacts
          rw [Outcome.isConsistent_arrange]
          exact Sentence.isConsistent_of_alternatives? halts (by simp) hs hmem
  | dualAll | dualEx | universal => simp at hsplit
  | existential lex hsort hlast hterms =>
      simp only [Inference.outcomes, heffect, List.mem_map] at hfacts
      obtain ⟨term, -, rfl⟩ := hfacts
      rw [Outcome.isConsistent_arrange]
      exact Outcome.isConsistent_singleton _

/-- Both alternatives of a false equivalence of a sentence with itself give it both values. -/
theorem outcomes_of_iff_self (h : Yields sorts (.iff x x) false inf.effect) :
    ∃ first second, inf.outcomes = [first, second] ∧
      ∀ facts ∈ [first, second], ∀ k value, ⟨k, value⟩ ∈ facts ↔ k = x.key := by
  obtain ⟨lex, alternatives, halts, heffect⟩ := h.of_not_isQuantifier rfl
  obtain rfl := Option.some.inj halts
  refine ⟨_, _, outcomes_effect heffect, ?_⟩
  intro facts hfacts k value
  rcases List.mem_pair.mp hfacts with rfl | rfl <;> cases value <;> simp

end Rule.Yields

namespace Prover

variable {p : Prover} {inf : Inference}

/-- The survivors of a pending inference by its score, when a branch is to be split. -/
def survivors (p : Prover) (inf : Inference) : Nat :=
  let leaves := p.openLeaves.map fun leaf => (leaf, p.tree.branch leaf)
  (Score.of p.tree leaves inf).survivors

/-- The nodes with consistent branches among those that a pending inference would create. -/
def remaining (p : Prover) (inf : Inference) : Nat :=
  let r := inf.apply p.tree (p.openBelow inf.node)
  r.2.countP r.1.isPathConsistent

/-- The survivors are counted leaf by leaf and alternative by alternative. -/
theorem survivors_eq_total (p : Prover) (inf : Inference) :
    p.survivors inf = Score.total ((p.openBelow inf.node).map fun leaf =>
      inf.outcomes.countP fun facts => !Score.isRefuted (p.tree.branch leaf) facts) := by
  simp only [survivors, Score.of, openBelow, List.filter_map, List.map_map]
  rfl

/-- So are the new nodes with consistent branches, where an alternative must not contradict
itself either. -/
theorem IsQueued.remaining_eq_total (hinf : p.IsQueued inf) (hp : p.Coherent)
    (hconsistent : ∀ leaf ∈ p.openLeaves, p.tree.isPathConsistent leaf = true) :
    p.remaining inf = Score.total ((p.openBelow inf.node).map fun leaf =>
      inf.outcomes.countP fun facts =>
        !Score.isRefuted (p.tree.branch leaf) facts && Outcome.isConsistent facts) := by
  have hgrafts := hinf.grafts_apply hp
  have hbranches := hgrafts.map_branch_created hp.tree (hp.openBelow_lt inf.node)
  have hmap : ∀ (tree : Tree) (ids : List NodeId),
      ids.countP tree.isPathConsistent = (ids.map tree.branch).countP Branch.isConsistent := by
    intro tree ids
    rw [List.countP_map]
    rfl
  rw [remaining, hmap, hbranches, Score.countP_flatMap]
  refine congrArg Score.total (List.map_congr_left fun leaf hleaf => ?_)
  rw [List.map_map, List.countP_map]
  apply List.countP_congr
  intro facts _
  have hleaf := hconsistent leaf (List.mem_filter.mp hleaf).1
  rw [Function.comp_apply, Function.comp_apply, Score.isConsistent_ofFacts_cons hleaf]

theorem IsQueued.survivors_eq_remaining (hinf : p.IsQueued inf) (hp : p.Coherent)
    (hconsistent : ∀ leaf ∈ p.openLeaves, p.tree.isPathConsistent leaf = true)
    (houtcomes : ∀ facts ∈ inf.outcomes, Outcome.isConsistent facts = true) :
    p.survivors inf = p.remaining inf := by
  rw [survivors_eq_total, hinf.remaining_eq_total hp hconsistent]
  refine congrArg Score.total (List.map_congr_left fun leaf _ => List.countP_congr ?_)
  intro facts hfacts
  rw [houtcomes facts hfacts, Bool.and_true]

/-- Two alternatives that say nothing but that one sentence has both values survive where it has
none yet, and contradict themselves. -/
theorem IsQueued.survivors_of_both (hinf : p.IsQueued inf) (hp : p.Coherent)
    (hconsistent : ∀ leaf ∈ p.openLeaves, p.tree.isPathConsistent leaf = true)
    {first second : Outcome} {x : Sentence} (houtcomes : inf.outcomes = [first, second])
    (hboth : ∀ facts ∈ [first, second], ∀ k value, ⟨k, value⟩ ∈ facts ↔ k = x.key) :
    p.remaining inf = 0 ∧ p.survivors inf =
      2 * (p.openBelow inf.node).countP fun leaf => !(p.tree.branch leaf).isMapped x := by
  have hself : ∀ facts ∈ [first, second], Outcome.isConsistent facts = false := by
    intro facts hfacts
    rw [← Bool.not_eq_true, Outcome.isConsistent_iff]
    intro hnot
    exact hnot x true ((hboth facts hfacts x true).mpr rfl) ((hboth facts hfacts x false).mpr rfl)
  rw [survivors_eq_total, hinf.remaining_eq_total hp hconsistent, houtcomes]
  constructor
  · refine (Score.total_map_eq_mul_countP 0 (fun _ => true) fun leaf _ => ?_).trans (Nat.zero_mul _)
    simp [hself]
  · apply Score.total_map_eq_mul_countP
    intro leaf hleaf
    have hleaf := hconsistent leaf (List.mem_filter.mp hleaf).1
    have hrefuted : ∀ facts ∈ [first, second],
        Score.isRefuted (p.tree.branch leaf) facts = (p.tree.branch leaf).isMapped x :=
      fun facts hfacts => Score.isRefuted_of_both hleaf (hboth facts hfacts)
    rw [List.countP_cons, List.countP_singleton, hrefuted first (by simp),
      hrefuted second (by simp)]
    split <;> rfl

/-- As long as a consistent leaf needs a pending inference, its origin has one value at its node,
and the inference is what the rule for that value yields. -/
theorem IsQueued.exists_models (hinf : p.IsQueued inf) (hp : p.Coherent) {leaf : NodeId}
    (habove : inf.node ∈ p.tree.ancestry leaf) (hleaf : p.tree.isPathConsistent leaf = true) :
    ∃ value, (p.tree.branch inf.node).models inf.origin = some value ∧
      Rule.Yields p.lexicon.sorts inf.origin value inf.effect := by
  have hnode : (p.tree.branch inf.node).isConsistent = true :=
    hp.tree.isPathConsistent_of_mem habove hleaf
  obtain ⟨value, hvalue, hyields⟩ := hinf.exists_value
  exact ⟨value, (Branch.models_eq_some hnode).mpr hvalue, hyields⟩

section Run

variable {lexicon : Lexicon} {premises goals : List Sentence} {options : Options} {s : Search}

/-- When a branch is to be split, the survivors of a pending inference are the nodes with
consistent branches that it would create, unless its origin is a false equivalence of a sentence
with itself.  Then it would create no such node, but it has two survivors for every open leaf
below its node where that sentence has no value. -/
theorem Reaches.survivors_unless_iff_self (h : (start lexicon premises goals options).Reaches s)
    (hstage : s.stage = .entering .branch) {inf : Inference} (hinf : inf ∈ s.prover.pending) :
    let p := s.prover
    ((∀ x, inf.origin = .iff x x → (p.tree.branch inf.node).models inf.origin ≠ some false) →
      p.survivors inf = p.remaining inf) ∧
    ∀ x, inf.origin = .iff x x → (p.tree.branch inf.node).models inf.origin = some false →
      p.remaining inf = 0 ∧ p.survivors inf =
        2 * (p.openBelow inf.node).countP fun leaf => !(p.tree.branch leaf).isMapped x := by
  intro p
  have hp : p.Coherent := h.coherent
  have hconsistent := (h.isSettled (.inr hstage)).consistent
  have hqueued := hp.queued inf hinf
  obtain ⟨needy, hneedy, habove⟩ := h.allNeeded inf hinf
  obtain ⟨value, hmodels, hyields⟩ := hqueued.exists_models hp habove (hconsistent needy hneedy)
  constructor
  · intro horigin
    have hvalue : ∀ x, inf.origin = .iff x x → value = true := by
      intro x hx
      have hnot := horigin x hx
      rw [hmodels] at hnot
      simpa using hnot
    exact hqueued.survivors_eq_remaining hp hconsistent fun facts hfacts =>
      hyields.isConsistent_of_mem_outcomes hqueued.splits hvalue hfacts
  · intro x hx hfalse
    obtain rfl : value = false := Option.some.inj (hmodels.symm.trans hfalse)
    rw [hx] at hyields
    obtain ⟨first, second, houtcomes, hboth⟩ := hyields.outcomes_of_iff_self
    exact hqueued.survivors_of_both hp hconsistent houtcomes hboth

/-- A disjunction with a false part and an equivalence that denies itself are pending together.
One alternative of the former is refuted, but neither of the latter. -/
theorem survivors_unless_iff_self_beside_disjunction :
    let text := "(premises (or B C) (not B) (not (iff A A)))"
    let A : Sentence := .atom "A"
    let either : Sentence := .disj [.atom "B", .atom "C"]
    ∃ problem lexicon', Problem.read {} text = (.ok problem, lexicon') ∧
      let s := (start lexicon' problem.premises problem.goals {}).after 6
      s.stage = .entering .branch ∧
        (∃ inf ∈ s.prover.pending, inf.origin = either ∧
          s.prover.survivors inf = s.prover.remaining inf ∧ s.prover.survivors inf = 1) ∧
        ∃ inf ∈ s.prover.pending, inf.origin = .iff A A ∧
          s.prover.remaining inf = 0 ∧ s.prover.survivors inf = 2 := by
  intro text A either
  obtain ⟨problem, lexicon', hread, htest⟩ := Problem.exists_read_of_any {} text
    (fun problem lexicon' =>
      let s := (start lexicon' problem.premises problem.goals {}).after 6
      decide (s.stage = .entering .branch ∧
        (∃ inf ∈ s.prover.pending, inf.origin = either ∧ s.prover.survivors inf = 1) ∧
        ∃ inf ∈ s.prover.pending, inf.origin = .iff A A ∧
          (s.prover.tree.branch inf.node).models inf.origin = some false ∧
          ((s.prover.openBelow inf.node).countP fun leaf =>
            !(s.prover.tree.branch leaf).isMapped A) = 1))
    (by decide +kernel)
  refine ⟨problem, lexicon', hread, ?_⟩
  intro s
  have hreach := reaches_after (start lexicon' problem.premises problem.goals {}) 6
  obtain ⟨hstage, ⟨inf, hinf, horigin, hone⟩, inf', hinf', horigin', hfalse, hleaves⟩ :=
    of_decide_eq_true htest
  have heq := (hreach.survivors_unless_iff_self hstage hinf).1 fun x hx => by
    simp [horigin, either] at hx
  obtain ⟨hnone, htwo⟩ := (hreach.survivors_unless_iff_self hstage hinf').2 A horigin' hfalse
  rw [hleaves] at htwo
  exact ⟨hstage, ⟨inf, hinf, horigin, heq, hone⟩, inf', hinf', horigin', hnone, htwo⟩

end Run

end Prover

/-- The premise denies that a sentence is equivalent to itself.  By its score the only pending
inference has two survivors, but both nodes that it would create contradict themselves. -/
theorem Problem.survivors_ne_remaining :
    ∃ problem lexicon, read {} "(premises (not (iff A A)))" = (.ok problem, lexicon) ∧ ∃ s,
      (Prover.start lexicon problem.premises problem.goals {}).Reaches s ∧
        s.stage = .entering .branch ∧ s.prover.hasCountermodel = false ∧
        ∃ inf ∈ s.prover.pending, s.prover.survivors inf = 2 ∧ s.prover.remaining inf = 0 := by
  obtain ⟨problem, lexicon, hread, s, hs, htest⟩ : ∃ problem lexicon,
      read {} "(premises (not (iff A A)))" = (.ok problem, lexicon) ∧ ∃ s,
        (Prover.start lexicon problem.premises problem.goals {}).Reaches s ∧
          decide (s.stage = .entering .branch ∧ s.prover.hasCountermodel = false ∧
            ∃ inf ∈ s.prover.pending, s.prover.survivors inf = 2 ∧
              s.prover.remaining inf = 0) = true :=
    exists_reaches_of_any {} "(premises (not (iff A A)))" {} 6 (by decide +kernel)
  exact ⟨problem, lexicon, hread, s, hs, of_decide_eq_true htest⟩

end Tableau
