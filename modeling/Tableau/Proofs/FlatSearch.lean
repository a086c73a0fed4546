/-
Searches for flat arguments end.  The workloads of the consistent open branches are compared
as multisets: firing a rule replaces one workload by a smaller one, and carrying out a pending
inference replaces some by any number of smaller ones.
-/
import Mathlib.Data.Multiset.DershowitzManna
import Tableau.Proofs.Search.Discharge
import Tableau.Proofs.Search.Queue
import Tableau.Proofs.Search.Termination
import Tableau.Proofs.Workload

namespace Tableau

theorem Tree.Adds.extends {tree tree' : Tree} {id : NodeId} {added : Addition}
    (h : tree.Adds id added tree') : (tree.branch id).Extends added (tree'.branch id) where
  has k value := by simp [h.has, Tree.mem_ancestry_self]
  isDecomposed k := by simp [h.isDecomposed, Tree.mem_ancestry_self]
  mem_instancesOf k term := by simp [h.mem_instancesOf, Tree.mem_ancestry_self]

/-! What rules do to the workload of a branch. -/

namespace Rule

variable {sorts : Sorts} {s : Sentence} {value : Bool} {inf : Inference} {branch branch' : Branch}

section Workload

variable (hyields : Yields sorts s value inf.effect) (hs : s.IsFlat)
  (hterms : ∀ term ∈ inf.terms, term.isConstant = true) (hgives : branch.Gives ⟨s, value⟩)
include hyields hs hterms hgives

/-- A rule that does not split is carried out. -/
theorem workload_lt_of_performed (horigin : inf.origin = s) (hsplit : inf.isBranching = false)
    (h : branch.Extends inf.addition branch') (hunmarked : branch.isDecomposed s = false)
    (hcons : branch'.isConsistent = true)
    (hunused : ∀ binder terms facts, inf.effect = .universal binder terms facts →
      branch.instancesOf s = [] ∨
        ∀ term ∈ terms, branch.Visible term ∧ term ∉ branch.instancesOf s)
    (queue : List Sentence) : branch'.workload queue < branch.workload queue := by
  have hmarked : (∀ binder terms facts, inf.effect ≠ .universal binder terms facts) →
      branch'.isDecomposed s = true := fun huniversal =>
    (h.isDecomposed _).mpr (Or.inr (horigin ▸ Inference.origin_mem_marks_addition huniversal))
  have hnew : ∀ fact, fact ∈ inf.addition.facts ↔ ∃ outcome ∈ inf.outcomes, fact ∈ outcome :=
    fun fact => Inference.mem_facts_addition
  generalize heffect : inf.effect = eff at hyields
  cases hyields with
  | @connective _ _ alternatives lex halts =>
      match alternatives with
      | [] =>
          -- a sentence without alternatives gets the opposite value too
          have hopposite : branch'.has s (!value) = true := by
            refine (h.has _ _).mpr (Or.inr ((hnew _).mpr ?_))
            simp [outcomes_effect heffect]
          have hold : branch'.has s value = true := (h.has _ _).mpr (Or.inl hgives)
          rw [Branch.isConsistent_iff.mp hcons _ _ hold] at hopposite
          contradiction
      | [facts] =>
          refine Branch.workload_lt_of_alternative halts List.mem_cons_self h (fun fact hfact => ?_)
            (by simp [Inference.addition, heffect, effect]) hgives
            (hmarked (by simp [heffect, effect])) hunmarked queue
          simpa [outcomes_effect heffect] using (hnew fact).mp hfact
      | first :: second :: rest => simp [Inference.isBranching, heffect, effect] at hsplit
  | dualAll lex =>
      refine Branch.workload_lt_of_dual (Or.inl ⟨rfl, rfl⟩) h (fun fact hfact => ?_)
        (by simp [Inference.addition, heffect]) hgives hunmarked (hmarked (by simp [heffect])) queue
      simpa [Inference.outcomes, heffect] using (hnew fact).mp hfact
  | dualEx lex =>
      refine Branch.workload_lt_of_dual (Or.inr ⟨rfl, rfl⟩) h (fun fact hfact => ?_)
        (by simp [Inference.addition, heffect]) hgives hunmarked (hmarked (by simp [heffect])) queue
      simpa [Inference.outcomes, heffect] using (hnew fact).mp hfact
  | @universal binder body terms lex hne hinst =>
      have hfacts : ∀ fact ∈ inf.addition.facts,
          ∃ term ∈ terms, fact = ⟨body.subst binder term, true⟩ := by
        intro fact hfact
        simpa [Inference.outcomes, heffect, Sentence.valued, eq_comm] using (hnew fact).mp hfact
      have hused : ∀ k term, (k, term) ∈ inf.addition.terms ↔
          k = Sentence.all binder body ∧ term ∈ terms := by
        intro k term
        rw [Inference.mem_terms_addition, horigin]
        simp [heffect]
      have hconstants : ∀ term ∈ terms, term.isConstant = true := by
        simpa [Inference.terms, heffect] using hterms
      rcases hunused _ _ _ heffect with hnone | hnew
      · exact Branch.workload_lt_of_first_instances hs h hfacts hused hne hconstants
          hgives hunmarked
          hnone queue
      · exact Branch.workload_lt_of_instances hs h hfacts hused hne hconstants hgives hunmarked
          (by simp [Inference.addition, heffect]) hnew queue
  | @existential binder body terms name sort lex hsort hlast hinst =>
      refine Branch.workload_lt_of_witness hs h (fun fact hfact => ?_) hgives hunmarked
        (hmarked (by simp [heffect])) queue
      obtain ⟨outcome, houtcome, hfact⟩ := (hnew fact).mp hfact
      simp only [Inference.outcomes, heffect, List.mem_map] at houtcome
      obtain ⟨term, hterm, rfl⟩ := houtcome
      exact ⟨term, hterms term (by simpa [Inference.terms, heffect] using hterm),
        by simpa [Sentence.valued] using hfact⟩

omit hs hterms in
/-- A rule that splits is put off. -/
theorem workload_lt_of_put_off (hsplit : inf.isBranching = true)
    (h : branch.Extends { marks := [s.key] } branch') (hunmarked : branch.isDecomposed s = false)
    (queue : List Sentence) : branch'.workload (s :: queue) < branch.workload queue := by
  refine Branch.workload_lt_of_queued h hgives hunmarked ?_ queue
  generalize heffect : inf.effect = eff at hyields
  cases hyields with
  | @connective _ _ alternatives lex halts =>
      match alternatives with
      | [] | [facts] => simp [Inference.isBranching, heffect, effect] at hsplit
      | first :: second :: rest => exact Or.inl ⟨_, halts, by simp⟩
  | dualAll | dualEx | universal => simp [Inference.isBranching, heffect] at hsplit
  | @existential binder body => exact Or.inr ⟨⟨binder, body, rfl⟩, rfl⟩

/-- An outcome of a rule that has been put off is taken. -/
theorem workload_lt_of_outcome (hsplit : inf.isBranching = true) {outcome : Outcome}
    (houtcome : outcome ∈ inf.outcomes) (h : branch.Extends { facts := outcome } branch')
    (hmarked : branch.isDecomposed s = true) (queue : List Sentence) :
    branch'.workload queue < branch.workload (s :: queue) := by
  generalize heffect : inf.effect = eff at hyields
  cases hyields with
  | @connective _ _ alternatives lex halts =>
      have hsome : alternatives ≠ [] := by
        rintro rfl
        simp [Inference.isBranching, heffect, effect] at hsplit
      rw [outcomes_effect heffect, if_neg hsome] at houtcome
      obtain ⟨facts, hfacts, rfl⟩ := List.mem_map.mp houtcome
      exact Branch.workload_lt_of_pending_alternative halts hfacts h
        (fun fact hfact => Lexicon.mem_arrange.mp hfact) rfl hgives
        ((h.isDecomposed _).mpr (Or.inl hmarked)) queue
  | dualAll | dualEx | universal => simp [Inference.isBranching, heffect] at hsplit
  | @existential binder body terms name sort lex hsort hlast hinst =>
      refine Branch.workload_lt_of_pending_witness hs h (fun fact hfact => ?_) queue
      simp only [Inference.outcomes, heffect, List.mem_map] at houtcome
      obtain ⟨term, hterm, rfl⟩ := houtcome
      exact ⟨term, hterms term (by simpa [Inference.terms, heffect] using hterm),
        by simpa [Sentence.valued] using hfact⟩

end Workload

end Rule

namespace Prover

variable {p q : Prover} {leaf : NodeId}

def workloadAt (p : Prover) (leaf : NodeId) : ℕ ×ₗ ℕ :=
  (p.tree.branch leaf).workload ((p.pendingAt leaf).map (·.origin))

/-- Leaves with the same branch and the same queue have the same workload. -/
theorem workloadAt_congr (hbranch : q.tree.branch leaf = p.tree.branch leaf)
    (hqueue : (p.pendingAt leaf).Perm (q.pendingAt leaf)) :
    q.tree.isPathConsistent leaf = p.tree.isPathConsistent leaf ∧
      q.workloadAt leaf = p.workloadAt leaf := by
  unfold Tree.isPathConsistent workloadAt
  rw [hbranch, Branch.workload_perm _ (hqueue.map _)]
  exact ⟨rfl, rfl⟩

/-- The workloads of those of some leaves whose branches are consistent. -/
def workloadsOf (p : Prover) (leaves : List NodeId) : Multiset (ℕ ×ₗ ℕ) :=
  ((leaves.filter p.tree.isPathConsistent).map p.workloadAt : List (ℕ ×ₗ ℕ))

/-- What is left to do in a search. -/
def workloads (p : Prover) : Multiset (ℕ ×ₗ ℕ) := p.workloadsOf p.openLeaves

theorem workloadsOf_append (p : Prover) (leaves more : List NodeId) :
    p.workloadsOf (leaves ++ more) = p.workloadsOf leaves + p.workloadsOf more := by
  simp [workloadsOf]

theorem workloadsOf_perm (p : Prover) {leaves leaves' : List NodeId} (h : leaves.Perm leaves') :
    p.workloadsOf leaves = p.workloadsOf leaves' :=
  Multiset.coe_eq_coe.mpr ((h.filter _).map _)

theorem workloadsOf_congr {leaves : List NodeId}
    (h : ∀ leaf ∈ leaves, q.tree.isPathConsistent leaf = p.tree.isPathConsistent leaf ∧
      q.workloadAt leaf = p.workloadAt leaf) : q.workloadsOf leaves = p.workloadsOf leaves := by
  unfold workloadsOf
  rw [List.filter_congr fun leaf hleaf => (h leaf hleaf).1]
  exact congrArg _ (List.map_congr_left fun leaf hleaf => (h leaf (List.mem_filter.mp hleaf).1).2)

theorem mem_workloadsOf {leaves : List NodeId} {load : ℕ ×ₗ ℕ} :
    load ∈ p.workloadsOf leaves ↔
      ∃ leaf ∈ leaves, p.tree.isPathConsistent leaf = true ∧ p.workloadAt leaf = load := by
  simp [workloadsOf, and_assoc]

/-- Where some leaves are replaced by others with smaller workloads, less is left to do,
unless the branches of all these leaves are inconsistent. -/
theorem workloads_cases {rest old new : List NodeId} (hp : p.openLeaves.Perm (rest ++ old))
    (hq : q.openLeaves.Perm (rest ++ new))
    (hrest : ∀ leaf ∈ rest, q.tree.isPathConsistent leaf = p.tree.isPathConsistent leaf ∧
      q.workloadAt leaf = p.workloadAt leaf)
    (hnew : ∀ leaf ∈ new, q.tree.isPathConsistent leaf = true → ∃ above ∈ old,
      p.tree.isPathConsistent above = true ∧ q.workloadAt leaf < p.workloadAt above) :
    q.workloads.IsDershowitzMannaLT p.workloads ∨
      (∀ leaf ∈ old, p.tree.isPathConsistent leaf = false) ∧ q.workloads = p.workloads := by
  have hbefore : p.workloads = p.workloadsOf rest + p.workloadsOf old :=
    (p.workloadsOf_perm hp).trans (p.workloadsOf_append rest old)
  have hafter : q.workloads = p.workloadsOf rest + q.workloadsOf new := by
    rw [← workloadsOf_congr hrest]
    exact (q.workloadsOf_perm hq).trans (q.workloadsOf_append rest new)
  have hsmaller : ∀ load ∈ q.workloadsOf new, ∃ load' ∈ p.workloadsOf old, load < load' := by
    intro load hload
    obtain ⟨leaf, hleaf, hcons, rfl⟩ := mem_workloadsOf.mp hload
    obtain ⟨above, habove, hcons', hlt⟩ := hnew leaf hleaf hcons
    exact ⟨_, mem_workloadsOf.mpr ⟨above, habove, hcons', rfl⟩, hlt⟩
  by_cases hnone : p.workloadsOf old = ∅
  · refine Or.inr ⟨fun leaf hleaf => ?_, ?_⟩
    · rw [← Bool.not_eq_true]
      intro hcons
      have hmem : p.workloadAt leaf ∈ p.workloadsOf old :=
        mem_workloadsOf.mpr ⟨leaf, hleaf, hcons, rfl⟩
      simp [hnone] at hmem
    · -- a new leaf is only consistent below one that was
      have hnone' : q.workloadsOf new = 0 := by
        refine Multiset.eq_zero_of_forall_notMem fun load hload => ?_
        obtain ⟨load', hload', -⟩ := hsmaller load hload
        simp [hnone] at hload'
      rw [hbefore, hafter, hnone, hnone']
      rfl
  · exact Or.inl ⟨_, _, _, hnone, hafter, hbefore, hsmaller⟩

/-! What a search does to the workloads. -/

/-- All sentences and terms of a search are flat. -/
structure IsFlat (p : Prover) : Prop extends p.Inherits Sentence.IsFlat Sentence.IsFlatTerm where
  pendingTerms : ∀ inf ∈ p.pending, ∀ term ∈ inf.terms, term.IsFlatTerm

theorem IsFlat.transition (h : p.IsFlat) (hp : p.Coherent) (htransition : Transition p q) :
    q.IsFlat := by
  have hrules := Sentence.hereditary_isFlat p.lexicon.sorts
  refine ⟨htransition.inherits hrules hp h.toInherits, fun inf hinf => ?_⟩
  rcases htransition.pending_cases hinf with hold | hfired
  · exact h.pendingTerms inf hold
  · exact (h.toInherits.fired hrules hfired).1

/-- Firing a rule lowers the workload of its leaf, if the branch stays consistent. -/
theorem workloadAt_commit_lt (hp : p.Coherent) (hflat : p.IsFlat) (hleaf : leaf ∈ p.openLeaves)
    {k : Key} {value : Bool} {inf : Inference} {lex : Lexicon}
    (hfires : Rule.Fires p.lexicon p.tree leaf k value inf lex)
    (hcons : ({ p with lexicon := lex }.commit inf).tree.isPathConsistent leaf = true) :
    ({ p with lexicon := lex }.commit inf).workloadAt leaf < p.workloadAt leaf := by
  obtain ⟨s, rfl⟩ : ∃ s : Sentence, k = s.key := ⟨k.sentence, (Key.key_sentence k).symm⟩
  have hyields : Rule.Yields p.lexicon.sorts s value inf.effect := hfires.yields
  have hgives : (p.tree.branch leaf).Gives ⟨s, value⟩ := Branch.has_of_models hfires.models
  have hs : s.IsFlat := hflat.has leaf s value hgives
  have hterms : ∀ term ∈ inf.terms, term.isConstant = true := fun term hterm =>
    ((hflat.toInherits.fired (Sentence.hereditary_isFlat _)
      ⟨leaf, hleaf, _, _, hfires⟩).1 term hterm).isConstant
  obtain ⟨added, more, htree, hpending, hnodes, hcases⟩ :=
    exists_adds_pending_commit hp hleaf hfires
  unfold workloadAt
  rw [pendingAt_leaf_of_adds htree hpending hnodes, List.map_append]
  rcases hcases with ⟨hsplit, rfl, rfl⟩ | ⟨hsplit, rfl, rfl⟩
  · rw [List.map_singleton, Branch.workload_perm _ (List.perm_append_singleton ..)]
    have horigin : inf.origin = s := hfires.origin_eq
    rw [horigin]
    exact Rule.workload_lt_of_put_off hyields hgives hsplit htree.extends hfires.not_decomposed _
  · rw [List.map_nil, List.append_nil]
    exact Rule.workload_lt_of_performed hyields hs hterms hgives hfires.origin_eq hsplit
      htree.extends
      hfires.not_decomposed hcons hfires.unused _

theorem workloads_commit (hp : p.Coherent) (hflat : p.IsFlat) (h : p.CommitsAt leaf q) :
    q.workloads.IsDershowitzMannaLT p.workloads ∨
      p.tree.isPathConsistent leaf = false ∧ q.workloads = p.workloads := by
  obtain ⟨hleaf, k, value, inf, lex, hfires, -, rfl⟩ := h
  obtain ⟨added, more, htree, hpending, hnodes, -⟩ := exists_adds_pending_commit hp hleaf hfires
  have hperm : p.openLeaves.Perm (p.openLeaves.erase leaf ++ [leaf]) :=
    (List.perm_cons_erase hleaf).trans (List.perm_append_singleton ..).symm
  have hperm' : ({ p with lexicon := lex }.commit inf).openLeaves.Perm
      (p.openLeaves.erase leaf ++ [leaf]) := by
    rwa [openLeaves_commit]
  have hothers : ∀ other ∈ p.openLeaves.erase leaf,
      ({ p with lexicon := lex }.commit inf).tree.isPathConsistent other =
          p.tree.isPathConsistent other ∧
        ({ p with lexicon := lex }.commit inf).workloadAt other = p.workloadAt other := by
    intro other hother
    obtain ⟨hne, -⟩ := hp.nodup.mem_erase_iff.mp hother
    obtain ⟨hbranch, hqueue⟩ := branch_pendingAt_of_adds htree hpending hnodes hp hleaf hne
    exact workloadAt_congr hbranch (.of_eq hqueue.symm)
  refine (workloads_cases hperm hperm' hothers fun other hother hcons => ?_).imp_right
    fun ⟨hconflict, hsame⟩ => ⟨hconflict leaf List.mem_cons_self, hsame⟩
  obtain rfl := List.mem_singleton.mp hother
  exact ⟨other, List.mem_cons_self, htree.extends.isConsistent hcons,
    workloadAt_commit_lt hp hflat hleaf hfires hcons⟩

/-- Only inconsistent branches are closed. -/
theorem workloads_close (hp : p.Coherent) : p.close.workloads = p.workloads := by
  have htree : p.close.tree = p.tree := (foldl_recordClosure _ p).2.1
  have hsame : p.close.workloads = p.workloadsOf p.close.openLeaves := by
    refine workloadsOf_congr fun leaf hleaf => ?_
    exact workloadAt_congr (by rw [htree]) (.of_eq (pendingAt_close hleaf).symm)
  rw [hsame, workloads, workloadsOf, workloadsOf, openLeaves_close hp, List.filter_filter]
  simp

/-- A consistent leaf that takes the place of another one has a smaller workload. -/
theorem exists_workloadAt_lt {inf : Inference} {created : List NodeId} (hp : p.Coherent)
    (hperm : p.pending.Perm (inf :: q.pending))
    (htree : p.tree.Grafts (p.openBelow inf.node)
      (inf.outcomes.map fun facts => Assignment.ofFacts facts inf.number) q.tree created)
    (hflat : p.IsFlat) (hleaf : leaf ∈ created) (hcons : q.tree.isPathConsistent leaf = true) :
    ∃ above ∈ p.openBelow inf.node,
      p.tree.isPathConsistent above = true ∧ q.workloadAt leaf < p.workloadAt above := by
  obtain ⟨above, habove, outcome, houtcome, -, hbranch, hqueue⟩ :=
    exists_above_of_mem_created hp hperm htree hleaf
  have hextends : (p.tree.branch above).Extends { facts := outcome } (q.tree.branch leaf) := by
    rw [hbranch]
    exact Branch.extends_cons outcome inf.number _
  have hinf : inf ∈ p.pending := hperm.mem_iff.mpr List.mem_cons_self
  have hqueued := hp.queued inf hinf
  obtain ⟨value, hvalue, hyields⟩ := hqueued.exists_value
  have hup : inf.node ∈ p.tree.ancestry above :=
    Tree.isDescendant_iff.mp (List.mem_filter.mp habove).2
  refine ⟨above, habove, hextends.isConsistent hcons, ?_⟩
  unfold workloadAt
  rw [Branch.workload_perm _ (hqueue.map _), List.map_cons]
  exact Rule.workload_lt_of_outcome hyields (hflat.has _ _ _ hvalue)
    (fun term hterm => (hflat.pendingTerms inf hinf term hterm).isConstant)
    (hp.tree.has_branch_mono hup hvalue) hqueued.splits houtcome hextends
    (hp.tree.isDecomposed_branch_mono hup hqueued.marked) _

theorem workloads_commitBranch? (hp : p.Coherent) (hflat : p.IsFlat)
    (h : p.commitBranch? = some q) :
    q.workloads.IsDershowitzMannaLT p.workloads ∨ q.workloads = p.workloads := by
  obtain ⟨inf, created, hperm, -, -, htree, hopen⟩ := commitBranch?_eq_some hp h
  have hleaves : p.openLeaves.Perm (p.openElsewhere inf.node ++ p.openBelow inf.node) :=
    (List.filter_append_perm _ p.openLeaves).symm.trans List.perm_append_comm
  have helsewhere : ∀ leaf ∈ p.openElsewhere inf.node,
      q.tree.isPathConsistent leaf = p.tree.isPathConsistent leaf ∧
        q.workloadAt leaf = p.workloadAt leaf := by
    intro leaf hleaf
    obtain ⟨hbranch, hqueue⟩ := branch_pendingAt_elsewhere hp hperm htree hleaf
    exact workloadAt_congr hbranch hqueue
  refine (workloads_cases hleaves (.of_eq hopen) helsewhere ?_).imp_right And.right
  intro leaf hleaf hcons
  exact exists_workloadAt_lt hp hperm htree hflat hleaf hcons

theorem IsFlat.declines (hp : p.Coherent) (hflat : p.IsFlat) :
    p.Declines Multiset.IsDershowitzMannaLT workloads where
  noted q _ htree hopen hpending := by
    unfold workloads workloadsOf workloadAt pendingAt
    rw [htree, hopen, hpending]
  commit leaf q h := workloads_commit hp hflat h
  close := Or.inr (workloads_close hp)
  expand q h := workloads_commitBranch? hp hflat h

end Prover

namespace Problem

variable {lexicon lexicon' : Lexicon} {text : String} {problem : Problem} {options : Options}

theorem isFlat_of_read (hread : read lexicon text = (.ok problem, lexicon'))
    (happlication : ∀ s ∈ problem.premises ++ problem.goals, s.lacks Sentence.isApplication = true)
    (hnested : ∀ s ∈ problem.premises ++ problem.goals, s.lacks Sentence.isNested = true)
    {p : Prover}
    (hp : (Prover.start lexicon' problem.premises problem.goals options).Leads p) : p.IsFlat := by
  have hclosed := isClosedFormula_of_mem_rootFacts hread
  have hshallow : ∀ fact ∈ Prover.rootFacts problem.premises problem.goals,
      fact.sentence.lacks Sentence.isDeep = true :=
    Prover.lacks_of_mem_rootFacts (fun _ => rfl) fun s hs =>
      Sentence.lacks_isDeep (happlication s hs) (hnested s hs)
  refine (hp.preserves (P := Prover.IsFlat) (fun _ _ hcoh h => h.transition hcoh)
    Prover.coherent_start ⟨?_, by simp⟩).2
  exact (Prover.Leads.inherits (.refl _) (Sentence.hereditary_isFlat _)
    fun fact hfact => ⟨hclosed fact hfact, hshallow fact hfact⟩).2

/-- Without applications of functions and nested quantifiers the search for a problem that has
been read ends, if there is no time budget, and finds that the goals follow or that they do
not. -/
theorem exists_prove?_of_flat (hlexicon : lexicon.IsBuilt)
    (hread : read lexicon text = (.ok problem, lexicon'))
    (happlication : ∀ s ∈ problem.premises ++ problem.goals, s.lacks Sentence.isApplication = true)
    (hnested : ∀ s ∈ problem.premises ++ problem.goals, s.lacks Sentence.isNested = true)
    (hbudget : options.maxRuntime = none) :
    ∃ prover verdict enough, (verdict = .valid ∨ verdict = .invalid) ∧ ∀ fuel ≥ enough,
      (Prover.start lexicon' problem.premises problem.goals options).prove? fuel =
        some (prover, .ok verdict) := by
  have hdeclines : ∀ p, (Prover.start lexicon' problem.premises problem.goals options).Leads p →
      p.Declines Multiset.IsDershowitzMannaLT Prover.workloads := fun p hp =>
    (isFlat_of_read hread happlication hnested hp).declines
      (hp.coherent Prover.coherent_start)
  obtain ⟨⟨prover, result⟩, enough, hreturns⟩ := Prover.exists_prove?_of_declines
    Multiset.wellFounded_isDershowitzMannaLT (fun _ _ _ => Multiset.IsDershowitzMannaLT.trans)
    hdeclines
  have hmay := Prover.mayReturn_of_prove? (hreturns enough (Nat.le_refl _))
  obtain ⟨verdict, rfl⟩ := hmay.exists_verdict fun p hp => instantiate_ne_error hlexicon hread hp
  refine ⟨prover, verdict, enough, ?_, hreturns⟩
  obtain ⟨s, hs, -, hdeserves⟩ := hmay.deserves
  cases verdict with
  | valid => exact Or.inl rfl
  | invalid => exact Or.inr rfl
  | unfinished =>
      have hsome : s.prover.options.maxRuntime.isSome = true := hdeserves
      simp [hs.sameProblem.options, hbudget] at hsome

/-- A text with quantifiers for two sorts under connectives, and an equality. -/
def quantifiersText : String :=
  "(declarations (sort S) (constant a S))
  (premises (forall x (or (P x) (= x a))) (or (exists (y S) (not (P y))) Q))
  (goals (implies (not Q) (not (forall (z S) (P z)))) (exists y (= y a)))"

theorem exists_prove?_of_flat_quantifiers :
    ∃ problem lexicon', read {} quantifiersText = (.ok problem, lexicon') ∧
      (∀ s ∈ problem.premises ++ problem.goals, s.lacks Sentence.isApplication = true) ∧
      (∀ s ∈ problem.premises ++ problem.goals, s.lacks Sentence.isNested = true) ∧
      ∃ prover verdict enough, (verdict = .valid ∨ verdict = .invalid) ∧ ∀ fuel ≥ enough,
        (Prover.start lexicon' problem.premises problem.goals {}).prove? fuel =
          some (prover, .ok verdict) := by
  obtain ⟨problem, lexicon', hread, htest⟩ := exists_read_of_any {} quantifiersText
    (fun problem _ => decide
      ((∀ s ∈ problem.premises ++ problem.goals, s.lacks Sentence.isApplication = true) ∧
        ∀ s ∈ problem.premises ++ problem.goals, s.lacks Sentence.isNested = true))
    (by decide +kernel)
  obtain ⟨happlication, hnested⟩ := of_decide_eq_true htest
  exact ⟨problem, lexicon', hread, happlication, hnested,
    exists_prove?_of_flat .empty hread happlication hnested rfl⟩

end Problem

end Tableau
