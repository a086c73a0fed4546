/-
Verdicts are final.  A search that is repeated goes on with what it has, and may extend leaves
that are still open.  But where none is open none will be, and a complete leaf stays complete.
So what a verdict says of a state holds of all later states, and since no state deserves two
verdicts, all searches that return have the same one.
-/
import Tableau.Proofs.Search.Completion
import Tableau.Proofs.Search.Frontier
import Tableau.Proofs.Search.Persistence

namespace Tableau

namespace Prover

variable {p q : Prover}

/-- New leaves come from open ones only. -/
theorem Advance.openLeaves_eq_nil (h : Advance p q) (hnone : p.openLeaves = []) :
    q.openLeaves = [] := by
  cases h with
  | noted _ _ hopen | pruned _ _ hopen => exact hopen.trans hnone
  | performed leaf _ _ _ hleaf | deferred leaf _ _ _ hleaf | closed leaf _ hleaf =>
      rw [hnone] at hleaf
      contradiction
  | expanded _ hneeded =>
      obtain ⟨leaf, hleaf, -⟩ := hneeded
      rw [hnone] at hleaf
      contradiction

theorem Advances.openLeaves_eq_nil (h : Advances p q) (hp : p.Coherent)
    (hnone : p.openLeaves = []) : q.openLeaves = [] :=
  (h.preserves (P := fun r => r.openLeaves = [])
    (fun _ _ _ hr hadvance => hadvance.openLeaves_eq_nil hr) hp hnone).2

/-- A complete node is an open leaf. -/
theorem HasFrontier.isDoneAt (h : p.HasFrontier) {leaf : NodeId} (hlt : leaf < p.tree.size)
    (hcomplete : p.isComplete leaf = true) : p.IsDoneAt leaf (p.tree.branch leaf) := by
  obtain ⟨hchildren, -, hcons, -⟩ := isComplete_iff.mp hcomplete
  exact ⟨h.mem_openLeaves_of_isPathConsistent hlt hchildren hcons, hcomplete, rfl⟩

end Prover

namespace Search.Proceeds

variable {lexicon : Lexicon} {premises goals : List Sentence} {options : Options} {s t : Search}
  (h : s.Proceeds t) (hs : (Prover.start lexicon premises goals options).Reaches s)
include h hs

/-- What a verdict says stays true. -/
theorem deserves {verdict : Verdict} (hdeserves : s.prover.Deserves verdict) :
    t.prover.Deserves verdict := by
  cases verdict with
  | valid => exact (h.advances hs).openLeaves_eq_nil hs.coherent hdeserves
  | invalid =>
      obtain ⟨leaf, hleaf, hcomplete⟩ := List.any_eq_true.mp hdeserves
      exact (h.isDoneAt hs ⟨hleaf, hcomplete, rfl⟩).1.hasCountermodel
  | unfinished =>
      have hoptions := (h.reaches hs).options_eq.trans hs.options_eq.symm
      rw [Prover.Deserves, hoptions]
      exact hdeserves

/-- The branch of a complete leaf stays as it is, node by node. -/
theorem node_eq_of_isDoneAt {leaf id : NodeId} {branch : Branch}
    (hdone : s.prover.IsDoneAt leaf branch) (hid : id ∈ s.prover.tree.ancestry leaf) :
    t.prover.tree.node id = s.prover.tree.node id := by
  have hpersists := (h.advances hs).persists hs.coherent
  have hlt := hs.coherent.open_lt leaf hdone.isOpen
  rcases List.mem_cons.mp hid with rfl | habove
  · -- an open leaf may change, but not one that is complete
    have hdone' := (h.isDoneAt hs hdone).1
    have hlineage := hpersists.lineage id hlt
    apply Node.ext
    · exact hlineage
    · have hnone := (h.reaches hs).coherent.childless id hdone'.isOpen
      exact hnone.trans (hs.coherent.childless id hdone.isOpen).symm
    · have hbranch : t.prover.tree.branch id = s.prover.tree.branch id :=
        hdone'.branch_eq.trans hdone.branch_eq.symm
      exact (List.cons.inj hbranch).1
  · have hsplit : id ∉ s.prover.openLeaves := fun hopen =>
      hs.coherent.tree.children_ne_nil habove (hs.coherent.childless id hopen)
    have hle := hs.coherent.tree.le_of_mem_ancestry hid
    exact hpersists.node id (Nat.lt_of_le_of_lt hle hlt) hsplit

end Search.Proceeds

namespace Problem

variable {lexicon lexicon' : Lexicon} {text : String} {problem : Problem} {options : Options}
  {s : Search}

/-- A search that is over has a verdict. -/
theorem exists_verdict_of_isOver (hlexicon : lexicon.IsBuilt)
    (hread : read lexicon text = (.ok problem, lexicon'))
    (hs : (Prover.start lexicon' problem.premises problem.goals options).Reaches s)
    (hover : s.isOver = true) :
    ∃ verdict, s.finish.2 = .ok verdict ∧ s.prover.Deserves verdict := by
  have hnever := hs.stage_ne_failed fun p hp => instantiate_ne_error hlexicon hread hp
  cases hstage : s.stage with
  | entering | saturating => simp [Search.isOver, hstage] at hover
  | failed defect => exact absurd hstage (hnever defect)
  | done verdict =>
      refine ⟨verdict, ?_, hs.deserves_of_done hstage⟩
      simp only [Search.finish, hstage]

/-- Without a time budget, all searches that return, one after the other, have the same verdict,
and none is left unfinished.  A leaf that is complete stays open and complete, and no node on its
branch changes any more. -/
theorem verdict_is_final (hlexicon : lexicon.IsBuilt)
    (hread : read lexicon text = (.ok problem, lexicon')) (hbudget : options.maxRuntime = none)
    (hs : (Prover.start lexicon' problem.premises problem.goals options).Reaches s) :
    (s.isOver = true → ∃ verdict, s.finish.2 = .ok verdict ∧ verdict ≠ .unfinished ∧
      ∀ t, s.Proceeds t → t.isOver = true → t.finish.2 = .ok verdict) ∧
    ∀ leaf < s.prover.tree.size, s.prover.isComplete leaf = true → ∀ t, s.Proceeds t →
      leaf ∈ t.prover.openLeaves ∧ t.prover.isComplete leaf = true ∧
        ∀ id ∈ s.prover.tree.ancestry leaf, t.prover.tree.node id = s.prover.tree.node id := by
  have hoptions : ∀ t, s.Proceeds t → t.prover.options.maxRuntime = none := by
    intro t ht
    rw [(ht.reaches hs).options_eq, hbudget]
  constructor
  · intro hover
    obtain ⟨verdict, hfinish, hdeserves⟩ := exists_verdict_of_isOver hlexicon hread hs hover
    refine ⟨verdict, hfinish, ?_, fun t ht hover' => ?_⟩
    · rintro rfl
      simp [Prover.Deserves, hoptions s .refl] at hdeserves
    · obtain ⟨verdict', hfinish', hdeserves'⟩ :=
        exists_verdict_of_isOver hlexicon hread (ht.reaches hs) hover'
      rw [hfinish', hdeserves'.unique (hoptions t ht) (ht.deserves hs hdeserves)]
  · intro leaf hlt hcomplete t ht
    have hdone := hs.advances.hasFrontier.2.isDoneAt hlt hcomplete
    have hdone' := (ht.isDoneAt hs hdone).1
    exact ⟨hdone'.isOpen, hdone'.isComplete, fun id => ht.node_eq_of_isDoneAt hs hdone⟩

/-- A text whose premise is satisfied by an atom, or else by a universal sentence whose instances
never run out, with a disjunction. -/
def resumedText : String := "(premises (or A (and (forall x (P (f x))) (or B C))))"

/-- The atom makes a leaf complete, and the verdict is the same when the search is repeated.  But
the second search has another instance at the other leaf. -/
theorem verdict_is_final_resumed :
    ∃ problem lexicon', read {} resumedText = (.ok problem, lexicon') ∧ ∃ s t : Search,
      (Prover.start lexicon' problem.premises problem.goals {}).Reaches s ∧ s.Proceeds t ∧
        s.isOver = true ∧ t.isOver = true ∧ s.prover.log.size < t.prover.log.size ∧
        s.finish.2 = .ok .invalid ∧ t.finish.2 = .ok .invalid ∧
        s.prover.isComplete 1 = true ∧ t.prover.isComplete 1 = true ∧
        t.prover.tree.node 1 = s.prover.tree.node 1 := by
  obtain ⟨problem, lexicon', hread, s, hs, htest⟩ : ∃ problem lexicon',
      read {} resumedText = (.ok problem, lexicon') ∧ ∃ s,
        (Prover.start lexicon' problem.premises problem.goals {}).Reaches s ∧
          decide (s.stage = .done .invalid ∧ 1 < s.prover.tree.size ∧ s.prover.isComplete 1 = true ∧
            (s.finish.1.after 9).isOver = true ∧
            s.prover.log.size < (s.finish.1.after 9).prover.log.size) = true :=
    exists_reaches_of_any {} resumedText {} 17 (by decide +kernel)
  obtain ⟨hstage, hlt, hcomplete, hover', hlonger⟩ := of_decide_eq_true htest
  have hover : s.isOver = true := by simp [Search.isOver, hstage]
  have hinvalid : s.finish.2 = .ok .invalid := by simp [Search.finish, hstage]
  have ht : s.Proceeds (s.finish.1.after 9) := Prover.proceeds_after_finish hover 9
  obtain ⟨hverdict, hleaves⟩ := verdict_is_final .empty hread rfl hs
  obtain ⟨verdict, hfinish, -, hsame⟩ := hverdict hover
  obtain ⟨-, hcomplete', hnodes⟩ := hleaves 1 hlt hcomplete _ ht
  exact ⟨problem, lexicon', hread, s, _, hs, ht, hover, hover', hlonger, hinvalid,
    (hsame _ ht hover').trans (hfinish.symm.trans hinvalid), hcomplete, hcomplete',
    hnodes 1 (Tree.mem_ancestry_self ..)⟩

end Problem

end Tableau
