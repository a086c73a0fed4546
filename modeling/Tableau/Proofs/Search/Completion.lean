/-
Complete leaves.  A complete leaf stays complete whatever the search does elsewhere, no
pending branch is committed any more, and only one verdict is left.  But instantiation comes
before the branching phase, where complete leaves are noticed.  A search ends at once if
instantiation has no effect at other leaves, and otherwise it goes on, forever if they never
run out of terms.
-/
import Mathlib.Data.Finset.Max
import Tableau.Proofs.Hintikka
import Tableau.Proofs.Search.Discharge
import Tableau.Proofs.Search.Termination

namespace Tableau

/-- What is left to do for a quantified sentence depends on the sorts and the branch only. -/
theorem Rule.isOpenQuantifier_congr {lex lex' : Lexicon} (hsorts : lex'.sorts = lex.sorts)
    (branch : Branch) (k : Key) :
    isOpenQuantifier lex' branch k = isOpenQuantifier lex branch k := by
  have hvalues : lex'.values = lex.values := by
    unfold Lexicon.values Lexicon.ranges
    rw [hsorts]
  unfold isOpenQuantifier isOpenAmong isUnexhausted
  rw [hvalues]

namespace Prover

variable {p q : Prover} {leaf : NodeId} {branch : Branch}

/-- An open leaf is complete, with the given branch. -/
structure IsDoneAt (p : Prover) (leaf : NodeId) (branch : Branch) : Prop where
  isOpen : leaf ∈ p.openLeaves
  isComplete : p.isComplete leaf = true
  branch_eq : p.tree.branch leaf = branch

theorem IsDoneAt.hasCountermodel (h : p.IsDoneAt leaf branch) : p.hasCountermodel = true :=
  List.any_eq_true.mpr ⟨leaf, h.isOpen, h.isComplete⟩

/-- A leaf stays complete if its branch stays as it is and nothing is put off there. -/
theorem IsDoneAt.of_branch_eq (h : p.IsDoneAt leaf branch) (hq : q.Coherent)
    (hsorts : q.lexicon.sorts = p.lexicon.sorts) (hleaf : leaf ∈ q.openLeaves)
    (hancestry : q.tree.ancestry leaf = p.tree.ancestry leaf)
    (hbranch : q.tree.branch leaf = p.tree.branch leaf)
    (hpending : ∀ inf ∈ q.pending, inf ∈ p.pending ∨ inf.node ∉ p.tree.ancestry leaf) :
    q.IsDoneAt leaf branch := by
  obtain ⟨-, hnone, hcons, hwaiting, hquantifiers⟩ := isComplete_iff.mp h.isComplete
  refine ⟨hleaf, isComplete_iff.mpr ⟨hq.childless leaf hleaf, ?_, ?_, ?_, ?_⟩,
    hbranch.trans h.branch_eq⟩
  · intro inf hinf
    rw [hancestry]
    exact (hpending inf hinf).elim (hnone inf) id
  · rwa [hbranch]
  · rwa [hbranch]
  · intro k
    rw [hbranch, Rule.isOpenQuantifier_congr hsorts]
    exact hquantifiers k

/-- Rules are fired at other leaves only. -/
theorem IsDoneAt.not_mem_ancestry_of_fires (h : p.IsDoneAt leaf branch) (hp : p.Coherent)
    {other : NodeId} (hother : other ∈ p.openLeaves) {k : Key} {value : Bool} {inf : Inference}
    {lex : Lexicon} (hfires : Rule.Fires p.lexicon p.tree other k value inf lex) :
    other ∉ p.tree.ancestry leaf := by
  intro hmem
  obtain rfl := hp.tree.eq_of_childless (hp.childless other hother) hmem
  obtain ⟨-, -, -, hwaiting, hquantifiers⟩ := isComplete_iff.mp h.isComplete
  rcases hfires.isReady with hready | hready
  · simp [hwaiting k] at hready
  · simp [hquantifiers k] at hready

theorem Transition.isDoneAt (htransition : Transition p q) (hp : p.Coherent)
    (h : p.IsDoneAt leaf branch) : q.IsDoneAt leaf branch := by
  have hq := htransition.coherent hp
  have hsorts := htransition.lexicon_growsTo.sorts
  cases htransition with
  | noted _ htree hopen hpending =>
      refine h.of_branch_eq hq hsorts (hopen ▸ h.isOpen) (by rw [htree]) (by rw [htree]) ?_
      exact fun inf hinf => Or.inl (hpending ▸ hinf)
  | added other _ _ inf hother hfires _ htree hopen hpending =>
      have hnot := h.not_mem_ancestry_of_fires hp hother hfires
      refine h.of_branch_eq hq hsorts (hopen ▸ h.isOpen) (htree.ancestry leaf)
        (htree.branch_of_not_mem hnot) ?_
      exact fun inf hinf => Or.inl (hpending ▸ hinf)
  | queued other _ _ inf hother hfires _ htree hopen hpending =>
      have hnot := h.not_mem_ancestry_of_fires hp hother hfires
      refine h.of_branch_eq hq hsorts (hopen ▸ h.isOpen) (htree.ancestry leaf)
        (htree.branch_of_not_mem hnot) fun new hnew => ?_
      rw [hpending, List.mem_append, List.mem_singleton] at hnew
      rcases hnew with hold | rfl
      · exact Or.inl hold
      · exact Or.inr (hfires.node_eq ▸ hnot)
  | closed _ htree hopen hpending =>
      obtain ⟨-, -, hcons, -⟩ := isComplete_iff.mp h.isComplete
      refine h.of_branch_eq hq hsorts ?_ (by rw [htree]) (by rw [htree]) fun inf hinf => ?_
      · rw [hopen]
        exact List.mem_filter.mpr ⟨h.isOpen, hcons⟩
      · rw [hpending] at hinf
        exact Or.inl (List.mem_filter.mp hinf).1
  | expanded inf _ hperm hsub _ htree hopen =>
      have hlt := hp.open_lt leaf h.isOpen
      refine h.of_branch_eq hq hsorts ?_ (htree.ancestry hlt) (htree.branch_of_lt hp.tree hlt) ?_
      · obtain ⟨-, hnone, -⟩ := isComplete_iff.mp h.isComplete
        have hnot := hnone inf (hperm.mem_iff.mpr List.mem_cons_self)
        rw [hopen]
        refine List.mem_append_left _ (List.mem_filter.mpr ⟨h.isOpen, ?_⟩)
        rw [Bool.not_eq_true', ← Bool.not_eq_true, Tree.isDescendant_iff]
        exact hnot
      · exact fun new hnew => Or.inl (hsub.subset hnew)

theorem IsDoneAt.leads (h : p.IsDoneAt leaf branch) (hp : p.Coherent) (hleads : Leads p q) :
    q.IsDoneAt leaf branch :=
  (hleads.preserves (P := fun r => r.IsDoneAt leaf branch)
    (fun _ _ hr hdone htransition => htransition.isDoneAt hr hdone) hp h).2

/-- Firing rules makes no nodes. -/
theorem Commits.size_eq (h : p.Commits q) (hp : p.Coherent) : q.tree.size = p.tree.size := by
  refine (h.preserves (P := fun r => r.tree.size = p.tree.size) ?_ hp rfl).2
  rintro r r' leaf hr hsame ⟨hleaf, k, value, inf, lex, hfires, -, rfl⟩
  obtain ⟨added, htree, -⟩ := exists_adds_commit hr hleaf hfires
  exact htree.size.trans hsame

/-! The log. -/

theorem log_commit (p : Prover) (inf : Inference) :
    (p.commit inf).log = if inf.isBranching then p.log else p.log.push inf := by
  unfold commit
  split <;> rfl

/-- The log is longer after obligations that have had an effect, and the same otherwise. -/
theorem log_discharge {obligations : List Obligation} {changed : Bool}
    (h : (p.discharge obligations).2 = .ok changed) :
    if changed then p.log.size < (p.discharge obligations).1.log.size
    else (p.discharge obligations).1.log = p.log := by
  induction obligations generalizing p changed with
  | nil =>
      obtain rfl : false = changed := Except.ok.inj h
      rfl
  | cons ob rest ih =>
      revert h
      unfold discharge
      split
      · exact ih
      · split
        · intro h
          contradiction
        · next inf lexicon hinst =>
            have hlog := log_commit { p with lexicon } inf
            simp only
            generalize hr : ({ p with lexicon }.commit inf).discharge rest = r
            obtain ⟨last, _ | more⟩ := r
            · intro h
              contradiction
            · have hrest := ih (p := { p with lexicon }.commit inf) (congrArg Prod.snd hr)
              intro h
              obtain rfl : (!inf.isBranching || more) = changed := Except.ok.inj h
              rw [hr] at hrest
              cases hsplit : inf.isBranching with
              | true =>
                  have hsame : ({ p with lexicon }.commit inf).log = p.log := by simp [hlog, hsplit]
                  simpa [hsame] using hrest
              | false =>
                  have hgrown : p.log.size < ({ p with lexicon }.commit inf).log.size := by
                    simp [hlog, hsplit]
                  have hkept : ({ p with lexicon }.commit inf).log.size ≤ last.log.size := by
                    cases more with
                    | false => exact Nat.le_of_eq (congrArg Array.size hrest).symm
                    | true => exact Nat.le_of_lt hrest
                  simpa using Nat.lt_of_lt_of_le hgrown hkept

/-- What has been reported so far makes no difference to obligations. -/
theorem exists_discharge_trace (obligations : List Obligation) (p : Prover) (trace : Array Event) :
    ∃ trace', { p with trace }.discharge obligations =
      ({ (p.discharge obligations).1 with trace := trace' }, (p.discharge obligations).2) := by
  induction obligations generalizing p trace with
  | nil => exact ⟨trace, rfl⟩
  | cons ob rest ih =>
      unfold discharge
      split
      · exact ih p trace
      · have hnumber : ({ p with trace } : Prover).nextNumber = p.nextNumber := rfl
        simp only [hnumber]
        split
        · exact ⟨trace, rfl⟩
        · next inf lexicon hinst =>
            have hcommit : ∃ more, ({ p with trace, lexicon } : Prover).commit inf =
                { { p with lexicon }.commit inf with trace := more } := by
              unfold commit
              split <;> exact ⟨_, rfl⟩
            obtain ⟨more, hcommit⟩ := hcommit
            obtain ⟨last, hlast⟩ := ih ({ p with lexicon }.commit inf) more
            refine ⟨last, ?_⟩
            rw [hcommit, hlast]

theorem instantiate_report (p : Prover) (event : Event) :
    (p.report event).instantiate.2 = p.instantiate.2 ∧
      (p.report event).instantiate.1.log = p.instantiate.1.log := by
  obtain ⟨trace, htrace⟩ := exists_discharge_trace p.obligations p
    ((p.report event).report (.obligations p.obligations.length)).trace
  obtain ⟨trace', htrace'⟩ := exists_discharge_trace p.obligations p
    (p.report (.obligations p.obligations.length)).trace
  have hleft : (p.report event).instantiate = _ := htrace
  have hright : p.instantiate = _ := htrace'
  rw [hleft, hright]
  exact ⟨rfl, rfl⟩

/-- Instantiation puts something into the log exactly if it reports an effect. -/
theorem log_instantiate {changed : Bool} (h : p.instantiate.2 = .ok changed) :
    if changed then p.log.size < p.instantiate.1.log.size else p.instantiate.1.log = p.log :=
  log_discharge h

end Prover

namespace Update

variable {α : Type} {change : Update α}

/-- The number that rounds are counted from makes no difference to the value. -/
theorem map_fst_untilStableFrom (change : Update α) (fuel round round' : Nat) (a : α) :
    (untilStableFrom change fuel round a).map (·.1) =
      (untilStableFrom change fuel round' a).map (·.1) := by
  induction fuel generalizing round round' a with
  | zero => rfl
  | succ fuel ih =>
      simp only [untilStableFrom]
      split
      · exact ih ..
      · rfl

end Update

namespace Search

variable {s t u : Search}

/-- What a search returns that goes on from a state for so many steps, while the clock stands
still. -/
def resume? (fuel : Nat) (s : Search) : Option (Prover × Except Defect Verdict) :=
  (Update.untilStable (step Prover.instant) fuel s).map fun r => r.1.finish

theorem resume?_succ (fuel : Nat) (s : Search) :
    s.resume? (fuel + 1) =
      if (step Prover.instant s).1.isOver then some (step Prover.instant s).1.finish
      else (step Prover.instant s).1.resume? fuel := by
  have hrounds := congrArg (Option.map finish) (Update.map_fst_untilStableFrom
    (step Prover.instant) fuel 2 1 (step Prover.instant s).1)
  simp only [Option.map_map] at hrounds
  have hmore : (step Prover.instant s).2 = !(step Prover.instant s).1.isOver := rfl
  unfold resume? Update.untilStable
  simp only [Update.untilStableFrom, hmore]
  cases (step Prover.instant s).1.isOver with
  | true => rfl
  | false => exact hrounds

/-- A search that ends needs no more steps than it takes. -/
theorem resume?_mono {fuel fuel' : Nat} {result : Prover × Except Defect Verdict}
    (h : s.resume? fuel = some result) (hle : fuel ≤ fuel') : s.resume? fuel' = some result := by
  induction fuel generalizing s fuel' with
  | zero => contradiction
  | succ fuel ih =>
      obtain ⟨more, rfl⟩ := Nat.exists_eq_add_of_le' (Nat.le_of_add_left_le hle)
      rw [resume?_succ] at h ⊢
      split
      · next hover => rwa [if_pos hover] at h
      · next hover =>
          rw [if_neg hover] at h
          exact ih h (Nat.le_of_add_le_add_right hle)

/-- No step makes nodes while there is a complete leaf. -/
theorem size_step (hp : s.prover.Coherent) (hmodel : s.prover.hasCountermodel = true)
    (elapsed : Nat) : (step elapsed s).1.prover.tree.size = s.prover.tree.size := by
  cases hstage : s.stage with
  | saturating =>
      rw [step_saturating hstage]
      exact (Prover.commits_each_fire fun _ h =>
        Prover.mem_openLeaves_of_mem_saturationCandidates h).size_eq hp
  | done | failed => rw [step_of_isOver (by simp [isOver, hstage])]
  | entering phase =>
      rw [step_entering hstage]
      cases phase with
      | saturate =>
          simp only [perform]
          split <;> rfl
      | close => exact congrArg Tree.size (Prover.foldl_recordClosure _ _).2.1
      | complete verdict => rfl
      | branch =>
          have hmodel' : (s.entered .branch).prover.hasCountermodel = true := hmodel
          simp only [perform, hmodel', if_true]
          rfl
      | instantiate =>
          have hreport := (Prover.leads_report s.prover
            (.entered .instantiate s.prover.openLeaves.length)).coherent hp
          have hsize : (s.entered .instantiate).prover.instantiate.1.tree.size =
              s.prover.tree.size :=
            (Prover.commits_discharge ((Prover.leads_report ..).coherent hreport) _).size_eq
              ((Prover.leads_report ..).coherent hreport)
          simp only [perform]
          split
          all_goals
            next heq =>
              rw [heq] at hsize
              exact hsize

section Verdict

variable {lexicon : Lexicon} {premises goals : List Sentence} {options : Options} {leaf : NodeId}
  {branch : Branch} (hs : (Prover.start lexicon premises goals options).Reaches s)
  (hdone : s.prover.IsDoneAt leaf branch)
include hs hdone

/-- Whatever follows, a complete leaf stays as it is and no nodes are made. -/
theorem Proceeds.isDoneAt (h : s.Proceeds t) :
    t.prover.IsDoneAt leaf branch ∧ t.prover.tree.size = s.prover.tree.size := by
  induction h with
  | refl => exact ⟨hdone, rfl⟩
  | step elapsed hbefore ih =>
      have hcoh := (hbefore.reaches hs).coherent
      exact ⟨ih.1.leads hcoh (leads_step _ hcoh elapsed),
        (size_step hcoh ih.1.hasCountermodel elapsed).trans ih.2⟩
  | @again t hbefore _ ih =>
      have hcoh := (hbefore.reaches hs).coherent
      have hleads : Prover.Leads t.prover t.finish.1.search.prover :=
        (Prover.leads_finish t).trans (.of_transition (.noted rfl rfl rfl rfl))
      exact ⟨ih.1.leads hcoh hleads, (congrArg Tree.size t.tree_finish).trans ih.2⟩

/-- Beside a complete leaf there is one verdict only, if there is no time budget. -/
theorem verdict_of_isDoneAt (hbudget : options.maxRuntime = none) {verdict : Verdict}
    (hstage : s.stage = .done verdict) : verdict = .invalid := by
  have hnone : s.prover.options.maxRuntime = none := hs.options_eq ▸ hbudget
  exact (hs.deserves_of_done hstage).unique hnone hdone.hasCountermodel

end Verdict

/-- A search that comes to the branching phase with a complete leaf ends, with nothing
changed. -/
theorem resume?_of_branch (hstage : s.stage = .entering .branch)
    (hmodel : s.prover.hasCountermodel = true) :
    ∃ q : Prover, q.log = s.prover.log ∧ q.tree = s.prover.tree ∧ q.pending = s.prover.pending ∧
      ∀ fuel ≥ 2, s.resume? fuel = some (q, .ok .invalid) := by
  obtain ⟨noticed, hnoticed⟩ : ∃ noticed, noticed = (step Prover.instant s).1 := ⟨_, rfl⟩
  have hnext : noticed =
      { s.entered .branch with
        stage := .entering (.complete .invalid)
        instantiated := false } := by
    have hmodel' : (s.entered .branch).prover.hasCountermodel = true := hmodel
    rw [hnoticed, step_entering hstage]
    simp only [perform, hmodel', if_true]
  have hlast : (step Prover.instant noticed).1 =
      { noticed.entered (.complete .invalid) with stage := .done .invalid } := by
    have hcomplete : noticed.stage = .entering (.complete .invalid) := by rw [hnext]
    rw [step_entering hcomplete]
    rfl
  refine ⟨(step Prover.instant noticed).1.finish.1, ?_, ?_, ?_, fun fuel hfuel => ?_⟩
  · rw [hlast, hnext]
    rfl
  · rw [hlast, hnext]
    rfl
  · rw [hlast, hnext]
    rfl
  · obtain ⟨more, rfl⟩ := Nat.exists_eq_add_of_le' hfuel
    have hmore : noticed.isOver = false := by rw [hnext]; rfl
    have hover : (step Prover.instant noticed).1.isOver = true := by rw [hlast]; rfl
    rw [resume?_succ, ← hnoticed, hmore, resume?_succ, hover]
    rw [hlast]
    rfl

/-- Instantiation is followed by saturation if it has an effect, and by the branching phase
otherwise. -/
theorem step_instantiate (hstage : s.stage = .entering .instantiate) {changed : Bool}
    (h : s.prover.instantiate.2 = .ok changed) (elapsed : Nat) :
    (step elapsed s).1 =
      { prover := (s.entered .instantiate).prover.instantiate.1
        stage := .entering (if changed then .saturate else .branch)
        instantiated := changed } := by
  have hchanged : (s.entered .instantiate).prover.instantiate.2 = .ok changed :=
    (Prover.instantiate_report ..).1.trans h
  rw [step_entering hstage]
  simp only [perform]
  split
  all_goals
    next heq =>
      rw [heq] at hchanged ⊢
      simp_all

/-- A search with a complete leaf ends at once if it comes to the branching phase, or to
instantiation without effect, and it performs no inference. -/
theorem resume?_of_isDoneAt {lexicon : Lexicon} {premises goals : List Sentence}
    {options : Options} {leaf : NodeId} {branch : Branch}
    (hs : (Prover.start lexicon premises goals options).Reaches s)
    (hdone : s.prover.IsDoneAt leaf branch)
    (hnext : s.stage = .entering .branch ∨
      s.stage = .entering .instantiate ∧ s.prover.instantiate.2 = .ok false) :
    ∃ q : Prover, q.log = s.prover.log ∧
      (s.stage = .entering .branch ∨ s.prover.obligations = [] →
        q.tree = s.prover.tree ∧ q.pending = s.prover.pending) ∧
      ∀ fuel ≥ 3, s.resume? fuel = some (q, .ok .invalid) := by
  rcases hnext with hstage | ⟨hstage, hnone⟩
  · obtain ⟨q, hlog, htree, hpending, hend⟩ := resume?_of_branch hstage hdone.hasCountermodel
    exact ⟨q, hlog, fun _ => ⟨htree, hpending⟩, fun fuel hfuel =>
      hend fuel (Nat.le_of_succ_le hfuel)⟩
  · have hstep := step_instantiate hstage hnone Prover.instant
    have hmodel := ((Proceeds.refl.step Prover.instant).isDoneAt hs hdone).1.hasCountermodel
    obtain ⟨q, hlog, htree, hpending, hend⟩ :=
      resume?_of_branch (s := (step Prover.instant s).1) (by rw [hstep]; rfl) hmodel
    rw [hstep] at hlog htree hpending
    refine ⟨q, ?_, fun hidle => ?_, fun fuel hfuel => ?_⟩
    · have hsame := Prover.log_instantiate hnone
      exact (hlog.trans (Prover.instantiate_report ..).2).trans hsame
    · have hobligations : (s.entered .instantiate).prover.obligations = [] :=
        hidle.resolve_left (by simp [hstage])
      rw [Prover.instantiate_of_obligations_eq_nil hobligations] at htree hpending
      exact ⟨htree, hpending⟩
    · obtain ⟨more, rfl⟩ := Nat.exists_eq_add_of_le' hfuel
      have hmore : (step Prover.instant s).1.isOver = false := by rw [hstep]; rfl
      rw [resume?_succ, hmore]
      exact hend _ (Nat.le_add_left ..)

end Search

/-! Searches that never end. -/

namespace Prover

/-- Nothing is pending, and a quantified sentence has something left to do at an open leaf. -/
structure IsRestless (p : Prover) : Prop where
  pending : p.pending = []
  exists_open : ∃ leaf ∈ p.openLeaves, ∃ k,
    Rule.isOpenQuantifier p.lexicon (p.tree.branch leaf) k = true

end Prover

namespace Search

variable {s : Search} {lexicon : Lexicon} {premises goals : List Sentence} {options : Options}

/-- A search that is restless never comes to the branching phase. -/
theorem two_le_rank_step (hs : (Prover.start lexicon premises goals options).Reaches s)
    (hbudget : options.maxRuntime = none) (hok : ∃ changed, s.prover.instantiate.2 = .ok changed)
    (hrestless : ∀ p, s.prover.Leads p → p.IsRestless) (hrank : 2 ≤ s.stage.rank) (elapsed : Nat) :
    2 ≤ (step elapsed s).1.stage.rank := by
  have hnext := hrestless _ (leads_step s hs.coherent elapsed)
  obtain ⟨leaf, hleaf, k, hleft⟩ := hnext.exists_open
  cases hstage : s.stage with
  | done | failed => simp [hstage, Stage.rank] at hrank
  | saturating =>
      rw [step_saturating hstage]
      simp only
      split <;> simp [Stage.rank]
  | entering phase =>
      cases phase with
      | branch | complete => simp [hstage, Stage.rank] at hrank
      | saturate =>
          have hnone : (s.entered .saturate).prover.options.maxRuntime = none := by
            change s.prover.options.maxRuntime = none
            rw [hs.options_eq, hbudget]
          rw [step_entering hstage]
          simp [perform, isExhausted, hnone, Stage.rank]
      | close =>
          have hpending := hnext.pending
          rw [step_entering hstage] at hleaf hpending ⊢
          simp only [perform] at hleaf hpending ⊢
          have hsome : (s.entered .close).prover.close.openLeaves ≠ [] := List.ne_nil_of_mem hleaf
          simp [hsome, hpending, Stage.rank]
      | instantiate =>
          obtain ⟨changed, hchanged⟩ := hok
          have hstep := step_instantiate hstage hchanged elapsed
          cases changed with
          | true => simp [hstep, Stage.rank]
          | false =>
              have horder := (hs.step elapsed).isInOrder
              have hbranch : (step elapsed s).1.stage = .entering .branch := by rw [hstep]; rfl
              unfold IsInOrder at horder
              rw [hbranch] at horder
              rw [horder.2 hnext.pending leaf hleaf k] at hleft
              contradiction

/-- A search that stays restless never ends. -/
theorem resume?_eq_none (hs : (Prover.start lexicon premises goals options).Reaches s)
    (hbudget : options.maxRuntime = none)
    (hok : ∀ p, s.prover.Leads p → ∃ changed, p.instantiate.2 = .ok changed)
    (hrestless : ∀ p, s.prover.Leads p → p.IsRestless) (hrank : 2 ≤ s.stage.rank) (fuel : Nat) :
    s.resume? fuel = none := by
  induction fuel generalizing s with
  | zero => rfl
  | succ fuel ih =>
      have hrank' := two_le_rank_step hs hbudget (hok _ (.refl _)) hrestless hrank Prover.instant
      have hmore : (step Prover.instant s).1.isOver = false := by
        cases hstage : (step Prover.instant s).1.stage <;> simp_all [isOver, Stage.rank]
      have hleads := leads_step s hs.coherent Prover.instant
      rw [resume?_succ, hmore]
      exact ih (hs.step Prover.instant) (fun p hp => hok p (hleads.trans hp))
        (fun p hp => hrestless p (hleads.trans hp)) hrank'

end Search

namespace Problem

variable {lexicon lexicon' : Lexicon} {text : String} {problem : Problem} {options : Options}

/-- If a leaf is complete after closing, then it stays open and complete, its branch stays as
it is, no pending branch is committed any more, the search never fails, and without a time
budget it can only find that the goals do not follow.  If the branching phase comes next, or
if instantiation has no effect, then the search ends at once and performs no inference; if
there is nothing to instantiate, it does not put one off either.  Otherwise instantiation
performs further inferences. -/
theorem decided_of_isComplete (hlexicon : lexicon.IsBuilt)
    (hread : read lexicon text = (.ok problem, lexicon')) (hbudget : options.maxRuntime = none)
    {s t : Search} (hs : (Prover.start lexicon' problem.premises problem.goals options).Reaches s)
    (hclose : s.stage = .entering .close) {elapsed : Nat} (ht : (Search.step elapsed s).1 = t)
    {leaf : NodeId} (hleaf : leaf ∈ t.prover.openLeaves)
    (hcomplete : t.prover.isComplete leaf = true) :
    (∀ u, t.Proceeds u → u.prover.IsDoneAt leaf (t.prover.tree.branch leaf) ∧
      u.prover.tree.size = t.prover.tree.size ∧ (∀ defect, u.stage ≠ .failed defect) ∧
      ∀ verdict, u.stage = .done verdict → verdict = .invalid) ∧
    (t.stage = .entering .branch ∨ t.prover.instantiate.2 = .ok false →
      ∃ q : Prover, q.log = t.prover.log ∧
        (t.stage = .entering .branch ∨ t.prover.obligations = [] →
          q.tree = t.prover.tree ∧ q.pending = t.prover.pending) ∧
        ∀ fuel ≥ 3, t.resume? fuel = some (q, .ok .invalid)) ∧
    (t.stage ≠ .entering .branch → t.prover.instantiate.2 ≠ .ok false →
      ∀ clock, (Search.step clock t).1.stage = .entering .saturate ∧
        t.prover.log.size < (Search.step clock t).1.prover.log.size) := by
  have hreaches : (Prover.start lexicon' problem.premises problem.goals options).Reaches t :=
    ht ▸ hs.step elapsed
  have hdone : t.prover.IsDoneAt leaf (t.prover.tree.branch leaf) := ⟨hleaf, hcomplete, rfl⟩
  have hstage : t.stage = .entering .branch ∨ t.stage = .entering .instantiate := by
    have hsome : (s.entered .close).prover.close.openLeaves ≠ [] := by
      rw [← ht, Search.step_entering hclose] at hleaf
      exact List.ne_nil_of_mem hleaf
    rw [← ht, Search.step_entering hclose]
    simp only [Search.perform, List.isEmpty_iff, hsome, if_false]
    split
    · exact Or.inl rfl
    · exact Or.inr rfl
  refine ⟨fun u hu => ?_, fun hnext => ?_, fun hbranch heffect clock => ?_⟩
  · obtain ⟨hdone', hsize⟩ := hu.isDoneAt hreaches hdone
    have hu' := hu.reaches hreaches
    exact ⟨hdone', hsize, hu'.stage_ne_failed fun p hp => instantiate_ne_error hlexicon hread hp,
      fun _ => Search.verdict_of_isDoneAt hu' hdone' hbudget⟩
  · refine Search.resume?_of_isDoneAt hreaches hdone ?_
    rcases hstage with hbranch | hinst
    · exact Or.inl hbranch
    · exact Or.inr ⟨hinst, hnext.resolve_left (by simp [hinst])⟩
  · have hinst := hstage.resolve_left hbranch
    obtain ⟨changed, hchanged⟩ :=
      exists_instantiate_eq_ok hlexicon hread (hreaches.leads Prover.coherent_start)
    obtain rfl : changed = true := by
      cases changed with
      | true => rfl
      | false => exact absurd hchanged heffect
    have hlog := Prover.log_instantiate hchanged
    rw [Search.step_instantiate hinst hchanged]
    refine ⟨rfl, ?_⟩
    rw [if_pos rfl] at hlog
    rwa [← (Prover.instantiate_report t.prover
      (.entered .instantiate t.prover.openLeaves.length)).2] at hlog

/-- A text whose premise is satisfied by an atom, or else by a universal sentence. -/
def besideText : String := "(premises (or A (forall x (P x))))"

theorem decided_of_isComplete_beside :
    ∃ problem lexicon', read {} besideText = (.ok problem, lexicon') ∧ ∃ s t : Search,
      (Prover.start lexicon' problem.premises problem.goals {}).Reaches s ∧
        s.stage = .entering .close ∧ (Search.step Prover.instant s).1 = t ∧
        1 ∈ t.prover.openLeaves ∧ t.prover.isComplete 1 = true ∧
        t.prover.instantiate.2 = .ok false ∧ ∃ q : Prover, q.log = t.prover.log ∧
          ∀ fuel ≥ 3, t.resume? fuel = some (q, .ok .invalid) := by
  obtain ⟨problem, lexicon', hread, s, hs, htest⟩ : ∃ problem lexicon',
      read {} besideText = (.ok problem, lexicon') ∧ ∃ s,
        (Prover.start lexicon' problem.premises problem.goals {}).Reaches s ∧
          decide (s.stage = .entering .close ∧
            1 ∈ (Search.step Prover.instant s).1.prover.openLeaves ∧
            (Search.step Prover.instant s).1.prover.isComplete 1 = true ∧
            (Search.step Prover.instant s).1.prover.instantiate.2.toOption = some false) = true :=
    exists_reaches_of_any {} besideText {} 12 (by decide +kernel)
  obtain ⟨hclose, hleaf, hcomplete, hnone⟩ := of_decide_eq_true htest
  have hnone : (Search.step Prover.instant s).1.prover.instantiate.2 = .ok false := by
    cases h : (Search.step Prover.instant s).1.prover.instantiate.2 <;> simp_all [Except.toOption]
  obtain ⟨-, hend, -⟩ := decided_of_isComplete .empty hread rfl hs hclose rfl hleaf hcomplete
  obtain ⟨q, hlog, -, hq⟩ := hend (Or.inr hnone)
  exact ⟨problem, lexicon', hread, s, _, hs, hclose, rfl, hleaf, hcomplete, hnone, q, hlog, hq⟩

/-! A complete leaf beside one where terms never run out. -/

/-- A text whose premise is satisfied by an atom, or else by a universal sentence with a
function in its body, so that every instance has a term for the next one. -/
def endlessText : String := "(premises (or A (forall x (P (f x)))))"

def endless : Sentence :=
  .all (.var "x" SortId.object)
    (.pred "P" [.app "f" SortId.object [.var "x" SortId.object]])

def endlessPremise : Sentence := .disj [.atom "A", endless]

/-- A true sentence that is the premise, its universal alternative, or atomic. -/
def isExpected (fact : Fact) : Bool :=
  fact.value && (fact.sentence.isTerminal || fact.sentence = endless ||
    fact.sentence = endlessPremise)

theorem isExpected_iff {fact : Fact} :
    isExpected fact = true ↔ fact.value = true ∧ (fact.sentence.isTerminal = true ∨
      fact.sentence = endless ∨ fact.sentence = endlessPremise) := by
  simp [isExpected, or_assoc]

/-- The premise has been split, and the universal sentence is there to be instantiated. -/
structure IsEndless (p : Prover) : Prop where
  pending : p.pending = []
  expected : ∀ leaf ∈ p.openLeaves, ∀ fact, (p.tree.branch leaf).Gives fact → isExpected fact = true
  split : ∀ leaf ∈ p.openLeaves, (p.tree.branch leaf).isDecomposed endlessPremise = true
  universal : ∃ leaf ∈ p.openLeaves, (p.tree.branch leaf).Gives ⟨endless, true⟩ ∧
    (p.tree.branch leaf).isDecomposed endless = false

namespace IsEndless

variable {p q : Prover} {leaf : NodeId}

theorem isPathConsistent (h : IsEndless p) (hleaf : leaf ∈ p.openLeaves) :
    p.tree.isPathConsistent leaf = true := by
  refine Branch.isConsistent_iff.mpr fun k value hvalue => ?_
  rw [← Bool.not_eq_true]
  intro hopposite
  have htrue : value = true := (isExpected_iff.mp (h.expected leaf hleaf ⟨k, value⟩ hvalue)).1
  have hfalse : (!value) = true :=
    (isExpected_iff.mp (h.expected leaf hleaf ⟨k, !value⟩ hopposite)).1
  simp [htrue] at hfalse

/-- Only the universal sentence has something left to do. -/
theorem of_fires (h : IsEndless p) (hleaf : leaf ∈ p.openLeaves) {k : Key} {value : Bool}
    {inf : Inference} {lex : Lexicon} (hfires : Rule.Fires p.lexicon p.tree leaf k value inf lex) :
    (∃ binder terms facts, inf.effect = .universal binder terms facts) ∧
      ∀ fact ∈ inf.addition.facts, isExpected fact = true := by
  obtain ⟨rfl, hterminal | hk | hk⟩ : value = true ∧ (k.sentence.isTerminal = true ∨
      k.sentence = endless ∨ k.sentence = endlessPremise) :=
    isExpected_iff.mp (h.expected leaf hleaf ⟨k, value⟩ (Branch.has_of_models hfires.models))
  · -- nothing waits for an atomic sentence
    rcases hfires.isReady with hready | hready
    · simp [Rule.isUndecomposed, hterminal] at hready
    · obtain ⟨hquantifier, -⟩ := Rule.of_isOpenQuantifier hready
      cases hs : k.sentence <;>
        simp_all [Sentence.isTerminal, Sentence.isTerm, Sentence.isQuantifier]
  · have hyields := hfires.yields
    rw [hk, endless] at hyields
    generalize heffect : inf.effect = eff at hyields
    cases hyields with
    | connective lex halts => simp [Sentence.alternatives?] at halts
    | universal lex hne hterms =>
        refine ⟨⟨_, _, _, rfl⟩, fun fact hfact => ?_⟩
        obtain ⟨outcome, houtcome, hfact⟩ := Inference.mem_facts_addition.mp hfact
        simp only [Inference.outcomes, heffect, List.mem_singleton] at houtcome
        rw [houtcome, Lexicon.mem_arrange, List.mem_map] at hfact
        obtain ⟨term, -, rfl⟩ := hfact
        simp [isExpected, Sentence.valued, Fact.sentence, Sentence.subst, Sentence.isTerminal]
  · have hmark := h.split leaf hleaf
    rw [← hk, Key.key_sentence, hfires.not_decomposed] at hmark
    contradiction

theorem transition (h : IsEndless p) (htransition : p.Transition q) : IsEndless q := by
  cases htransition with
  | noted _ htree hopen hpending =>
      refine ⟨hpending.trans h.pending, ?_, ?_, ?_⟩
      all_goals rw [htree, hopen]
      · exact h.expected
      · exact h.split
      · exact h.universal
  | added other k value inf hother hfires _ htree hopen hpending =>
      obtain ⟨⟨binder, terms, facts, heffect⟩, hfacts⟩ := h.of_fires hother hfires
      have hmarks : inf.addition.marks = [] := by simp [Inference.addition, heffect]
      refine ⟨hpending.trans h.pending, ?_, ?_, ?_⟩
      all_goals rw [hopen]
      · intro leaf hleaf fact hfact
        rcases (htree.has leaf fact.key fact.value).mp hfact with hold | ⟨-, hnew⟩
        · exact h.expected leaf hleaf fact hold
        · exact hfacts fact hnew
      · exact fun leaf hleaf => (htree.isDecomposed ..).mpr (Or.inl (h.split leaf hleaf))
      · obtain ⟨leaf, hleaf, hgives, hmark⟩ := h.universal
        refine ⟨leaf, hleaf, (htree.has ..).mpr (Or.inl hgives), ?_⟩
        rw [← Bool.not_eq_true, htree.isDecomposed, hmarks]
        simp [hmark]
  | queued other k value inf hother hfires hsplit =>
      obtain ⟨⟨binder, terms, facts, heffect⟩, -⟩ := h.of_fires hother hfires
      simp [Inference.isBranching, heffect] at hsplit
  | closed _ htree hopen hpending =>
      have hsame : q.openLeaves = p.openLeaves := by
        rw [hopen, List.filter_eq_self]
        exact fun leaf => h.isPathConsistent
      refine ⟨by rw [hpending, h.pending]; rfl, ?_, ?_, ?_⟩
      all_goals rw [htree, hsame]
      · exact h.expected
      · exact h.split
      · exact h.universal
  | expanded inf _ hperm =>
      rw [h.pending] at hperm
      simp at hperm

/-- The greatest term that the universal sentence has been instantiated for occurs in its
instance, inside a greater one. -/
theorem exists_unused (hp : p.Coherent) (hused : (p.tree.branch leaf).instancesOf endless ≠ []) :
    ∃ term ∈ Rule.candidates p.lexicon (p.tree.branch leaf) (.var "x" SortId.object),
      term ∉ (p.tree.branch leaf).instancesOf endless := by
  have hsome : ((p.tree.branch leaf).instancesOf endless).toFinset.Nonempty := by
    simpa [List.toFinset_nonempty_iff] using hused
  obtain ⟨greatest, hmem, hgreatest⟩ := Finset.exists_max_image _ sizeOf hsome
  simp only [List.mem_toFinset] at hmem hgreatest
  obtain ⟨binder, body, hk, hinst, hinstance⟩ := hp.instances leaf _ greatest hmem
  simp only [Key.sentence_key, endless, Sentence.all.injEq] at hk
  obtain ⟨rfl, rfl⟩ := hk
  have hvisible : (p.tree.branch leaf).Visible (.app "f" SortId.object [greatest]) := by
    refine Or.inl ⟨_, _, hinstance, ?_, ?_⟩
    · simp [Sentence.subst, Sentence.substAll, Sentence.subsentences, Sentence.subsentencesAll]
    · simp [Sentence.isGroundTerm, Sentence.isGround, Sentence.areGround,
        Sentence.isGround_of_isGroundTerm hinst.ground]
  refine ⟨.app "f" SortId.object [greatest], Rule.mem_candidates.mpr ⟨hvisible, ?_⟩, fun hold => ?_⟩
  · exact ⟨_, _, rfl, rfl, Rule.compatible_self ..⟩
  · have hle : sizeOf (Sentence.app "f" SortId.object [greatest]) ≤ sizeOf greatest :=
      hgreatest _ hold
    simp only [Sentence.app.sizeOf_spec, List.cons.sizeOf_spec] at hle
    omega

theorem isRestless (h : IsEndless p) (hp : p.Coherent) : p.IsRestless := by
  obtain ⟨leaf, hleaf, hgives, hmark⟩ := h.universal
  refine ⟨h.pending, leaf, hleaf, endless, ?_⟩
  have hmodels : (p.tree.branch leaf).models endless = some true :=
    (Branch.models_eq_some (h.isPathConsistent hleaf)).mpr hgives
  have hleft : Rule.isUnexhausted p.lexicon (p.tree.branch leaf) (p.tree.branch leaf).termsMentioned
      endless (.var "x" SortId.object) = true := by
    refine Rule.isUnexhausted_iff.mpr (or_iff_not_imp_left.mpr fun hused => ?_)
    exact exists_unused hp hused
  simp only [Rule.isOpenQuantifier, Rule.isOpenAmong, hmark, hmodels, Bool.false_eq_true, if_false]
  exact hleft

end IsEndless

/-- Whether a search has come to where it is endless. -/
def isEndless (p : Prover) : Bool :=
  p.pending.isEmpty && p.openLeaves.all (fun leaf => (p.tree.branch leaf).facts.all isExpected &&
      (p.tree.branch leaf).isDecomposed endlessPremise) &&
    p.openLeaves.any fun leaf => (p.tree.branch leaf).has endless true &&
      !(p.tree.branch leaf).isDecomposed endless

theorem IsEndless.of_isEndless {p : Prover} (h : isEndless p = true) : IsEndless p := by
  simp only [isEndless, Bool.and_eq_true, List.isEmpty_iff, List.all_eq_true, List.any_eq_true,
    Branch.mem_facts, Bool.not_eq_true'] at h
  obtain ⟨⟨hpending, hleaves⟩, huniversal⟩ := h
  exact ⟨hpending, fun leaf hleaf => (hleaves leaf hleaf).1, fun leaf hleaf =>
    (hleaves leaf hleaf).2, huniversal⟩

/-- A complete leaf does not end the search by itself.  Beside a leaf where a universal
sentence has not been instantiated yet the search goes on and performs an inference, and
beside a leaf where terms never run out it never returns. -/
theorem not_ended_of_isComplete :
    (∃ problem lexicon', read {} besideText = (.ok problem, lexicon') ∧ ∃ s t : Search,
      (Prover.start lexicon' problem.premises problem.goals {}).Reaches s ∧
        s.stage = .entering .close ∧ (Search.step Prover.instant s).1 = t ∧
        1 ∈ t.prover.openLeaves ∧ t.prover.isComplete 1 = true ∧
        ¬ ∃ (q : Prover) (enough : Nat), q.log = t.prover.log ∧
          ∀ fuel ≥ enough, t.resume? fuel = some (q, .ok .invalid)) ∧
    ∃ problem lexicon', read {} endlessText = (.ok problem, lexicon') ∧ ∃ s t : Search,
      (Prover.start lexicon' problem.premises problem.goals {}).Reaches s ∧
        s.stage = .entering .close ∧ (Search.step Prover.instant s).1 = t ∧
        1 ∈ t.prover.openLeaves ∧ t.prover.isComplete 1 = true ∧
        ∀ fuel, t.resume? fuel = none := by
  constructor
  · obtain ⟨problem, lexicon', hread, s, hs, htest⟩ : ∃ problem lexicon',
        read {} besideText = (.ok problem, lexicon') ∧ ∃ s,
          (Prover.start lexicon' problem.premises problem.goals {}).Reaches s ∧
            decide (s.stage = .entering .close ∧
              1 ∈ (Search.step Prover.instant s).1.prover.openLeaves ∧
              (Search.step Prover.instant s).1.prover.isComplete 1 = true ∧
              ((Search.step Prover.instant s).1.resume? 8).any (fun result =>
                result.1.log.size ≠ (Search.step Prover.instant s).1.prover.log.size) = true) =
                  true :=
      exists_reaches_of_any {} besideText {} 8 (by decide +kernel)
    obtain ⟨hclose, hleaf, hcomplete, hlonger⟩ := of_decide_eq_true htest
    refine ⟨problem, lexicon', hread, s, _, hs, hclose, rfl, hleaf, hcomplete, ?_⟩
    rintro ⟨q, enough, hlog, hend⟩
    obtain ⟨result, hresult, hdiffers⟩ := (Option.any_eq_true _ _).mp hlonger
    have hq := hend (max enough 8) (Nat.le_max_left ..)
    rw [Search.resume?_mono hresult (Nat.le_max_right enough 8)] at hq
    obtain rfl := Option.some.inj hq
    exact of_decide_eq_true hdiffers (congrArg Array.size hlog)
  · obtain ⟨problem, lexicon', hread, s, hs, htest⟩ : ∃ problem lexicon',
        read {} endlessText = (.ok problem, lexicon') ∧ ∃ s,
          (Prover.start lexicon' problem.premises problem.goals {}).Reaches s ∧
            decide (s.stage = .entering .close ∧
              1 ∈ (Search.step Prover.instant s).1.prover.openLeaves ∧
              (Search.step Prover.instant s).1.prover.isComplete 1 = true ∧
              2 ≤ (Search.step Prover.instant s).1.stage.rank ∧
              isEndless (Search.step Prover.instant s).1.prover = true) = true :=
      exists_reaches_of_any {} endlessText {} 8 (by decide +kernel)
    obtain ⟨hclose, hleaf, hcomplete, hrank, hendless⟩ := of_decide_eq_true htest
    have hreaches := hs.step Prover.instant
    have hleads := hreaches.leads Prover.coherent_start
    have hrestless : ∀ p, (Search.step Prover.instant s).1.prover.Leads p → p.IsRestless := by
      intro p hp
      obtain ⟨hcoh, hp⟩ := hp.preserves (P := IsEndless) (fun _ _ _ h => h.transition)
        hreaches.coherent (.of_isEndless hendless)
      exact hp.isRestless hcoh
    refine ⟨problem, lexicon', hread, s, _, hs, hclose, rfl, hleaf, hcomplete, ?_⟩
    exact Search.resume?_eq_none hreaches rfl
      (fun p hp => exists_instantiate_eq_ok .empty hread (hleads.trans hp)) hrestless hrank

end Problem

end Tableau
