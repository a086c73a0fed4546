/-
What each phase leaves behind.  Saturation goes on until no rule waits on a consistent
branch, closing leaves consistent branches only, and instantiation without effect means
that all quantifiers are done or wait for a pending branch.  So a search that ends has
no open leaf or a complete one.
-/
import Tableau.Proofs.Applicability
import Tableau.Proofs.Search.Reach

namespace Tableau

deriving instance DecidableEq for Defect, Stage

namespace Prover

variable {p q : Prover}

/-- Some leaf is open, and the branches of all open leaves are consistent and have no
rule waiting. -/
structure IsSettled (p : Prover) : Prop where
  nonempty : p.openLeaves ≠ []
  consistent : ∀ leaf ∈ p.openLeaves, p.tree.isPathConsistent leaf = true
  saturated : ∀ leaf ∈ p.openLeaves, ∀ k, Rule.isUndecomposed (p.tree.branch leaf) k = false

/-- Nothing is left to do for quantifiers at open leaves. -/
def IsInstantiated (p : Prover) : Prop :=
  ∀ leaf ∈ p.openLeaves, ∀ k, Rule.isOpenQuantifier p.lexicon (p.tree.branch leaf) k = false

/-- What a verdict says about the state that a search ends with. -/
def Deserves (p : Prover) : Verdict → Prop
  | .valid => p.openLeaves = []
  | .invalid => p.hasCountermodel = true
  | .unfinished => p.options.maxRuntime.isSome = true

/-- Without a time budget, a state deserves one verdict at most. -/
theorem Deserves.unique (hbudget : p.options.maxRuntime = none) {verdict verdict' : Verdict}
    (h : p.Deserves verdict) (h' : p.Deserves verdict') : verdict = verdict' := by
  have hexclusive : p.openLeaves = [] → p.hasCountermodel = true → False := by
    intro hnone hmodel
    simp [hasCountermodel, hnone] at hmodel
  have hfinished : ¬ p.Deserves .unfinished := by
    simp [Deserves, hbudget]
  cases verdict with
  | unfinished => exact absurd h hfinished
  | valid =>
      cases verdict' with
      | valid => rfl
      | invalid => exact (hexclusive h h').elim
      | unfinished => exact absurd h' hfinished
  | invalid =>
      cases verdict' with
      | valid => exact (hexclusive h' h).elim
      | invalid => rfl
      | unfinished => exact absurd h' hfinished

/-! Saturation. -/

theorem snd_fire (candidate : NodeId × Key) (p : Prover) :
    (fire candidate p).2 =
      (Rule.decompose? p.lexicon p.tree candidate.1 candidate.2 p.nextNumber).isSome := by
  unfold fire
  cases Rule.decompose? p.lexicon p.tree candidate.1 candidate.2 p.nextNumber <;> rfl

theorem fst_fire_of_false {candidate : NodeId × Key} (h : (fire candidate p).2 = false) :
    (fire candidate p).1 = p := by
  unfold fire at h ⊢
  cases hd : Rule.decompose? p.lexicon p.tree candidate.1 candidate.2 p.nextNumber with
  | none => rfl
  | some inf => simp [hd] at h

/-- A round of saturation without effect has found nothing that waits. -/
theorem each_fire_of_false {candidates : List (NodeId × Key)}
    (h : (Update.each fire candidates p).2 = false) :
    (Update.each fire candidates p).1 = p ∧
      ∀ candidate ∈ candidates, (fire candidate p).2 = false := by
  have honest : ∀ candidate, Update.IsHonest (fire candidate) := fun _ _ => fst_fire_of_false
  have hall := Update.isHonest_each honest candidates
  refine ⟨hall p h, fun candidate hcandidate => ?_⟩
  apply (honest candidate).eq_skip_iff.mp
  exact (Update.each_eq_skip_iff honest).mp (hall.eq_skip_iff.mpr h) candidate hcandidate

theorem mem_saturationCandidates {candidate : NodeId × Key} :
    candidate ∈ p.saturationCandidates ↔
      candidate.1 ∈ p.openLeaves ∧ p.tree.isPathConsistent candidate.1 = true ∧
        Rule.isUndecomposed (p.tree.branch candidate.1) candidate.2 = true := by
  have hwaiting : ∀ leaf k, k ∈ p.waiting leaf ↔
      p.tree.isPathConsistent leaf = true ∧ Rule.isUndecomposed (p.tree.branch leaf) k = true := by
    intro leaf k
    have hmem : k ∈ Rule.undecomposed p.lexicon (p.tree.branch leaf) ↔
        Rule.isUndecomposed (p.tree.branch leaf) k = true := Rule.mem_undecomposed
    rw [← hmem]
    unfold waiting
    split
    · next hnil => simp [hnil]
    · split
      · next hcons => simp [hcons]
      · next hcons => simp [hcons]
  rcases candidate with ⟨leaf, k⟩
  simp [saturationCandidates, hwaiting]

theorem saturationCandidates_of_false (h : p.saturate.2 = false) :
    p.saturate.1.saturationCandidates = [] := by
  obtain ⟨hsame, hnone⟩ := each_fire_of_false h
  have hcandidates : p.saturationCandidates = [] := by
    rw [List.eq_nil_iff_forall_not_mem]
    intro candidate hmem
    obtain ⟨-, -, hwaits⟩ := mem_saturationCandidates.mp hmem
    have hskipped := hnone candidate hmem
    rw [snd_fire, Rule.isSome_decompose?, hwaits] at hskipped
    contradiction
  change (Update.each fire p.saturationCandidates p).1.saturationCandidates = []
  rw [hsame]
  exact hcandidates

/-! Closing. -/

theorem isSettled_close (hp : p.Coherent) (hsat : p.saturationCandidates = [])
    (hne : p.close.openLeaves ≠ []) : p.close.IsSettled := by
  have hopen := openLeaves_close hp
  have htree : p.close.tree = p.tree := (foldl_recordClosure _ p).2.1
  refine ⟨hne, ?_, ?_⟩
  · intro leaf hleaf
    rw [hopen] at hleaf
    rw [htree]
    exact (List.mem_filter.mp hleaf).2
  · intro leaf hleaf k
    rw [hopen] at hleaf
    obtain ⟨hmem, hcons⟩ := List.mem_filter.mp hleaf
    rw [htree, ← Bool.not_eq_true]
    intro hwaits
    have hcandidate : (leaf, k) ∈ p.saturationCandidates :=
      mem_saturationCandidates.mpr ⟨hmem, hcons, hwaits⟩
    simp [hsat] at hcandidate

/-! Instantiation. -/

/-- Putting off an inference leaves a settled state settled. -/
theorem IsSettled.commit (h : p.IsSettled) (hp : p.Coherent) {leaf : NodeId} {k : Key}
    {value : Bool} {inf : Inference} {lex : Lexicon} (hleaf : leaf ∈ p.openLeaves)
    (hfires : Rule.Fires p.lexicon p.tree leaf k value inf lex) (hsplit : inf.isBranching = true) :
    ({ p with lexicon := lex }.commit inf).IsSettled := by
  obtain ⟨hmark, -⟩ := commit_of_isBranching hp hleaf hfires hsplit
  generalize hq : ({ p with lexicon := lex }.commit inf).tree = tree at hmark
  have hhas : ∀ id k value, (tree.branch id).has k value = (p.tree.branch id).has k value := by
    intro id k value
    rw [Bool.eq_iff_iff, hmark.has]
    simp
  have hcons : ∀ id, tree.isPathConsistent id = p.tree.isPathConsistent id := by
    intro id
    rw [Bool.eq_iff_iff]
    simp only [Tree.isPathConsistent, Branch.isConsistent_iff, hhas]
  refine ⟨?_, ?_, ?_⟩
  · rw [openLeaves_commit]
    exact h.nonempty
  · intro other hother
    rw [openLeaves_commit] at hother
    rw [hq, hcons]
    exact h.consistent other hother
  · intro other hother k'
    rw [openLeaves_commit] at hother
    rw [hq, ← Bool.not_eq_true]
    intro hwaits
    have hconsistent := h.consistent other hother
    have hconsistent' := (hcons other).trans hconsistent
    refine absurd ?_ (Bool.not_eq_true _ ▸ h.saturated other hother k')
    simp only [Rule.isUndecomposed, Bool.and_eq_true, Bool.not_eq_true',
      Option.isSome_iff_exists] at hwaits ⊢
    obtain ⟨⟨hkind, hnot⟩, v, hv⟩ := hwaits
    refine ⟨⟨hkind, ?_⟩, v, ?_⟩
    · rw [← Bool.not_eq_true] at hnot ⊢
      exact fun hold => hnot ((hmark.isDecomposed ..).mpr (Or.inl hold))
    · rw [Branch.models_eq_some hconsistent, ← hhas]
      exact (Branch.models_eq_some hconsistent').mp hv

/-- Discharging without effect leaves a settled state settled, and if nothing is pending
then, there was nothing to discharge. -/
theorem discharge_of_isSettled {obligations : List Obligation} (hp : p.Coherent)
    (hsettled : p.IsSettled) (hleaves : ∀ ob ∈ obligations, ob.leaf ∈ p.openLeaves)
    (h : p.discharge obligations = (q, .ok false)) :
    q.IsSettled ∧ (q.pending = [] → obligations = [] ∧ q = p) := by
  induction obligations generalizing p with
  | nil =>
      simp only [discharge, Prod.mk.injEq] at h
      obtain ⟨rfl, -⟩ := h
      exact ⟨hsettled, fun _ => ⟨rfl, rfl⟩⟩
  | cons ob rest ih =>
      have hleaf := hleaves ob List.mem_cons_self
      have hcons := hsettled.consistent ob.leaf hleaf
      simp only [discharge, List.contains_iff_mem.mpr hleaf, hcons, Bool.not_true, Bool.or_self,
        Bool.false_eq_true, if_false] at h
      split at h
      · simp at h
      · next inf lexicon hinst =>
          obtain ⟨value, hfires⟩ :=
            Rule.fires_instantiate? (fun t => hp.isGroundTerm_of_visible) hcons hinst
          have hcoh := (transition_commit hp hleaf hfires).coherent hp
          simp only [Prod.mk.injEq] at h
          obtain ⟨hq, hreport⟩ := h
          cases hr : ({ p with lexicon := lexicon }.commit inf).discharge rest with
          | mk r report =>
              rw [hr] at hq hreport
              subst hq
              cases report with
              | error defect => simp [Except.map] at hreport
              | ok effective =>
                  simp only [Except.map, Except.ok.injEq, Bool.or_eq_false_iff,
                    Bool.not_eq_false'] at hreport
                  obtain ⟨hsplit, rfl⟩ := hreport
                  obtain ⟨hr', hnone⟩ := ih hcoh (hsettled.commit hp hleaf hfires hsplit)
                    (fun other hother => by
                      rw [openLeaves_commit]
                      exact hleaves other (List.mem_cons_of_mem ob hother)) hr
                  refine ⟨hr', fun hpending => ?_⟩
                  obtain ⟨-, rfl⟩ := hnone hpending
                  rw [(commit_of_isBranching hp hleaf hfires hsplit).2] at hpending
                  simp at hpending

theorem mem_obligations {ob : Obligation} :
    ob ∈ p.obligations ↔ ob.leaf ∈ p.openLeaves ∧
      ob.fact ∈ Rule.openQuantifiers p.lexicon (p.tree.branch ob.leaf) := by
  simp only [obligations, Obligation.arrange, List.mem_map, mem_sortBy, List.mem_flatMap]
  constructor
  · rintro ⟨-, ⟨_, ⟨leaf, hleaf, fact, hfact, rfl⟩, rfl⟩, rfl⟩
    exact ⟨hleaf, hfact⟩
  · rintro ⟨hleaf, hfact⟩
    exact ⟨_, ⟨ob, ⟨ob.leaf, hleaf, ob.fact, hfact, rfl⟩, rfl⟩, rfl⟩

/-- Where there is nothing to instantiate, instantiation changes nothing. -/
theorem instantiate_of_obligations_eq_nil (h : p.obligations = []) :
    p.instantiate = (p.report (.obligations 0), .ok false) := by
  unfold instantiate
  simp only [h, List.length_nil]
  rfl

/-- Instantiation without effect leaves nothing to instantiate, unless something is
pending. -/
theorem instantiate_of_isSettled (hp : p.Coherent) (hsettled : p.IsSettled)
    (h : p.instantiate = (q, .ok false)) : q.IsSettled ∧ (q.pending = [] → q.IsInstantiated) := by
  have hsettled' : (p.report (.obligations p.obligations.length)).IsSettled :=
    ⟨hsettled.nonempty, hsettled.consistent, hsettled.saturated⟩
  have hcoh := (leads_report p (.obligations p.obligations.length)).coherent hp
  obtain ⟨hq, hnone⟩ := discharge_of_isSettled hcoh hsettled'
    (fun ob hob => (mem_obligations.mp hob).1) h
  refine ⟨hq, fun hpending => ?_⟩
  obtain ⟨hobs, rfl⟩ := hnone hpending
  intro leaf hleaf
  apply Rule.openQuantifiers_eq_nil.mp
  rw [List.eq_nil_iff_forall_not_mem]
  intro fact hfact
  have hob : (⟨fact, leaf⟩ : Obligation) ∈
      (p.report (.obligations p.obligations.length)).obligations :=
    mem_obligations.mpr ⟨hleaf, hfact⟩
  rw [hobs] at hob
  simp at hob

/-! Branching. -/

theorem pending_of_commitBranch?_eq_none (h : p.commitBranch? = none) : p.pending = [] := by
  unfold commitBranch? at h
  simp only [Option.map_eq_none_iff, Score.takeBest_eq_none, List.map_eq_nil_iff] at h
  exact h

/-- Where nothing is pending and nothing is left to do, every open leaf is complete. -/
theorem isComplete_of_isSettled (hp : p.Coherent) (hsettled : p.IsSettled)
    (hinst : p.IsInstantiated) (hpending : p.pending = []) {leaf : NodeId}
    (hleaf : leaf ∈ p.openLeaves) : p.isComplete leaf = true := by
  have hwaiting : Rule.undecomposed p.lexicon (p.tree.branch leaf) = [] :=
    Rule.undecomposed_eq_nil.mpr (hsettled.saturated leaf hleaf)
  have hquantifiers : Rule.openQuantifiers p.lexicon (p.tree.branch leaf) = [] :=
    Rule.openQuantifiers_eq_nil.mpr (hinst leaf hleaf)
  have hcons : (p.tree.branch leaf).isConsistent = true := hsettled.consistent leaf hleaf
  simp [isComplete, hp.childless leaf hleaf, hpending, hcons, hwaiting, hquantifiers]

theorem hasCountermodel_of_isSettled (hp : p.Coherent) (hsettled : p.IsSettled)
    (hinst : p.pending = [] → p.IsInstantiated) (h : p.commitBranch? = none) :
    p.hasCountermodel = true := by
  have hpending := pending_of_commitBranch?_eq_none h
  obtain ⟨leaf, hleaf⟩ := List.exists_mem_of_ne_nil _ hsettled.nonempty
  exact List.any_eq_true.mpr
    ⟨leaf, hleaf, isComplete_of_isSettled hp hsettled (hinst hpending) hpending hleaf⟩

theorem mem_countermodels {cm : Countermodel} : cm ∈ p.countermodels ↔
    ∃ leaf ∈ p.openLeaves, p.isComplete leaf = true ∧
      Countermodel.ofLeaf p.lexicon p.tree leaf = cm := by
  simp [countermodels, and_assoc]

theorem exists_countermodel (h : p.hasCountermodel = true) : ∃ cm, cm ∈ p.countermodels := by
  obtain ⟨leaf, hleaf, hcomplete⟩ := List.any_eq_true.mp h
  exact ⟨_, mem_countermodels.mpr ⟨leaf, hleaf, hcomplete, rfl⟩⟩

end Prover

namespace Search

variable {s : Search}

/-- What holds when a search stands at its stage. -/
def IsInOrder (s : Search) : Prop :=
  match s.stage with
  | .entering .saturate | .saturating | .failed _ => True
  | .entering .close => s.prover.saturationCandidates = []
  | .entering .instantiate => s.prover.IsSettled
  | .entering .branch => s.prover.IsSettled ∧ (s.prover.pending = [] → s.prover.IsInstantiated)
  | .entering (.complete verdict) | .done verdict => s.prover.Deserves verdict

theorem isInOrder_perform (hp : s.prover.Coherent) {phase : Phase}
    (hstage : s.stage = .entering phase) (h : s.IsInOrder) (elapsed : Nat) :
    (s.perform elapsed phase).IsInOrder := by
  unfold IsInOrder at h
  rw [hstage] at h
  cases phase with
  | saturate =>
      simp only [perform]
      split
      · next hexhausted =>
          simp only [isExhausted, Option.any_eq_true] at hexhausted
          obtain ⟨budget, hbudget, -⟩ := hexhausted
          exact Option.isSome_iff_exists.mpr ⟨budget, hbudget⟩
      · exact trivial
  | close =>
      simp only [perform]
      split
      · next hempty => exact List.isEmpty_iff.mp hempty
      · next hempty =>
          have hsettled := Prover.isSettled_close hp h fun hnil =>
            hempty (List.isEmpty_iff.mpr hnil)
          split
          · next hpending =>
              refine ⟨hsettled, fun hnil => ?_⟩
              simp only at hnil
              simp [hnil] at hpending
          · exact hsettled
  | instantiate =>
      simp only [perform]
      split
      · exact trivial
      · next hinst => exact Prover.instantiate_of_isSettled hp h hinst
      · exact trivial
  | branch =>
      simp only [perform]
      split
      · next hmodel => exact hmodel
      · split
        · exact trivial
        · next hnone => exact Prover.hasCountermodel_of_isSettled hp h.1 h.2 hnone
  | complete verdict => exact h

/-- A report changes nothing. -/
theorem IsInOrder.entered (h : s.IsInOrder) (phase : Phase) : (s.entered phase).IsInOrder := by
  have hsettled : s.prover.IsSettled → (s.entered phase).prover.IsSettled :=
    fun hs => ⟨hs.nonempty, hs.consistent, hs.saturated⟩
  have hdeserves : ∀ verdict, s.prover.Deserves verdict →
      (s.entered phase).prover.Deserves verdict :=
    fun verdict hv => by cases verdict <;> exact hv
  have hstage : (s.entered phase).stage = s.stage := rfl
  unfold IsInOrder at h ⊢
  rw [hstage]
  split at h
  · trivial
  · trivial
  · trivial
  · exact h
  · exact hsettled h
  · exact ⟨hsettled h.1, h.2⟩
  · exact hdeserves _ h
  · exact hdeserves _ h

/-- Every step leaves behind what the next stage builds on. -/
theorem isInOrder_step (hp : s.prover.Coherent) (h : s.IsInOrder) (elapsed : Nat) :
    (step elapsed s).1.IsInOrder := by
  cases hstage : s.stage with
  | entering phase =>
      have hreport := Prover.leads_report s.prover (.entered phase s.prover.openLeaves.length)
      have hcoh : (s.entered phase).prover.Coherent := hreport.coherent hp
      rw [step_entering hstage]
      exact isInOrder_perform hcoh hstage (h.entered phase) elapsed
  | saturating =>
      rw [step_saturating hstage]
      unfold IsInOrder
      simp only
      cases hreport : s.prover.saturate.2 with
      | true => trivial
      | false => exact Prover.saturationCandidates_of_false hreport
  | done | failed =>
      rw [step_of_isOver (by simp [isOver, hstage])]
      exact h

/-- Only instantiation can fail. -/
theorem stage_step_ne_failed (h : ∀ defect, s.stage ≠ .failed defect)
    (hinst : ∀ defect, (s.entered .instantiate).prover.instantiate.2 ≠ .error defect)
    (elapsed : Nat) : ∀ defect, (step elapsed s).1.stage ≠ .failed defect := by
  intro defect
  cases hstage : s.stage with
  | saturating =>
      rw [step_saturating hstage]
      simp only
      split <;> simp
  | done verdict =>
      rw [step_of_isOver (by simp [isOver, hstage])]
      exact h defect
  | failed other => exact absurd hstage (h other)
  | entering phase =>
      rw [step_entering hstage]
      cases phase with
      | saturate =>
          simp only [perform]
          split <;> simp
      | close | complete => simp [perform]
      | instantiate =>
          simp only [perform]
          split
          · simp
          · simp
          · next other heq => exact absurd (congrArg Prod.snd heq) (hinst other)
      | branch =>
          simp only [perform]
          split
          · simp
          · split <;> simp

end Search

namespace Prover

variable {lexicon : Lexicon} {premises goals : List Sentence} {options : Options}

theorem Reaches.isInOrder {s : Search}
    (h : (Prover.start lexicon premises goals options).Reaches s) : s.IsInOrder := by
  induction h with
  | first => trivial
  | step elapsed hs ih => exact Search.isInOrder_step hs.coherent ih elapsed
  | again => trivial

/-- Some leaf is open, and all open leaves are done with but for quantifiers and splits, when
these come next. -/
theorem Reaches.isSettled {s : Search}
    (h : (Prover.start lexicon premises goals options).Reaches s)
    (hstage : s.stage = .entering .instantiate ∨ s.stage = .entering .branch) :
    s.prover.IsSettled := by
  have horder := h.isInOrder
  rw [Search.IsInOrder] at horder
  rcases hstage with hstage | hstage
  · rw [hstage] at horder
    exact horder
  · rw [hstage] at horder
    exact horder.1

/-- A search ends in a state that deserves its verdict. -/
theorem Reaches.deserves_of_done {s : Search}
    (h : (Prover.start lexicon premises goals options).Reaches s) {verdict : Verdict}
    (hstage : s.stage = .done verdict) : s.prover.Deserves verdict := by
  have horder := h.isInOrder
  rw [Search.IsInOrder, hstage] at horder
  exact horder

/-- A search that returns a verdict has come to that verdict. -/
theorem MayReturn.exists_done {p q : Prover} {verdict : Verdict}
    (h : p.MayReturn (q, .ok verdict)) :
    ∃ s, p.Reaches s ∧ s.stage = .done verdict ∧ s.finish.1 = q := by
  obtain ⟨s, hs, hover, hfinish⟩ := h
  refine ⟨s, hs, ?_, by rw [hfinish]⟩
  unfold Search.finish at hfinish
  unfold Search.isOver at hover
  cases hstage : s.stage with
  | entering | saturating => simp [hstage] at hover
  | failed defect => simp [hstage] at hfinish
  | done other =>
      simp only [hstage, Prod.mk.injEq, Except.ok.injEq] at hfinish
      rw [hfinish.2]

/-- A search ends with the state that its verdict says: no leaf is open, some leaf is
complete, or there was a time budget. -/
theorem MayReturn.deserves {q : Prover} {verdict : Verdict}
    (h : (Prover.start lexicon premises goals options).MayReturn (q, .ok verdict)) :
    ∃ s, (Prover.start lexicon premises goals options).Reaches s ∧
      s.stage = .done verdict ∧ s.prover.Deserves verdict := by
  obtain ⟨s, hs, hstage, -⟩ := h.exists_done
  exact ⟨s, hs, hstage, hs.deserves_of_done hstage⟩

/-- The state that is returned is the one that the search ends with. -/
theorem MayReturn.deserves_verdict {q : Prover} {verdict : Verdict}
    (h : (Prover.start lexicon premises goals options).MayReturn (q, .ok verdict)) :
    q.Deserves verdict := by
  obtain ⟨s, hs, hstage, rfl⟩ := h.exists_done
  have hdeserves := hs.deserves_of_done hstage
  simp only [Search.finish, hstage]
  cases verdict <;> exact hdeserves

/-- Where no leaf is complete, something is pending that can be committed. -/
theorem Reaches.exists_commitBranch? {s : Search}
    (h : (Prover.start lexicon premises goals options).Reaches s)
    (hstage : s.stage = .entering .branch) (hnone : s.prover.hasCountermodel = false) :
    ∃ p, s.prover.commitBranch? = some p := by
  have horder := h.isInOrder
  simp only [Search.IsInOrder, hstage] at horder
  cases hcommit : s.prover.commitBranch? with
  | some p => exact ⟨p, rfl⟩
  | none =>
      have hmodel := hasCountermodel_of_isSettled h.coherent horder.1 horder.2 hcommit
      rw [hnone] at hmodel
      contradiction

/-- A search in which no instantiation fails never fails. -/
theorem Reaches.stage_ne_failed {s : Search}
    (h : (Prover.start lexicon premises goals options).Reaches s)
    (hinst : ∀ p, (Prover.start lexicon premises goals options).Leads p →
      ∀ defect, p.instantiate.2 ≠ .error defect) : ∀ defect, s.stage ≠ .failed defect := by
  induction h with
  | first | again => simp [search]
  | @step s elapsed hs ih =>
      have hreport := leads_report s.prover (.entered .instantiate s.prover.openLeaves.length)
      exact Search.stage_step_ne_failed ih (hinst _ ((hs.leads coherent_start).trans hreport))
        elapsed

/-- A search in which no instantiation fails ends with a verdict. -/
theorem MayReturn.exists_verdict {q : Prover} {result : Except Defect Verdict}
    (h : (Prover.start lexicon premises goals options).MayReturn (q, result))
    (hinst : ∀ p, (Prover.start lexicon premises goals options).Leads p →
      ∀ defect, p.instantiate.2 ≠ .error defect) :
    ∃ verdict, result = .ok verdict := by
  obtain ⟨s, hs, -, hfinish⟩ := h
  unfold Search.finish at hfinish
  cases hcase : s.stage with
  | entering | saturating | done =>
      exact ⟨_, by simpa [hcase] using (congrArg Prod.snd hfinish).symm⟩
  | failed defect => exact absurd hcase (hs.stage_ne_failed hinst defect)

end Prover

end Tableau
