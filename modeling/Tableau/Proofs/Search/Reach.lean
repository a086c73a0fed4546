/-
The states of a search.  A search may make any number of steps, whatever the clock
shows, and be repeated when it is over.  What holds at the start and is kept by every
transition holds of all states that a search reaches.
-/
import Mathlib.Logic.Function.Iterate
import Tableau.Proofs.Search.Transition
import Tableau.Proofs.Section

namespace Tableau

namespace Prover

variable {p q : Prover} {s : Search}

/-- One state after the other, by any number of transitions. -/
def Leads (p q : Prover) : Prop := Relation.ReflTransGen Transition p q

namespace Leads

theorem refl (p : Prover) : Leads p p := Relation.ReflTransGen.refl

theorem trans {r : Prover} (h : Leads p q) (h' : Leads q r) : Leads p r :=
  Relation.ReflTransGen.trans h h'

theorem of_transition (h : Transition p q) : Leads p q := Relation.ReflTransGen.single h

/-- What every transition keeps is kept by any number of them. -/
theorem preserves {P : Prover → Prop}
    (hstep : ∀ p q, p.Coherent → P p → Transition p q → P q) (h : Leads p q) (hp : p.Coherent)
    (hP : P p) : q.Coherent ∧ P q := by
  induction h with
  | refl => exact ⟨hp, hP⟩
  | tail _ htransition ih => exact ⟨htransition.coherent ih.1, hstep _ _ ih.1 ih.2 htransition⟩

theorem coherent (h : Leads p q) (hp : p.Coherent) : q.Coherent :=
  (h.preserves (P := fun _ => True) (fun _ _ _ _ _ => trivial) hp trivial).1

end Leads

/-! Rules that are fired one after the other. -/

/-- A rule is fired at an open leaf, and its inference gets the next number and is
committed. -/
def CommitsAt (p : Prover) (leaf : NodeId) (q : Prover) : Prop :=
  leaf ∈ p.openLeaves ∧ ∃ k value inf lex,
    Rule.Fires p.lexicon p.tree leaf k value inf lex ∧ inf.number = p.nextNumber ∧
      q = { p with lexicon := lex }.commit inf

/-- Any number of inferences are committed, one after the other. -/
def Commits : Prover → Prover → Prop := Relation.ReflTransGen fun p q => ∃ leaf, p.CommitsAt leaf q

/-- Inferences are committed, the first of them at the given leaf. -/
def CommitsFrom (p : Prover) (leaf : NodeId) (q : Prover) : Prop :=
  ∃ r, p.CommitsAt leaf r ∧ r.Commits q

theorem CommitsFrom.commits {leaf : NodeId} (h : p.CommitsFrom leaf q) : p.Commits q := by
  obtain ⟨r, hfirst, hrest⟩ := h
  exact Relation.ReflTransGen.head ⟨leaf, hfirst⟩ hrest

theorem CommitsAt.transition {leaf : NodeId} (h : p.CommitsAt leaf q) (hp : p.Coherent) :
    Transition p q := by
  obtain ⟨hleaf, k, value, inf, lex, hfires, -, rfl⟩ := h
  exact transition_commit hp hleaf hfires

/-- What every commitment keeps is kept by any number of them. -/
theorem Commits.preserves {P : Prover → Prop}
    (hstep : ∀ p q leaf, p.Coherent → P p → p.CommitsAt leaf q → P q) (h : p.Commits q)
    (hp : p.Coherent) (hP : P p) : q.Coherent ∧ P q := by
  induction h with
  | refl => exact ⟨hp, hP⟩
  | tail _ hlast ih =>
      obtain ⟨leaf, hlast⟩ := hlast
      exact ⟨(hlast.transition ih.1).coherent ih.1, hstep _ _ leaf ih.1 ih.2 hlast⟩

theorem Commits.leads (h : p.Commits q) (hp : p.Coherent) : Leads p q := by
  refine (h.preserves (P := Leads p) (fun _ _ _ hcoh hold hlast => ?_) hp (.refl p)).2
  exact hold.trans (.of_transition (hlast.transition hcoh))

/-! The phases. -/

@[simp]
theorem openLeaves_fire (candidate : NodeId × Key) (p : Prover) :
    (fire candidate p).1.openLeaves = p.openLeaves := by
  unfold fire
  split
  · exact openLeaves_commit ..
  · rfl

/-- A candidate is fired, or it does not apply and nothing changes. -/
theorem fire_cases {candidate : NodeId × Key} (hleaf : candidate.1 ∈ p.openLeaves) :
    fire candidate p = (p, false) ∨
      (fire candidate p).2 = true ∧ p.CommitsAt candidate.1 (fire candidate p).1 := by
  unfold fire
  split
  · next inf hdecompose =>
      obtain ⟨value, hfires⟩ := Rule.fires_decompose? hdecompose
      exact Or.inr ⟨rfl, hleaf, candidate.2, value, inf, p.lexicon, hfires,
        Rule.number_of_decompose? hdecompose, rfl⟩
  · exact Or.inl rfl

/-- A round of saturation commits inferences, unless it has no effect. -/
theorem each_fire_cases {candidates : List (NodeId × Key)}
    (hleaves : ∀ candidate ∈ candidates, candidate.1 ∈ p.openLeaves) :
    Update.each fire candidates p = (p, false) ∨
      (Update.each fire candidates p).2 = true ∧
        ∃ candidate ∈ candidates, p.CommitsFrom candidate.1 (Update.each fire candidates p).1 := by
  induction candidates generalizing p with
  | nil => exact Or.inl rfl
  | cons candidate candidates ih =>
      have hrest := ih (p := (fire candidate p).1) fun other hother => by
        rw [openLeaves_fire]
        exact hleaves other (List.mem_cons_of_mem candidate hother)
      simp only [Update.each, Update.andThen]
      rcases fire_cases (hleaves candidate List.mem_cons_self) with hnone | ⟨hfired, hfirst⟩
      · rw [hnone] at hrest ⊢
        rcases hrest with hrest | ⟨heffect, other, hother, hcommits⟩
        · exact Or.inl (by rw [hrest]; rfl)
        · exact Or.inr ⟨heffect, other, List.mem_cons_of_mem candidate hother, hcommits⟩
      · refine Or.inr ⟨by rw [hfired]; rfl, candidate, List.mem_cons_self, _, hfirst, ?_⟩
        rcases hrest with hrest | ⟨-, other, -, hcommits⟩
        · rw [hrest]
          exact Relation.ReflTransGen.refl
        · exact hcommits.commits

theorem mem_openLeaves_of_mem_saturationCandidates {candidate : NodeId × Key}
    (h : candidate ∈ p.saturationCandidates) : candidate.1 ∈ p.openLeaves := by
  simp only [saturationCandidates, List.mem_flatMap, List.mem_map] at h
  obtain ⟨leaf, hleaf, k, -, rfl⟩ := h
  exact hleaf

theorem commits_each_fire {candidates : List (NodeId × Key)}
    (hleaves : ∀ candidate ∈ candidates, candidate.1 ∈ p.openLeaves) :
    p.Commits (Update.each fire candidates p).1 := by
  rcases each_fire_cases hleaves with hnone | ⟨-, candidate, -, hcommits⟩
  · rw [hnone]
    exact Relation.ReflTransGen.refl
  · exact hcommits.commits

theorem leads_saturate (hp : p.Coherent) : Leads p p.saturate.1 := by
  have hfires := commits_each_fire (p := p) fun _ h => mem_openLeaves_of_mem_saturationCandidates h
  exact (hfires.leads hp).trans (.of_transition (.noted rfl rfl rfl rfl))

/-- Discharging obligations commits inferences, the first of them at a consistent leaf, unless
all obligations are skipped or the first that is not fails. -/
theorem discharge_cases (hp : p.Coherent) (obligations : List Obligation) :
    (p.discharge obligations).1 = p ∧ (p.discharge obligations).2 ≠ .ok true ∨
      ∃ leaf, p.tree.isPathConsistent leaf = true ∧
        p.CommitsFrom leaf (p.discharge obligations).1 := by
  induction obligations generalizing p with
  | nil => exact Or.inl ⟨rfl, by simp [discharge]⟩
  | cons ob rest ih =>
      unfold discharge
      split
      · exact ih hp
      · next hopen =>
          simp only [Bool.or_eq_true, not_or, Bool.not_eq_true', Bool.not_eq_false,
            List.contains_iff_mem] at hopen
          split
          · exact Or.inl ⟨rfl, by simp⟩
          · next inf lexicon hinst =>
              obtain ⟨value, hfires⟩ :=
                Rule.fires_instantiate? (fun t => hp.isGroundTerm_of_visible) hopen.2 hinst
              have hfirst : p.CommitsAt ob.leaf ({ p with lexicon }.commit inf) :=
                ⟨hopen.1, ob.fact.key, value, inf, lexicon, hfires,
                  Rule.number_of_instantiate? hinst, rfl⟩
              refine Or.inr ⟨ob.leaf, hopen.2, _, hfirst, ?_⟩
              rcases ih ((hfirst.transition hp).coherent hp) with ⟨hsame, -⟩ | ⟨other, -, hcommits⟩
              · simp only [hsame]
                exact Relation.ReflTransGen.refl
              · exact hcommits.commits

theorem commits_discharge (hp : p.Coherent) (obligations : List Obligation) :
    p.Commits (p.discharge obligations).1 := by
  rcases discharge_cases hp obligations with ⟨hsame, -⟩ | ⟨leaf, -, hcommits⟩
  · rw [hsame]
    exact Relation.ReflTransGen.refl
  · exact hcommits.commits

theorem leads_report (p : Prover) (event : Event) : Leads p (p.report event) :=
  .of_transition (.noted rfl rfl rfl rfl)

theorem leads_instantiate (hp : p.Coherent) : Leads p p.instantiate.1 := by
  have hreport := leads_report p (.obligations p.obligations.length)
  have hcoh := hreport.coherent hp
  exact hreport.trans ((commits_discharge hcoh p.obligations).leads hcoh)

end Prover

namespace Search

theorem leads_perform (s : Search) (hp : s.prover.Coherent) (elapsed : Nat) (phase : Phase) :
    Prover.Leads s.prover (s.perform elapsed phase).prover := by
  cases phase with
  | saturate =>
      simp only [perform]
      split
      · exact Prover.leads_report ..
      · exact .refl _
  | close => exact .of_transition (Prover.transition_close hp)
  | instantiate =>
      have hinst := Prover.leads_instantiate hp
      simp only [perform]
      split
      all_goals
        next heq =>
          rw [heq] at hinst
          exact hinst
  | branch =>
      simp only [perform]
      split
      · exact .refl _
      · split
        · next heq => exact .of_transition (Prover.transition_commitBranch? hp heq)
        · exact .refl _
  | complete verdict => exact .refl _

/-! What a step does, stage by stage. -/

/-- A search that enters a phase, which is reported. -/
def entered (s : Search) (phase : Phase) : Search :=
  { s with prover := s.prover.report (.entered phase s.prover.openLeaves.length) }

theorem step_entering {s : Search} {phase : Phase} (h : s.stage = .entering phase)
    (elapsed : Nat) : (step elapsed s).1 = (s.entered phase).perform elapsed phase := by
  unfold step entered
  rw [h]

theorem step_saturating {s : Search} (h : s.stage = .saturating) (elapsed : Nat) :
    (step elapsed s).1 =
      { s with
        prover := s.prover.saturate.1
        stage := if s.prover.saturate.2 then .saturating else .entering .close } := by
  unfold step
  rw [h]

theorem step_of_isOver {s : Search} (h : s.isOver = true) (elapsed : Nat) :
    (step elapsed s).1 = s := by
  unfold isOver at h
  unfold step
  cases hstage : s.stage with
  | entering | saturating => simp [hstage] at h
  | done | failed => rfl

/-- A step is a sequence of transitions. -/
theorem leads_step (s : Search) (hp : s.prover.Coherent) (elapsed : Nat) :
    Prover.Leads s.prover (step elapsed s).1.prover := by
  cases hstage : s.stage with
  | entering phase =>
      have hreport := Prover.leads_report s.prover (.entered phase s.prover.openLeaves.length)
      have hphase := leads_perform (s.entered phase) (hreport.coherent hp) elapsed phase
      rw [step_entering hstage]
      exact hreport.trans hphase
  | saturating =>
      rw [step_saturating hstage]
      exact Prover.leads_saturate hp
  | done | failed =>
      rw [step_of_isOver (by simp [isOver, hstage])]
      exact .refl _

end Search

namespace Prover

variable {p q : Prover} {s : Search}

/-- The states of a search that begins with a prover.  The clock may show anything at
any step, and a search that is over may be repeated. -/
inductive Reaches (p : Prover) : Search → Prop where
  | first : Reaches p p.search
  | step {s : Search} (elapsed : Nat) : Reaches p s → Reaches p (Search.step elapsed s).1
  | again {s : Search} : Reaches p s → s.isOver = true → Reaches p s.finish.1.search

/-- A search that begins with a prover may end with this result. -/
def MayReturn (p : Prover) (result : Prover × Except Defect Verdict) : Prop :=
  ∃ s, p.Reaches s ∧ s.isOver = true ∧ s.finish = result

end Prover

namespace Search

/-- The later states of a search, which may be repeated when it is over.  The clock may show
anything. -/
inductive Proceeds (s : Search) : Search → Prop where
  | refl : Proceeds s s
  | step {t : Search} (elapsed : Nat) : Proceeds s t → Proceeds s (step elapsed t).1
  | again {t : Search} : Proceeds s t → t.isOver = true → Proceeds s t.finish.1.search

theorem Proceeds.reaches {p : Prover} {s t : Search} (h : s.Proceeds t) (hs : p.Reaches s) :
    p.Reaches t := by
  induction h with
  | refl => exact hs
  | step elapsed _ ih => exact ih.step elapsed
  | again _ hover ih => exact ih.again hover

theorem tree_finish (s : Search) : s.finish.1.tree = s.prover.tree := by
  unfold finish
  cases s.stage <;> rfl

theorem log_finish (s : Search) : s.finish.1.log = s.prover.log := by
  unfold finish
  cases s.stage <;> rfl

end Search

namespace Prover

variable {p q : Prover} {s : Search}

theorem leads_finish (s : Search) : Leads s.prover s.finish.1 := by
  apply Leads.of_transition
  unfold Search.finish
  cases s.stage <;> exact .noted rfl rfl rfl rfl

theorem Reaches.leads (h : p.Reaches s) (hp : p.Coherent) : Leads p s.prover := by
  induction h with
  | first => exact .of_transition (.noted rfl rfl rfl rfl)
  | step elapsed _ ih => exact ih.trans (Search.leads_step _ (ih.coherent hp) elapsed)
  | again _ _ ih =>
      exact (ih.trans (leads_finish _)).trans (.of_transition (.noted rfl rfl rfl rfl))

/-- What the clock shows as it stands still is one of the things it may show. -/
theorem mayReturn_of_prove? {fuel : Nat} {result : Prover × Except Defect Verdict}
    (h : p.prove? fuel = some result) : p.MayReturn result := by
  have hstable : ∀ fuel round s r, p.Reaches s →
      Update.untilStableFrom (Search.step instant) fuel round s = some r →
      p.Reaches r.1 ∧ r.1.isOver = true := by
    intro fuel
    induction fuel with
    | zero => simp [Update.untilStableFrom]
    | succ fuel ih =>
        intro round s r hs hr
        simp only [Update.untilStableFrom] at hr
        split at hr
        · exact ih (round + 1) _ r (hs.step instant) hr
        · next hover =>
            obtain rfl := Option.some.inj hr
            refine ⟨hs.step instant, ?_⟩
            simpa [Search.step] using hover
  unfold prove? at h
  obtain ⟨r, hr, rfl⟩ := Option.map_eq_some_iff.mp h
  obtain ⟨hreach, hover⟩ := hstable fuel 1 p.search r .first hr
  exact ⟨r.1, hreach, hover, rfl⟩

/-- Searching by evaluation shows what the search may return. -/
theorem exists_mayReturn_of_toOption (fuel : Nat) {verdict : Verdict}
    (h : (p.prove? fuel).bind (·.2.toOption) = some verdict) :
    ∃ q, p.MayReturn (q, .ok verdict) := by
  obtain ⟨⟨q, result⟩, hresult, hverdict⟩ := Option.bind_eq_some_iff.mp h
  obtain rfl : result = .ok verdict := by cases result <;> simp_all [Except.toOption]
  exact ⟨q, mayReturn_of_prove? hresult⟩

/-- The state of a search after so many steps, while the clock stands still. -/
def after (p : Prover) (steps : Nat) : Search :=
  (fun s => (Search.step instant s).1)^[steps] p.search

theorem after_succ (p : Prover) (steps : Nat) :
    p.after (steps + 1) = (Search.step instant (p.after steps)).1 :=
  Function.iterate_succ_apply' ..

theorem reaches_after (p : Prover) (steps : Nat) : p.Reaches (p.after steps) := by
  induction steps with
  | zero => exact .first
  | succ steps ih =>
      rw [after_succ]
      exact ih.step instant

theorem proceeds_after (p : Prover) (steps more : Nat) :
    (p.after steps).Proceeds (p.after (steps + more)) := by
  induction more with
  | zero => exact .refl
  | succ more ih =>
      rw [← Nat.add_assoc, after_succ]
      exact ih.step instant

theorem proceeds_after_finish {s : Search} (hover : s.isOver = true) (steps : Nat) :
    s.Proceeds (s.finish.1.after steps) := by
  induction steps with
  | zero => exact Search.Proceeds.refl.again hover
  | succ steps ih =>
      rw [after_succ]
      exact ih.step instant

/-! The beginning. -/

/-- The facts that a search begins with: the premises are true, and what a
countermodel has to refute is false. -/
def rootFacts (premises goals : List Sentence) : List Fact :=
  premises.map (Sentence.valued true) ++ (refutand? goals).toList.map (Sentence.valued false)

theorem forall_mem_rootFacts {premises goals : List Sentence} {P : Fact → Prop} :
    (∀ fact ∈ rootFacts premises goals, P fact) ↔
      (∀ s ∈ premises, P (s.valued true)) ∧
        ∀ goal, refutand? goals = some goal → P (goal.valued false) := by
  simp [rootFacts, or_imp, forall_and]

/-- What holds of all premises and goals, and passes to conjunctions, holds of all
sentences that a search begins with. -/
theorem of_mem_rootFacts {premises goals : List Sentence} {P : Sentence → Prop}
    (hpremises : ∀ s ∈ premises, P s) (hgoals : ∀ s ∈ goals, P s)
    (hconj : ∀ xs, (∀ x ∈ xs, P x) → P (.conj xs)) :
    ∀ fact ∈ rootFacts premises goals, P fact.sentence := by
  refine forall_mem_rootFacts.mpr ⟨hpremises, fun goal hgoal => ?_⟩
  unfold refutand? at hgoal
  split at hgoal
  · contradiction
  · obtain rfl := Option.some.inj hgoal
    exact hgoals _ List.mem_cons_self
  · obtain rfl := Option.some.inj hgoal
    exact hconj _ hgoals

variable (lexicon : Lexicon) (premises goals : List Sentence) (options : Options)

@[simp]
theorem tree_start : (start lexicon premises goals options).tree =
    Tree.ofRoot (Assignment.ofFacts (rootFacts premises goals) 0) := by
  unfold start rootFacts
  simp only
  split
  · next h => simp [h]
  · next goal h =>
      simp only [h, Option.toList_some, List.map_cons, List.map_nil]
      rfl

@[simp]
theorem openLeaves_start : (start lexicon premises goals options).openLeaves = [NodeId.root] := by
  unfold start
  simp only
  split <;> rfl

@[simp]
theorem pending_start : (start lexicon premises goals options).pending = [] := by
  unfold start
  simp only
  split <;> rfl

@[simp]
theorem log_start : (start lexicon premises goals options).log = #[] := by
  unfold start
  simp only
  split <;> rfl

@[simp]
theorem counter_start : (start lexicon premises goals options).counter = 0 := by
  unfold start
  simp only
  split <;> rfl

@[simp]
theorem options_start : (start lexicon premises goals options).options = options := by
  unfold start
  simp only
  split <;> rfl

theorem growsTo_lexicon_start : lexicon.GrowsTo (start lexicon premises goals options).lexicon := by
  unfold start
  simp only
  split
  · exact .refl lexicon
  · exact lexicon.growsTo_intern _

theorem isThorough_lexicon_start {lexicon : Lexicon} (h : lexicon.IsThorough) :
    (start lexicon premises goals options).lexicon.IsThorough := by
  unfold start
  simp only
  split
  · exact h
  · exact h.intern _

theorem refutand_mem_entries_start {goal : Sentence} (h : refutand? goals = some goal) :
    goal ∈ (start lexicon premises goals options).lexicon.entries := by
  unfold start
  simp only [h]
  exact lexicon.mem_entries_intern goal

variable {lexicon premises goals options}

theorem has_branch_start {id : NodeId} {k : Key} {value : Bool} :
    ((start lexicon premises goals options).tree.branch id).has k value = true ↔
      id = NodeId.root ∧ ⟨k, value⟩ ∈ rootFacts premises goals := by
  rw [tree_start, Tree.branch_ofRoot]
  split
  · next h => simp [Branch.has_iff, h]
  · next h => simp [Branch.has_iff, h]

theorem isDecomposed_branch_start (id : NodeId) (k : Key) :
    ((start lexicon premises goals options).tree.branch id).isDecomposed k = false := by
  rw [tree_start, Tree.branch_ofRoot, ← Bool.not_eq_true]
  split <;> simp [Branch.isDecomposed_iff]

theorem instancesOf_branch_start (id : NodeId) (k : Key) :
    ((start lexicon premises goals options).tree.branch id).instancesOf k = [] := by
  rw [tree_start, Tree.branch_ofRoot]
  split <;> simp [Branch.instancesOf]

theorem coherent_start : (start lexicon premises goals options).Coherent where
  tree := by
    rw [tree_start]
    exact Tree.coherent_ofRoot _
  open_lt := by
    rw [openLeaves_start, tree_start]
    intro leaf hleaf
    obtain rfl : leaf = NodeId.root := by simpa using hleaf
    exact Nat.zero_lt_one
  childless := by
    rw [openLeaves_start, tree_start]
    intro leaf hleaf
    obtain rfl : leaf = NodeId.root := by simpa using hleaf
    rfl
  nodup := by simp
  queued := by simp
  instances := by
    intro id k term hterm
    rw [instancesOf_branch_start] at hterm
    simp at hterm

/-- What holds at the start and is kept by every transition holds of all states that
a search reaches. -/
theorem Reaches.invariant {s : Search} {P : Prover → Prop}
    (h : (start lexicon premises goals options).Reaches s)
    (hstep : ∀ p q, p.Coherent → P p → Transition p q → P q)
    (hstart : P (start lexicon premises goals options)) : P s.prover :=
  ((h.leads coherent_start).preserves hstep coherent_start hstart).2

theorem Reaches.coherent {s : Search} (h : (start lexicon premises goals options).Reaches s) :
    s.prover.Coherent :=
  (h.leads coherent_start).coherent coherent_start

/-- The facts that a search begins with stay on the branches of all nodes. -/
theorem Reaches.gives_of_mem_rootFacts {s : Search}
    (h : (start lexicon premises goals options).Reaches s) {fact : Fact}
    (hfact : fact ∈ rootFacts premises goals) {id : NodeId} (hid : id < s.prover.tree.size) :
    (s.prover.tree.branch id).Gives fact := by
  have hroot : NodeId.root < s.prover.tree.size ∧
      (s.prover.tree.branch NodeId.root).Gives fact := by
    refine h.invariant (P := fun p =>
      NodeId.root < p.tree.size ∧ (p.tree.branch NodeId.root).Gives fact) ?_ ?_
    · rintro p q hp ⟨hlt, hgives⟩ htransition
      have hgrows := htransition.growsTo hp
      exact ⟨Nat.lt_of_lt_of_le hlt hgrows.size_le, hgrows.has _ hlt _ _ hgives⟩
    · refine ⟨?_, has_branch_start.mpr ⟨rfl, hfact⟩⟩
      rw [tree_start]
      exact Nat.zero_lt_one
  have hcoh := h.coherent.tree
  exact hcoh.has_branch_mono (hcoh.root_mem_ancestry hid) hroot.2

end Prover

/-! A search never changes what it is about. -/

namespace Prover

variable {p q : Prover}

/-- Two states of a search are about the same argument and have the same options. -/
structure SameProblem (p q : Prover) : Prop where
  premises : q.premises = p.premises
  goals : q.goals = p.goals
  options : q.options = p.options

theorem SameProblem.refl (p : Prover) : SameProblem p p := ⟨rfl, rfl, rfl⟩

theorem SameProblem.trans {r : Prover} (h : SameProblem p q) (h' : SameProblem q r) :
    SameProblem p r :=
  ⟨h'.premises.trans h.premises, h'.goals.trans h.goals, h'.options.trans h.options⟩

theorem sameProblem_commit (p : Prover) (inf : Inference) (lexicon : Lexicon) :
    SameProblem p ({ p with lexicon }.commit inf) := by
  unfold commit
  split <;> exact ⟨rfl, rfl, rfl⟩

theorem sameProblem_each_fire (p : Prover) (candidates : List (NodeId × Key)) :
    SameProblem p (Update.each fire candidates p).1 := by
  induction candidates generalizing p with
  | nil => exact .refl p
  | cons candidate candidates ih =>
      have hfirst : SameProblem p (fire candidate p).1 := by
        unfold fire
        split
        · exact sameProblem_commit p _ p.lexicon
        · exact .refl p
      exact hfirst.trans (ih _)

theorem sameProblem_foldl_recordClosure (p : Prover) (found : List Conflict) :
    SameProblem p (found.foldl recordClosure p) := by
  induction found generalizing p with
  | nil => exact .refl p
  | cons conflict found ih =>
      have hfirst : SameProblem p (p.recordClosure conflict) := ⟨rfl, rfl, rfl⟩
      exact hfirst.trans (ih _)

theorem sameProblem_report (p : Prover) (event : Event) : SameProblem p (p.report event) :=
  ⟨rfl, rfl, rfl⟩

theorem sameProblem_discharge (p : Prover) (obligations : List Obligation) :
    SameProblem p (p.discharge obligations).1 := by
  induction obligations generalizing p with
  | nil => exact .refl p
  | cons ob rest ih =>
      unfold discharge
      split
      · exact ih p
      · split
        · exact .refl p
        · exact (sameProblem_commit p _ _).trans (ih _)

end Prover

namespace Search

theorem sameProblem_perform (s : Search) (elapsed : Nat) (phase : Phase) :
    Prover.SameProblem s.prover (s.perform elapsed phase).prover := by
  cases phase with
  | saturate =>
      simp only [perform]
      split <;> exact ⟨rfl, rfl, rfl⟩
  | close =>
      have h := Prover.sameProblem_foldl_recordClosure s.prover (s.prover.conflicts.filterMap (·.2))
      exact ⟨h.premises, h.goals, h.options⟩
  | instantiate =>
      have h : Prover.SameProblem s.prover s.prover.instantiate.1 :=
        (Prover.sameProblem_report ..).trans (Prover.sameProblem_discharge ..)
      simp only [perform]
      split
      all_goals
        next heq =>
          rw [heq] at h
          exact h
  | branch =>
      simp only [perform]
      split
      · exact .refl _
      · split
        · next prover heq =>
            unfold Prover.commitBranch? at heq
            obtain ⟨taken, -, rfl⟩ := Option.map_eq_some_iff.mp heq
            exact ⟨rfl, rfl, rfl⟩
        · exact .refl _
  | complete verdict => exact .refl _

theorem sameProblem_step (s : Search) (elapsed : Nat) :
    Prover.SameProblem s.prover (step elapsed s).1.prover := by
  cases hstage : s.stage with
  | entering phase =>
      rw [step_entering hstage]
      exact (Prover.sameProblem_report ..).trans
        (sameProblem_perform (s.entered phase) elapsed phase)
  | saturating =>
      have h := Prover.sameProblem_each_fire s.prover s.prover.saturationCandidates
      rw [step_saturating hstage]
      exact ⟨h.premises, h.goals, h.options⟩
  | done | failed =>
      rw [step_of_isOver (by simp [isOver, hstage])]
      exact .refl _

end Search

theorem Prover.Reaches.sameProblem {p : Prover} {s : Search} (h : p.Reaches s) :
    p.SameProblem s.prover := by
  induction h with
  | first => exact ⟨rfl, rfl, rfl⟩
  | step elapsed _ ih => exact ih.trans (Search.sameProblem_step _ elapsed)
  | @again s _ _ ih =>
      refine ih.trans ?_
      unfold Search.finish
      cases s.stage <;> exact ⟨rfl, rfl, rfl⟩

theorem Prover.Reaches.options_eq {lexicon : Lexicon} {premises goals : List Sentence}
    {options : Options} {s : Search} (h : (Prover.start lexicon premises goals options).Reaches s) :
    s.prover.options = options :=
  h.sameProblem.options.trans (options_start ..)

/-! Searches for problems that have been read. -/

namespace Problem

/-- Reading a text and searching, both by evaluation, shows what the search may return. -/
theorem exists_mayReturn_of_toOption (lexicon : Lexicon) (text : String) (options : Options)
    (fuel : Nat) (verdict : Verdict)
    (h : ((read lexicon text).1.toOption.bind fun problem =>
      ((Prover.start (read lexicon text).2 problem.premises problem.goals options).prove? fuel).bind
        (·.2.toOption)) = some verdict) :
    ∃ problem lexicon', read lexicon text = (.ok problem, lexicon') ∧ ∃ q,
      (Prover.start lexicon' problem.premises problem.goals options).MayReturn
        (q, .ok verdict) := by
  obtain ⟨problem, hproblem, hprove⟩ := Option.bind_eq_some_iff.mp h
  have hread : (read lexicon text).1 = .ok problem := by
    cases hcase : (read lexicon text).1 <;> simp_all [Except.toOption]
  exact ⟨problem, _, Prod.ext hread rfl, Prover.exists_mayReturn_of_toOption fuel hprove⟩

/-- Reading a text and making some steps, both by evaluation, shows what the search reaches. -/
theorem exists_reaches_of_any (lexicon : Lexicon) (text : String) (options : Options) (steps : Nat)
    {test : Search → Bool}
    (h : ((read lexicon text).1.toOption.any fun problem => test ((Prover.start
      (read lexicon text).2 problem.premises problem.goals options).after steps)) = true) :
    ∃ problem lexicon', read lexicon text = (.ok problem, lexicon') ∧ ∃ s,
      (Prover.start lexicon' problem.premises problem.goals options).Reaches s ∧ test s = true := by
  obtain ⟨problem, lexicon', hread, htest⟩ := exists_read_of_any lexicon text
    (fun problem lexicon' =>
      test ((Prover.start lexicon' problem.premises problem.goals options).after steps)) h
  exact ⟨problem, lexicon', hread, _, Prover.reaches_after _ steps, htest⟩

end Problem

end Tableau
