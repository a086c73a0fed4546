/-
Searches that end.  What is left to do is measured in some well-founded order.  If every
rule that is fired at a consistent branch lowers the measure and no other change raises it,
then every step of a search lowers the measure, or it keeps the measure and lowers the
number of pending inferences, or it keeps both and moves on to a later stage.  So some
number of steps is enough.
-/
import Mathlib.Data.Prod.Basic
import Mathlib.Order.RelClasses
import Tableau.Proofs.Search.Phase

namespace Tableau

namespace Update

variable {α : Type} {change : Update α}

/-- A change that has an effect only finitely often becomes stable, and from then on the
result does not depend on the fuel. -/
theorem exists_untilStableFrom {invariant : α → Prop} {lower : α → α → Prop}
    (hwf : WellFounded lower) (hkeeps : ∀ a, invariant a → invariant (change a).1)
    (hlower : ∀ a, invariant a → (change a).2 = true → lower (change a).1 a) {a : α}
    (ha : invariant a) (round : Nat) :
    ∃ result enough, ∀ fuel ≥ enough, untilStableFrom change fuel round a = some result := by
  induction a using hwf.induction generalizing round with
  | h a ih =>
      cases heffect : (change a).2 with
      | false =>
          refine ⟨((change a).1, round), 1, fun fuel hfuel => ?_⟩
          obtain ⟨fuel, rfl⟩ := Nat.exists_eq_add_of_le' hfuel
          simp [untilStableFrom, heffect]
      | true =>
          obtain ⟨result, enough, hresult⟩ :=
            ih _ (hlower a ha heffect) (hkeeps a ha) (round + 1)
          refine ⟨result, enough + 1, fun fuel hfuel => ?_⟩
          obtain ⟨fuel, rfl⟩ := Nat.exists_eq_add_of_le' (Nat.le_of_add_left_le hfuel)
          simp only [untilStableFrom, heffect, if_true]
          exact hresult fuel (Nat.le_of_add_le_add_right hfuel)

end Update

namespace Prover

variable {α : Type} {lower : α → α → Prop} {measure : Prover → α} {p q : Prover} {leaf : NodeId}

/-- Whatever a search does next lowers a measure or keeps it, and firing a rule at a
consistent branch lowers it. -/
structure Declines (lower : α → α → Prop) (measure : Prover → α) (p : Prover) : Prop where
  noted : ∀ q, q.lexicon = p.lexicon → q.tree = p.tree → q.openLeaves = p.openLeaves →
    q.pending = p.pending → measure q = measure p
  commit : ∀ leaf q, p.CommitsAt leaf q → lower (measure q) (measure p) ∨
    p.tree.isPathConsistent leaf = false ∧ measure q = measure p
  close : lower (measure p.close) (measure p) ∨ measure p.close = measure p
  expand : ∀ q, p.commitBranch? = some q → lower (measure q) (measure p) ∨ measure q = measure p

/-! Saturation and instantiation. -/

section Rounds

variable (htrans : ∀ a b c : α, lower a b → lower b c → lower a c) (hp : p.Coherent)
  (hdeclines : ∀ r, Leads p r → r.Declines lower measure)
include htrans hp hdeclines

theorem Commits.measure_le (h : p.Commits q) :
    lower (measure q) (measure p) ∨ measure q = measure p := by
  refine (h.preserves (P := fun r =>
    Leads p r ∧ (lower (measure r) (measure p) ∨ measure r = measure p)) ?_ hp ?_).2.2
  · rintro r r' leaf hr ⟨hleads, hbefore⟩ hlast
    refine ⟨hleads.trans (.of_transition (hlast.transition hr)), ?_⟩
    rcases (hdeclines r hleads).commit leaf r' hlast with hlower | ⟨-, hsame⟩
    · rcases hbefore with hlower' | hsame
      · exact Or.inl (htrans _ _ _ hlower hlower')
      · exact Or.inl (hsame ▸ hlower)
    · rwa [hsame]
  · exact ⟨.refl p, Or.inr rfl⟩

/-- Inferences of which the first is committed at a consistent branch lower the measure. -/
theorem CommitsFrom.measure_lt (h : p.CommitsFrom leaf q)
    (hcons : p.tree.isPathConsistent leaf = true) : lower (measure q) (measure p) := by
  obtain ⟨r, hfirst, hrest⟩ := h
  have htransition := hfirst.transition hp
  have hlower : lower (measure r) (measure p) := by
    rcases (hdeclines p (.refl p)).commit leaf r hfirst with hlower | ⟨hconflict, -⟩
    · exact hlower
    · rw [hcons] at hconflict
      contradiction
  rcases hrest.measure_le htrans (htransition.coherent hp) fun r' hr' =>
      hdeclines r' ((Leads.of_transition htransition).trans hr') with hlower' | hsame
  · exact htrans _ _ _ hlower' hlower
  · rwa [hsame]

/-- A round of saturation with an effect lowers the measure. -/
theorem measure_saturate_lt (h : p.saturate.2 = true) :
    lower (measure p.saturate.1) (measure p) := by
  have hleaves : ∀ candidate ∈ p.saturationCandidates, candidate.1 ∈ p.openLeaves :=
    fun _ => mem_openLeaves_of_mem_saturationCandidates
  have hround := hdeclines _ ((commits_each_fire hleaves).leads hp)
  have hsame : measure p.saturate.1 = measure (Update.each fire p.saturationCandidates p).1 :=
    hround.noted _ rfl rfl rfl rfl
  have heffect : (Update.each fire p.saturationCandidates p).2 = true := h
  rw [hsame]
  rcases each_fire_cases hleaves with hnone | ⟨-, candidate, hcandidate, hcommits⟩
  · rw [hnone] at heffect
    contradiction
  · exact hcommits.measure_lt htrans hp hdeclines (mem_saturationCandidates.mp hcandidate).2.1

/-- Instantiation lowers the measure, or nothing has been done. -/
theorem measure_instantiate_le :
    lower (measure p.instantiate.1) (measure p) ∨
      measure p.instantiate.1 = measure p ∧ p.instantiate.1.pending = p.pending ∧
        p.instantiate.2 ≠ .ok true := by
  have hreport := leads_report p (.obligations p.obligations.length)
  have hsame : measure (p.report (.obligations p.obligations.length)) = measure p :=
    (hdeclines p (.refl p)).noted _ rfl rfl rfl rfl
  rw [← hsame]
  rcases discharge_cases (hreport.coherent hp) p.obligations with
    ⟨hnone, heffect⟩ | ⟨leaf, hcons, hcommits⟩
  · have hpending : p.instantiate.1.pending =
        (p.report (.obligations p.obligations.length)).pending :=
      congrArg Prover.pending hnone
    exact Or.inr ⟨congrArg measure hnone, hpending, heffect⟩
  · exact Or.inl (hcommits.measure_lt htrans (hreport.coherent hp)
      (fun r hr => hdeclines r (hreport.trans hr)) hcons)

end Rounds

end Prover

/-- The stages of a round, counted from its end. -/
def Stage.rank : Stage → Nat
  | .entering .saturate => 5
  | .saturating => 4
  | .entering .close => 3
  | .entering .instantiate => 2
  | .entering .branch => 1
  | .entering (.complete _) | .done _ | .failed _ => 0

namespace Search

variable {α : Type} {lower : α → α → Prop} {measure : Prover → α} {s : Search}

/-- What is left of a search: its measure, its pending inferences and the stages of the
round. -/
def remaining (measure : Prover → α) (s : Search) : α × Nat × Nat :=
  (measure s.prover, s.prover.pending.length, s.stage.rank)

/-- Less is left: the first that differs is lower. -/
def Less (lower : α → α → Prop) (measure : Prover → α) : Search → Search → Prop :=
  InvImage (Prod.Lex lower (Prod.Lex (· < ·) (· < ·))) (remaining measure)

theorem wellFounded_less (hwf : WellFounded lower) (measure : Prover → α) :
    WellFounded (Less lower measure) :=
  InvImage.wf _ (hwf.prod_lex (Nat.lt_wfRel.wf.prod_lex Nat.lt_wfRel.wf))

theorem less_of_lower {s' : Search} (h : lower (measure s'.prover) (measure s.prover)) :
    Less lower measure s' s :=
  Prod.Lex.left _ _ h

theorem less_of_pending_lt {s' : Search}
    (hmeasure : lower (measure s'.prover) (measure s.prover) ∨ measure s'.prover = measure s.prover)
    (hpending : s'.prover.pending.length < s.prover.pending.length) : Less lower measure s' s := by
  rcases hmeasure with hlower | hsame
  · exact less_of_lower hlower
  · exact Prod.lex_iff.mpr (Or.inr ⟨hsame, Prod.Lex.left _ _ hpending⟩)

theorem less_of_rank_lt {s' : Search}
    (hmeasure : lower (measure s'.prover) (measure s.prover) ∨ measure s'.prover = measure s.prover)
    (hpending : s'.prover.pending.length ≤ s.prover.pending.length)
    (hrank : s'.stage.rank < s.stage.rank) :
    Less lower measure s' s := by
  rcases Nat.lt_or_eq_of_le hpending with hlt | heq
  · exact less_of_pending_lt hmeasure hlt
  · rcases hmeasure with hlower | hsame
    · exact less_of_lower hlower
    · exact Prod.lex_iff.mpr (Or.inr ⟨hsame, Prod.lex_iff.mpr (Or.inr ⟨heq, hrank⟩)⟩)

section Step

variable (htrans : ∀ a b c : α, lower a b → lower b c → lower a c) (hp : s.prover.Coherent)
  (hdeclines : ∀ r, Prover.Leads s.prover r → r.Declines lower measure)
include htrans hp hdeclines

theorem less_perform {phase : Phase} (hstage : s.stage = .entering phase) (elapsed : Nat)
    (hover : (s.perform elapsed phase).isOver = false) :
    Less lower measure (s.perform elapsed phase) s := by
  have hhere := hdeclines s.prover (.refl _)
  cases phase with
  | saturate =>
      simp only [perform]
      split
      · exact less_of_rank_lt (Or.inr (hhere.noted _ rfl rfl rfl rfl)) (Nat.le_refl _)
          (by simp [hstage, Stage.rank])
      · exact less_of_rank_lt (Or.inr rfl) (Nat.le_refl _) (by simp [hstage, Stage.rank])
  | close =>
      have hpending : s.prover.close.pending.length ≤ s.prover.pending.length := by
        have hsame := (Prover.foldl_recordClosure (s.prover.conflicts.filterMap (·.2)) s.prover).2.2
        change (List.filter _ (List.foldl Prover.recordClosure s.prover _).pending).length ≤ _
        rw [hsame]
        exact List.length_filter_le ..
      refine less_of_rank_lt hhere.close hpending ?_
      simp only [perform, hstage]
      split
      · simp [Stage.rank]
      · split <;> simp [Stage.rank]
  | instantiate =>
      have hround := Prover.measure_instantiate_le htrans hp hdeclines
      simp only [perform] at hover ⊢
      split at hover
      · next heq =>
          rw [heq] at hround
          rcases hround with hlower | ⟨-, -, hnone⟩
          · exact less_of_lower hlower
          · contradiction
      · next heq =>
          rw [heq] at hround
          rcases hround with hlower | ⟨hsame, hpending, -⟩
          · exact less_of_lower hlower
          · exact less_of_rank_lt (Or.inr hsame) (Nat.le_of_eq (congrArg List.length hpending))
              (by simp [hstage, Stage.rank])
      · simp [isOver] at hover
  | branch =>
      simp only [perform]
      split
      · exact less_of_rank_lt (Or.inr rfl) (Nat.le_refl _) (by simp [hstage, Stage.rank])
      · split
        · next hcommit =>
            obtain ⟨inf, created, hperm, -⟩ := Prover.commitBranch?_eq_some hp hcommit
            refine less_of_pending_lt (hhere.expand _ hcommit) ?_
            rw [hperm.length_eq]
            exact Nat.lt_succ_self _
        · exact less_of_rank_lt (Or.inr rfl) (Nat.le_refl _) (by simp [hstage, Stage.rank])
  | complete verdict => simp [perform, isOver] at hover

/-- Every step after which the search goes on leaves less. -/
theorem less_step (elapsed : Nat) (hmore : (step elapsed s).2 = true) :
    Less lower measure (step elapsed s).1 s := by
  have hover : (step elapsed s).1.isOver = false := by simpa [step] using hmore
  cases hstage : s.stage with
  | done | failed =>
      have hs : s.isOver = true := by simp [isOver, hstage]
      rw [step_of_isOver hs, hs] at hover
      contradiction
  | saturating =>
      rw [step_saturating hstage]
      cases hreport : s.prover.saturate.2 with
      | true => exact less_of_lower (Prover.measure_saturate_lt htrans hp hdeclines hreport)
      | false =>
          have hsame := (Prover.each_fire_of_false hreport).1
          have hround : s.prover.saturate.1 = { s.prover with
              statistics.rounds := s.prover.statistics.rounds + 1 } := by
            unfold Prover.saturate
            simp only [hsame]
          refine less_of_rank_lt (Or.inr ?_) (Nat.le_of_eq ?_) (by simp [hstage, Stage.rank])
          · simp only [hround]
            exact (hdeclines s.prover (.refl _)).noted _ rfl rfl rfl rfl
          · simp only [hround]
  | entering phase =>
      have hreport := Prover.leads_report s.prover (.entered phase s.prover.openLeaves.length)
      have hsame : measure (s.entered phase).prover = measure s.prover :=
        (hdeclines s.prover (.refl _)).noted _ rfl rfl rfl rfl
      have hless : Less lower measure (step elapsed s).1 (s.entered phase) := by
        rw [step_entering hstage] at hover ⊢
        exact less_perform (s := s.entered phase) htrans (hreport.coherent hp)
          (fun r hr => hdeclines r (hreport.trans hr)) hstage elapsed hover
      unfold Less InvImage remaining at hless ⊢
      rw [hsame] at hless
      exact hless

end Step

end Search

namespace Prover

variable {lexicon : Lexicon} {premises goals : List Sentence} {options : Options}

/-- A search ends if a measure declines in all its states. -/
theorem exists_prove?_of_declines {α : Type} {lower : α → α → Prop} {measure : Prover → α}
    (hwf : WellFounded lower) (htrans : ∀ a b c : α, lower a b → lower b c → lower a c)
    (hdeclines : ∀ p, Leads (start lexicon premises goals options) p → p.Declines lower measure) :
    ∃ result enough, ∀ fuel ≥ enough,
      (start lexicon premises goals options).prove? fuel = some result := by
  have hkeeps : ∀ s, (start lexicon premises goals options).Reaches s →
      (start lexicon premises goals options).Reaches (Search.step instant s).1 :=
    fun _ hs => hs.step instant
  have hless : ∀ s, (start lexicon premises goals options).Reaches s →
      (Search.step instant s).2 = true → Search.Less lower measure (Search.step instant s).1 s := by
    intro s hs hmore
    refine Search.less_step htrans hs.coherent (fun r hr => ?_) instant hmore
    exact hdeclines r ((hs.leads coherent_start).trans hr)
  obtain ⟨last, enough, hlast⟩ :=
    Update.exists_untilStableFrom (Search.wellFounded_less hwf measure) hkeeps hless .first 1
  refine ⟨last.1.finish, enough, fun fuel hfuel => ?_⟩
  unfold prove? Update.untilStable
  rw [hlast fuel hfuel]
  rfl

end Prover

end Tableau
