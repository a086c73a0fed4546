/-
Every obligation can be met.  The obligations of a round are collected first and
discharged one after the other, each on a tree that the earlier ones have changed.  What
is left to do for one sentence at one leaf is not done by any other: as long as the branch
is consistent, the sentence is neither marked nor instantiated, and it keeps its value.
-/
import Mathlib.Data.List.Nodup
import Tableau.Proofs.Applicability
import Tableau.Proofs.FirstOrder
import Tableau.Proofs.Search.Phase

namespace Tableau

namespace Rule

variable {lex lex' : Lexicon} {branch branch' : Branch} {k : Key}

/-- A quantified sentence still has something left to do on a branch that has grown and is
consistent, if it has been neither marked nor instantiated meanwhile. -/
theorem isOpenQuantifier_of_grows (h : isOpenQuantifier lex branch k = true)
    (hsorts : lex'.sorts = lex.sorts) (hcons : branch'.isConsistent = true)
    (hhas : ∀ k value, branch.has k value = true → branch'.has k value = true)
    (hinst : ∀ k, branch.instancesOf k ⊆ branch'.instancesOf k)
    (hmark : branch'.isDecomposed k = false)
    (hused : branch'.instancesOf k ⊆ branch.instancesOf k) :
    isOpenQuantifier lex' branch' k = true := by
  obtain ⟨-, hunmarked, value, hvalue⟩ := of_isOpenQuantifier h
  have hvalue' : branch'.models k = some value :=
    (Branch.models_eq_some hcons).mpr (hhas k value (Branch.has_of_models hvalue))
  unfold isOpenQuantifier isOpenAmong at h ⊢
  simp only [hunmarked, hmark, hvalue, hvalue', Bool.false_eq_true, if_false] at h ⊢
  split at h
  · next htrue =>
      obtain rfl := Option.some.inj htrue
      rcases isUnexhausted_iff.mp h with hnone | ⟨term, hterm, hnew⟩
      · exact isUnexhausted_iff.mpr (Or.inl (List.subset_nil.mp (hnone ▸ hused)))
      · refine isUnexhausted_iff.mpr (Or.inr ⟨term, ?_, fun hold => hnew (hused hold)⟩)
        obtain ⟨hvisible, hsorted⟩ := mem_candidates.mp hterm
        exact mem_candidates.mpr ⟨hvisible.mono hhas hinst, hsorts ▸ hsorted⟩
  · next hfalse =>
      obtain rfl := Option.some.inj hfalse
      rfl
  · rfl
  · contradiction

/-- The rule of a closed formula that has something left to do can be fired. -/
theorem exists_instantiate? {tree : Tree} {node : NodeId}
    (h : isOpenQuantifier lex (tree.branch node) k = true)
    (hclosed : k.sentence.isClosedFormula = true) (number : Nat) :
    ∃ r, instantiate? lex tree node k number = some r := by
  have hbinds : k.sentence.bindsVariable = true := by
    cases hk : k.sentence with
    | all binder body | ex binder body =>
        rw [hk] at hclosed
        exact (Bool.and_eq_true_iff.mp hclosed).1
    | _ => rfl
  rw [← Option.isSome_iff_exists, isSome_instantiate? hbinds]
  exact h

/-- No sentence is listed twice among those with something left to do. -/
theorem nodup_openQuantifiers (lex : Lexicon) (branch : Branch) :
    (openQuantifiers lex branch).Nodup := by
  unfold openQuantifiers
  split
  · exact List.nodup_nil
  · refine List.Nodup.filterMap ?_ ((branch.nodup_mappedWhere lex _).filter _)
    simp only [Option.mem_def, Option.map_eq_some_iff]
    rintro k k' fact ⟨value, -, rfl⟩ ⟨value', -, heq⟩
    exact (congrArg Fact.key heq).symm

end Rule

/-- The sentence of an obligation and the leaf where it arises. -/
def Obligation.site (ob : Obligation) : NodeId × Key := (ob.leaf, ob.fact.key)

namespace Prover

variable {p : Prover} {ob : Obligation}

/-- The obligations of a round are about different sentences or different leaves. -/
theorem nodup_obligations (hp : p.Coherent) : (p.obligations.map Obligation.site).Nodup := by
  have hnodup : p.obligations.Nodup := by
    unfold obligations Obligation.arrange
    refine (((perm_sortBy _ _).map Prod.fst).nodup_iff).mpr ?_
    rw [List.map_map]
    change (List.map id _).Nodup
    rw [List.map_id, List.nodup_flatMap]
    refine ⟨fun leaf _ => ?_, hp.nodup.imp fun hne => ?_⟩
    · exact (Rule.nodup_openQuantifiers ..).map fun _ _ heq => congrArg Obligation.fact heq
    · simp only [List.disjoint_left, List.mem_map]
      rintro _ ⟨fact, -, rfl⟩ ⟨fact', -, heq⟩
      exact hne (congrArg Obligation.leaf heq).symm
  -- the value of a sentence is that of the branch
  refine hnodup.map_on fun a ha b hb heq => ?_
  obtain ⟨hleaf, hkey⟩ := Prod.mk.inj heq
  have ha := (Rule.mem_openQuantifiers.mp (mem_obligations.mp ha).2).2
  have hb := (Rule.mem_openQuantifiers.mp (mem_obligations.mp hb).2).2
  rw [hleaf, hkey, hb, Option.some.injEq] at ha
  obtain ⟨⟨k, value⟩, leaf⟩ := a
  obtain ⟨⟨k', value'⟩, leaf'⟩ := b
  simp_all

/-- An obligation stands: its leaf is open, and its sentence has something left to do there
unless the branch has become inconsistent. -/
structure Stands (p : Prover) (ob : Obligation) : Prop where
  isOpen : ob.leaf ∈ p.openLeaves
  left : p.tree.isPathConsistent ob.leaf = true →
    Rule.isOpenQuantifier p.lexicon (p.tree.branch ob.leaf) ob.fact.key = true

theorem stands_of_mem_obligations (h : ob ∈ p.obligations) : p.Stands ob := by
  obtain ⟨hleaf, hfact⟩ := mem_obligations.mp h
  exact ⟨hleaf, fun _ => (Rule.mem_openQuantifiers.mp hfact).1⟩

section Commit

variable {leaf : NodeId} {k : Key} {value : Bool} {inf : Inference} {lex : Lexicon}
  (hp : p.Coherent) (hleaf : leaf ∈ p.openLeaves)
  (hfires : Rule.Fires p.lexicon p.tree leaf k value inf lex)
include hp hleaf hfires

/-- An obligation stands until its own rule is fired. -/
theorem Stands.commit (h : p.Stands ob) (hsite : ob.site ≠ (leaf, k)) :
    ({ p with lexicon := lex }.commit inf).Stands ob := by
  obtain ⟨added, htree, hmarks, hterms⟩ := exists_adds_commit hp hleaf hfires
  have hlt := hp.open_lt ob.leaf h.isOpen
  have hother : leaf ∈ p.tree.ancestry ob.leaf → ob.fact.key ≠ k := by
    intro hmem hkey
    have hsame := hp.tree.eq_of_childless (hp.childless leaf hleaf) hmem
    exact hsite (Prod.ext hsame.symm hkey)
  refine ⟨by rw [openLeaves_commit]; exact h.isOpen, fun hcons => ?_⟩
  have hcons' : p.tree.isPathConsistent ob.leaf = true := by
    refine Branch.isConsistent_iff.mpr fun k' v hv => ?_
    have hnone := Branch.isConsistent_iff.mp hcons k' v (htree.growsTo.has _ hlt _ _ hv)
    rw [← Bool.not_eq_true] at hnone ⊢
    exact fun hopposite => hnone (htree.growsTo.has _ hlt _ _ hopposite)
  have hopen := h.left hcons'
  obtain ⟨-, hunmarked, -⟩ := Rule.of_isOpenQuantifier hopen
  refine Rule.isOpenQuantifier_of_grows hopen ?_ hcons (htree.growsTo.has _ hlt)
    (htree.growsTo.instancesOf _ hlt) ?_ ?_
  · rw [lexicon_commit]
    exact hfires.grows.sorts
  · rw [← Bool.not_eq_true] at hunmarked ⊢
    intro hmark
    rcases (htree.isDecomposed ..).mp hmark with hold | ⟨hmem, hnew⟩
    · exact hunmarked hold
    · exact hother hmem (hmarks _ hnew)
  · intro term hterm
    rcases (htree.mem_instancesOf ..).mp hterm with hold | ⟨hmem, hnew⟩
    · exact hold
    · exact absurd (hterms _ _ hnew) (hother hmem)

end Commit

/-- An obligation stands whatever others have been discharged before it. -/
theorem Stands.discharge (hp : p.Coherent) (h : p.Stands ob) {others : List Obligation}
    (hsites : ∀ other ∈ others, other.site ≠ ob.site) : (p.discharge others).1.Stands ob := by
  induction others generalizing p with
  | nil => exact h
  | cons other rest ih =>
      have hrest := fun o ho => hsites o (List.mem_cons_of_mem other ho)
      unfold Prover.discharge
      split
      · exact ih hp h hrest
      · next hopen =>
          simp only [Bool.or_eq_true, not_or, Bool.not_eq_true', Bool.not_eq_false,
            List.contains_iff_mem] at hopen
          obtain ⟨hleaf, hcons⟩ := hopen
          split
          · exact h
          · next inf lexicon hinst =>
              obtain ⟨value, hfires⟩ :=
                Rule.fires_instantiate? (fun t => hp.isGroundTerm_of_visible) hcons hinst
              have hsite : ob.site ≠ (other.leaf, other.fact.key) :=
                (hsites other List.mem_cons_self).symm
              exact ih ((transition_commit hp hleaf hfires).coherent hp)
                (h.commit hp hleaf hfires hsite) hrest

/-- An obligation that comes up can be met: its leaf is open, and either its branch has
become inconsistent, so that it is skipped, or its rule can be fired. -/
def CanMeet (p : Prover) (ob : Obligation) : Prop :=
  ob.leaf ∈ p.openLeaves ∧ (p.tree.isPathConsistent ob.leaf = false ∨
    ∃ r, Rule.instantiate? p.lexicon p.tree ob.leaf ob.fact.key p.nextNumber = some r)

theorem Stands.canMeet (h : p.Stands ob) (hclosed : ob.fact.sentence.isClosedFormula = true) :
    p.CanMeet ob := by
  refine ⟨h.isOpen, ?_⟩
  cases hcons : p.tree.isPathConsistent ob.leaf with
  | false => exact Or.inl rfl
  | true => exact Or.inr (Rule.exists_instantiate? (h.left hcons) hclosed p.nextNumber)

/-- Obligations can be discharged if each can be met when it comes up. -/
theorem exists_discharge_eq_ok {obligations : List Obligation}
    (h : ∀ before ob after, obligations = before ++ ob :: after →
      (p.discharge before).1.CanMeet ob) :
    ∃ changed, (p.discharge obligations).2 = .ok changed := by
  induction obligations generalizing p with
  | nil => exact ⟨false, rfl⟩
  | cons ob rest ih =>
      obtain ⟨hleaf, hmeets⟩ : p.CanMeet ob := h [] ob rest rfl
      have hnext : ∀ before other after, rest = before ++ other :: after →
          (p.discharge (ob :: before)).1.CanMeet other :=
        fun before other after heq => h (ob :: before) other after (by rw [heq, List.cons_append])
      unfold discharge at hnext ⊢
      cases hcons : p.tree.isPathConsistent ob.leaf with
      | false =>
          simp only [hcons, Bool.not_false, Bool.or_true, if_true] at hnext ⊢
          exact ih hnext
      | true =>
          obtain ⟨⟨inf, lexicon⟩, hinst⟩ := hmeets.resolve_left (by simp [hcons])
          simp only [List.contains_iff_mem.mpr hleaf, hcons, Bool.not_true, Bool.or_self,
            Bool.false_eq_true, if_false, hinst] at hnext ⊢
          obtain ⟨changed, hchanged⟩ := ih hnext
          exact ⟨_, by rw [hchanged]; rfl⟩

/-- In a search for closed formulas every obligation of a round can be met when it comes
up. -/
theorem canMeet_discharge (hp : p.Coherent)
    (hclosed : p.Inherits (·.isClosedFormula = true) (·.isClosedTerm = true))
    {before after : List Obligation} (h : p.obligations = before ++ ob :: after) :
    ((p.report (.obligations p.obligations.length)).discharge before).1.CanMeet ob := by
  have hmem : ob ∈ p.obligations := by simp [h]
  have hsites : ∀ other ∈ before, other.site ≠ ob.site := by
    have hnodup := nodup_obligations hp
    rw [h, List.map_append, List.map_cons, List.nodup_append] at hnodup
    exact fun other hother =>
      hnodup.2.2 _ (List.mem_map_of_mem hother) _ List.mem_cons_self
  have hcoh := (leads_report p (.obligations p.obligations.length)).coherent hp
  have hstands : (p.report (.obligations p.obligations.length)).Stands ob :=
    ⟨(stands_of_mem_obligations hmem).isOpen, (stands_of_mem_obligations hmem).left⟩
  refine (hstands.discharge hcoh hsites).canMeet ?_
  have hvalue := (Rule.mem_openQuantifiers.mp (mem_obligations.mp hmem).2).2
  exact hclosed.has ob.leaf ob.fact.key ob.fact.value (Branch.has_of_models hvalue)

/-- Instantiation never fails in a search for closed formulas. -/
theorem exists_instantiate_eq_ok (hp : p.Coherent)
    (hclosed : p.Inherits (·.isClosedFormula = true) (·.isClosedTerm = true)) :
    ∃ changed, p.instantiate.2 = .ok changed :=
  exists_discharge_eq_ok fun _ _ _ => canMeet_discharge hp hclosed

end Prover

namespace Problem

variable {lexicon lexicon' : Lexicon} {text : String} {problem : Problem} {options : Options}

/-- Instantiation never fails in a search for a problem that has been read. -/
theorem exists_instantiate_eq_ok (hlexicon : lexicon.IsBuilt)
    (hread : read lexicon text = (.ok problem, lexicon')) {p : Prover}
    (hp : (Prover.start lexicon' problem.premises problem.goals options).Leads p) :
    ∃ changed, p.instantiate.2 = .ok changed := by
  obtain ⟨-, -, -, hclosed⟩ := inherits_isClosedFormula hlexicon hread hp
  exact Prover.exists_instantiate_eq_ok (Prover.Leads.coherent hp Prover.coherent_start) hclosed

theorem instantiate_ne_error (hlexicon : lexicon.IsBuilt)
    (hread : read lexicon text = (.ok problem, lexicon')) {p : Prover}
    (hp : (Prover.start lexicon' problem.premises problem.goals options).Leads p)
    (defect : Defect) : p.instantiate.2 ≠ .error defect := by
  obtain ⟨changed, hchanged⟩ := exists_instantiate_eq_ok hlexicon hread hp
  simp [hchanged]

/-- All along the searches for a problem that has been read, instantiation succeeds.  Each
of its obligations, when it comes up after those before it have been discharged, is skipped
because its branch has become inconsistent, or its rule can be fired.  So no search fails. -/
theorem canMeet_obligations_of_read (hlexicon : lexicon.IsBuilt)
    (hread : read lexicon text = (.ok problem, lexicon')) {s : Search}
    (hs : (Prover.start lexicon' problem.premises problem.goals options).Reaches s) :
    (∃ changed, s.prover.instantiate.2 = .ok changed) ∧
      (∀ before ob after, s.prover.obligations = before ++ ob :: after →
        ((s.prover.report (.obligations s.prover.obligations.length)).discharge before).1.CanMeet
          ob) ∧
      ∀ defect, s.stage ≠ .failed defect := by
  have hleads := hs.leads Prover.coherent_start
  obtain ⟨-, -, -, hclosed⟩ := inherits_isClosedFormula hlexicon hread hleads
  refine ⟨exists_instantiate_eq_ok hlexicon hread hleads, ?_, ?_⟩
  · exact fun _ _ _ h => Prover.canMeet_discharge hs.coherent hclosed h
  · exact hs.stage_ne_failed fun p hp => instantiate_ne_error hlexicon hread hp

/-- A text with two obligations, the first of which makes the branch inconsistent. -/
def refutedText : String :=
  "(declarations (sort S) (constant a S))
  (premises (forall x (P x)) (not (P a)) (exists (y S) (Q y)))"

theorem canMeet_obligations_of_read_refuted :
    ∃ problem lexicon', read {} refutedText = (.ok problem, lexicon') ∧ ∃ s,
      (Prover.start lexicon' problem.premises problem.goals {}).Reaches s ∧
        s.prover.obligations.length = 2 ∧ (∃ changed, s.prover.instantiate.2 = .ok changed) ∧
        ∀ before ob after, s.prover.obligations = before ++ ob :: after →
          ((s.prover.report (.obligations s.prover.obligations.length)).discharge before).1.CanMeet
            ob := by
  obtain ⟨problem, lexicon', hread, s, hs, htwo⟩ : ∃ problem lexicon',
      read {} refutedText = (.ok problem, lexicon') ∧ ∃ s,
        (Prover.start lexicon' problem.premises problem.goals {}).Reaches s ∧
          (s.prover.obligations.length == 2) = true :=
    exists_reaches_of_any {} refutedText {} 4 (by decide +kernel)
  obtain ⟨hok, hmeets, -⟩ := canMeet_obligations_of_read .empty hread hs
  exact ⟨problem, lexicon', hread, s, hs, beq_iff_eq.mp htwo, hok, hmeets⟩

end Problem

end Tableau
