/-
What reading a problem yields.  The premises and goals of a problem are closed formulas,
and they are entered in the lexicon, which keeps a hierarchy of sorts, the parts of all its
sentences and the names of all its constants.
-/
import Tableau.Proofs.Formula
import Tableau.Proofs.Knowledge
import Tableau.Proofs.Lineage
import Tableau.Proofs.Section

namespace Tableau

/-- Sorts form a hierarchy: there is a root, and every other sort comes after its
supersorts. -/
structure Sorts.IsHierarchy (sorts : Sorts) : Prop where
  rooted : 0 < sorts.size
  ancestral : Ancestral sorts.lineage

theorem Sorts.lt_size_of_find? {sorts : Sorts} {name : String} {sort : SortId}
    (h : sorts.find? name = some sort) : sort < sorts.size := by
  obtain ⟨hlt, -⟩ := List.findIdx?_eq_some_iff_getElem.mp h
  exact hlt

theorem Sorts.IsHierarchy.lt_size_of_resolve? {sorts : Sorts} (h : sorts.IsHierarchy)
    {name? : Option String} {sort : SortId} (hsort : sorts.resolve? name? = some sort) :
    sort < sorts.size := by
  cases name? with
  | none =>
      cases hsort
      exact h.rooted
  | some name => exact Sorts.lt_size_of_find? hsort

/-- A declaration keeps the hierarchy. -/
theorem Sorts.IsHierarchy.declare {sorts sorts' : Sorts} (h : sorts.IsHierarchy) {name : String}
    {parent sort : SortId} (hparent : parent < sorts.size)
    (hdeclare : sorts.declare name parent = .ok (sort, sorts')) : sorts'.IsHierarchy := by
  unfold Sorts.declare at hdeclare
  split at hdeclare
  · split at hdeclare
    · obtain ⟨-, rfl⟩ := Prod.mk.inj (Except.ok.inj hdeclare)
      exact h
    · contradiction
  · obtain ⟨-, rfl⟩ := Prod.mk.inj (Except.ok.inj hdeclare)
    have hold : ∀ i < sorts.size,
        (Sorts.mk (sorts.entries ++ [⟨name, sorts.ancestors parent⟩])).lineage i =
          sorts.lineage i := by
      intro i hi
      unfold lineage
      rw [List.getElem?_append_left hi]
    refine ⟨by simp [Sorts.size], fun i => ?_⟩
    by_cases hi : i < sorts.size
    · rw [hold i hi]
      rcases h.ancestral i with hnil | ⟨above, hlt, hcons⟩
      · exact Or.inl hnil
      · exact Or.inr ⟨above, hlt, by rw [hold above (Nat.lt_trans hlt hi), hcons]⟩
    · by_cases hnew : i = sorts.size
      · subst hnew
        refine Or.inr ⟨parent, hparent, ?_⟩
        rw [hold parent hparent]
        simp [lineage, size, ancestors]
      · left
        unfold lineage
        rw [List.getElem?_eq_none]
        simp only [List.length_append, List.length_cons, List.length_nil]
        unfold size at hi hnew
        omega

/-- A lexicon with a hierarchy of sorts, the parts of all its sentences and the names of all its
constants. -/
structure Lexicon.IsSound (lex : Lexicon) : Prop where
  hierarchy : lex.sorts.IsHierarchy
  isThorough : lex.IsThorough

theorem Lexicon.IsSound.declare {lex : Lexicon} (h : lex.IsSound) {name : String}
    {parent sort : SortId} {sorts : Sorts} (hparent : parent < lex.sorts.size)
    (hdeclare : lex.sorts.declare name parent = .ok (sort, sorts)) :
    IsSound { lex with sorts } where
  hierarchy := h.hierarchy.declare hparent hdeclare
  isThorough := ⟨h.isThorough.hasParts, h.isThorough.hasNames⟩

theorem Lexicon.IsSound.intern {lex : Lexicon} (h : lex.IsSound) (s : Sentence) :
    (lex.intern s).IsSound where
  hierarchy := by
    rw [sorts_intern]
    exact h.hierarchy
  isThorough := h.isThorough.intern s

namespace Reader

variable {r r' : Reader} {category : Category} {scope : Scope} {es : List SExpr} {s : Sentence}
  {xs : List Sentence}

/-! What every step keeps. -/

theorem Step.isSound (h : Step r r') (hr : r.lexicon.IsSound) : r'.lexicon.IsSound := by
  cases h with
  | enter s => exact hr.intern s
  | addConstant => exact hr
  | addSymbol => rwa [lexicon_addSymbol]
  | declareSort hparent hdeclare =>
      exact hr.declare (hr.hierarchy.lt_size_of_resolve? hparent) hdeclare

theorem Step.entries_extend (h : Step r r') : r.lexicon.entries <+: r'.lexicon.entries := by
  cases h with
  | enter s => exact r.lexicon.extends_intern s
  | addConstant | declareSort => exact List.prefix_rfl
  | addSymbol => simp

theorem Steps.isSound (h : Steps r r') (hr : r.lexicon.IsSound) : r'.lexicon.IsSound :=
  h.keeps (P := (·.lexicon.IsSound)) (fun _ _ hstep => hstep.isSound) hr

theorem Steps.entries_extend (h : Steps r r') : r.lexicon.entries <+: r'.lexicon.entries :=
  h.keeps (P := (r.lexicon.entries <+: ·.lexicon.entries))
    (fun _ _ hstep hq => hq.trans hstep.entries_extend) List.prefix_rfl

/-! What is read is a term or a formula of its scope. -/

/-- The variables of a scope, which are what its names stand for. -/
def vars (scope : Scope) : List Sentence := scope.map (·.2)

theorem mem_vars_of_lookup {name : String} {var : Sentence} (h : scope.lookup name = some var) :
    var ∈ vars scope := by
  obtain ⟨before, after, heq, -⟩ := List.lookup_eq_some_iff.mp h
  simp [vars, heq]

/-- A sentence is a term or a formula, with its free variables in scope. -/
def Category.Fits : Category → Scope → Sentence → Prop
  | .term, scope, s => s.isTermIn (vars scope) = true
  | .formula, scope, s => s.isFormulaIn (vars scope) = true

theorem fits_of_connect? {keyword : Keyword} (h : keyword.connect? xs = some s)
    (hxs : ∀ x ∈ xs, Category.formula.Fits scope x) : Category.formula.Fits scope s := by
  unfold Keyword.connect? at h
  split at h
  · cases h
    have hx := hxs _ List.mem_cons_self
    exact hx
  · cases h
    exact Sentence.areFormulasIn_iff.mpr hxs
  · cases h
    exact Sentence.areFormulasIn_iff.mpr hxs
  · cases h
    exact Bool.and_eq_true_iff.mpr ⟨hxs _ (by simp), hxs _ (by simp)⟩
  · cases h
    exact Bool.and_eq_true_iff.mpr ⟨hxs _ (by simp), hxs _ (by simp)⟩
  · contradiction

theorem fits_of_quantify? {keyword : Keyword} {name : String} {v x : Sentence}
    (h : keyword.quantify? v x = some s) (hv : v.isVariable = true)
    (hx : Category.formula.Fits ((name, v) :: scope) x) : Category.formula.Fits scope s := by
  unfold Keyword.quantify? at h
  split at h
  · cases h
    exact Bool.and_eq_true_iff.mpr ⟨hv, hx⟩
  · cases h
    exact Bool.and_eq_true_iff.mpr ⟨hv, hx⟩
  · contradiction

theorem Yields.fits (h : Yields category scope es r xs r') (hscope : IsNamed scope) :
    ∀ x ∈ xs, category.Fits scope x := by
  induction h with
  | nil => simp
  | cons _ _ ihe ihes =>
      exact List.forall_mem_cons.mpr ⟨ihe hscope _ List.mem_cons_self, ihes hscope⟩
  | var hlookup =>
      obtain ⟨sort, rfl⟩ := hscope _ _ hlookup
      refine List.forall_mem_singleton.mpr (List.contains_iff_mem.mpr ?_)
      exact mem_vars_of_lookup hlookup
  | const | atom => exact List.forall_mem_singleton.mpr rfl
  | app _ _ _ ih | pred _ _ _ _ ih | equal _ _ _ ih =>
      exact List.forall_mem_singleton.mpr (Sentence.areTermsIn_iff.mpr (ih hscope))
  | connective _ _ hs ih =>
      exact List.forall_mem_singleton.mpr (fits_of_connect? hs (ih hscope))
  | quantifier _ hbinds _ hs ih =>
      have hbody := ih (hscope.cons hbinds) _ List.mem_cons_self
      obtain ⟨sort, rfl⟩ := hbinds.exists_var
      exact List.forall_mem_singleton.mpr (fits_of_quantify? hs rfl hbody)

/-- Formulas that have been read are entered. -/
theorem Yields.mem_entries (h : Yields category scope es r xs r') (hformula : category = .formula) :
    ∀ x ∈ xs, x ∈ r'.lexicon.entries := by
  have hentered : ∀ (q : Reader) x, x ∈ (q.enter x).lexicon.entries :=
    fun q x => q.lexicon.mem_entries_intern x
  induction h with
  | nil => simp
  | cons _ hes ihe ihes =>
      have hfirst := hes.growsTo.entries (ihe hformula _ List.mem_cons_self)
      exact List.forall_mem_cons.mpr ⟨hfirst, ihes hformula⟩
  | var | const | app => contradiction
  | atom | pred | equal | connective | quantifier =>
      exact List.forall_mem_singleton.mpr (hentered _ _)

/-! Problems. -/

/-- All premises and goals are closed formulas that are entered in the lexicon. -/
def IsEnteredProblem (problem : Problem) (lex : Lexicon) : Prop :=
  ∀ s ∈ problem.premises ++ problem.goals, s.isClosedFormula = true ∧ s ∈ lex.entries

end Reader

namespace Problem

variable {lexicon lexicon' : Lexicon} {text : String} {problem : Problem}

theorem isSound_read (h : lexicon.IsSound) (text : String) : (read lexicon text).2.IsSound := by
  obtain ⟨r', hsteps, hlexicon⟩ := exists_steps_read lexicon text
  exact hlexicon ▸ hsteps.isSound h

theorem isSound_of_read (h : lexicon.IsSound) {result : Except ReadError Problem}
    (hread : read lexicon text = (result, lexicon')) : lexicon'.IsSound := by
  have hsound := isSound_read h text
  rwa [hread] at hsound

/-- The sentences of a problem that has been read are closed formulas, and they are
entered in the lexicon. -/
theorem isEnteredProblem_of_read (hread : read lexicon text = (.ok problem, lexicon')) :
    Reader.IsEnteredProblem problem lexicon' := by
  obtain ⟨r', rfl, hentered⟩ := forall_sentences_of_read hread
    (P := fun r s => s.isClosedFormula = true ∧ s ∈ r.lexicon.entries)
    (fun es q xs q' hxs s hs => ⟨hxs.fits Reader.isNamed_nil s hs, hxs.mem_entries rfl s hs⟩)
    (fun q q' s hsteps hs => ⟨hs.1, hsteps.entries_extend.subset hs.2⟩)
  exact hentered

end Problem

/-- The lexicons that can be built: from an empty one, by declaring sorts, entering
sentences, minting constants and reading texts. -/
inductive Lexicon.IsBuilt : Lexicon → Prop where
  | empty : IsBuilt {}
  | declare {lex : Lexicon} {name : String} {parent sort : SortId} {sorts : Sorts} :
      IsBuilt lex → parent < lex.sorts.size → lex.sorts.declare name parent = .ok (sort, sorts) →
      IsBuilt { lex with sorts }
  | intern {lex : Lexicon} (s : Sentence) : IsBuilt lex → IsBuilt (lex.intern s)
  | mint {lex : Lexicon} (sort : SortId) : IsBuilt lex → IsBuilt (lex.mint sort).2
  | read {lex : Lexicon} (text : String) : IsBuilt lex → IsBuilt (Problem.read lex text).2

theorem Lexicon.IsBuilt.isSound {lex : Lexicon} (h : lex.IsBuilt) : lex.IsSound := by
  induction h with
  | empty =>
      refine ⟨⟨Nat.zero_lt_one, fun i => Or.inl ?_⟩, isThorough_empty {}⟩
      cases i <;> rfl
  | declare _ hparent hdeclare ih => exact ih.declare hparent hdeclare
  | intern s _ ih => exact ih.intern s
  | @mint lex sort _ ih =>
      exact ⟨(lex.growsTo_mint sort).sorts ▸ ih.hierarchy, ih.isThorough.mint sort⟩
  | read text _ ih => exact Problem.isSound_read ih text

end Tableau
