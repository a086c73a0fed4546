/-
Declared sorts.  A constant has the sort that it is declared with anywhere in a text, but a
function has the sort that it is declared with before the formula that it stands in: if it is
used first and declared later, the same words mean different sentences before and after.  A
function without arguments is a constant, and its declaration gives it no sort at all.
-/
import Mathlib.Data.List.Forall2
import Tableau.Proofs.Declaration
import Tableau.Proofs.PremiseOrder

namespace Tableau

namespace SExpr

/-- What a section of the given kind holds; other sections hold nothing of the kind. -/
def holding (kind : SectionKind) (e : SExpr) : List SExpr :=
  match e.asSection? with
  | some (found, body) => if found = kind then body else []
  | none => []

theorem holding_of_asSection? {e : SExpr} {kind : SectionKind} {body : List SExpr}
    (h : e.asSection? = some (kind, body)) (kind' : SectionKind) :
    e.holding kind' = if kind = kind' then body else [] := by
  simp [holding, h]

end SExpr

namespace Reader

variable {r r' R : Reader} {e : SExpr} {es before rest sections : List SExpr} {kind : TermKind}
  {name : String} {sort : SortId} {problem problem' : Problem} {s : Sentence} {xs : List Sentence}

/-- All declarations in a list of sections. -/
def declarationsOf (sections : List SExpr) : List SExpr :=
  sections.flatMap (·.holding .declarations)

/-- A formula of a text, with the sections before its own. -/
structure Written where
  before : List SExpr
  formula : SExpr

/-- The formulas in the sections of one kind, when some sections are past. -/
def written (kind : SectionKind) (before : List SExpr) : (sections : List SExpr) → List Written
  | [] => []
  | e :: rest => (e.holding kind).map (⟨before, ·⟩) ++ written kind (before ++ [e]) rest

/-- A formula has been read as a sentence when the declarations before it had been read, and
sorts and constants have been kept since. -/
def IsReadAs (R : Reader) (w : Written) (s : Sentence) : Prop :=
  ∃ q q', Yields .formula [] [w.formula] q [s] q' ∧ q'.Records (declarationsOf w.before) ∧
    KeepsSorts q' R

theorem Records.isReadAs (h : r.Records (declarationsOf before))
    (hread : Yields .formula [] es r xs r')
    (hkeeps : KeepsSorts r' R) : List.Forall₂ (IsReadAs R) (es.map (⟨before, ·⟩)) xs := by
  induction es generalizing r xs with
  | nil =>
      obtain ⟨rfl, -⟩ := succeeds_readAll_nil_iff.mp (yields_iff.mp hread)
      exact .nil
  | cons e es ih =>
      obtain ⟨s, mid, ys, he, hes, rfl⟩ := yields_cons_iff.mp hread
      have hmid := h.mono he.growsTo.lags
      exact .cons ⟨r, mid, he, hmid, hes.steps.keepsSorts.trans hkeeps⟩ (ih hmid hes)

theorem declarationsOf_append (sections : List SExpr) (e : SExpr) :
    declarationsOf (sections ++ [e]) = declarationsOf sections ++ e.holding .declarations := by
  simp [declarationsOf]

/-- One section: its declarations are recorded, and its formulas are read with those before it. -/
theorem Records.readSection (h : r.Records (declarationsOf before))
    (hadds : AddsSection problem r e problem' r') :
    r'.Records (declarationsOf (before ++ [e])) ∧ KeepsSorts r r' ∧
      ∃ ps gs, problem' = ⟨problem.premises ++ ps, problem.goals ++ gs⟩ ∧
        ∀ R, KeepsSorts r' R →
          List.Forall₂ (IsReadAs R) ((e.holding .premises).map (⟨before, ·⟩)) ps ∧
          List.Forall₂ (IsReadAs R) ((e.holding .goals).map (⟨before, ·⟩)) gs := by
  rw [declarationsOf_append]
  cases hadds with
  | @declarations body _ hsection hread =>
      simp only [SExpr.holding_of_asSection? hsection]
      have hsteps := (proceeds_declarations body r).steps_of_succeeds hread
      exact ⟨h.declarations hread, hsteps.keepsSorts, [], [], by simp, fun R _ => ⟨.nil, .nil⟩⟩
  | @premises _ xs _ hsection hxs =>
      simp only [SExpr.holding_of_asSection? hsection]
      refine ⟨?_, hxs.steps.keepsSorts, xs, [], by simp, fun R hR => ⟨h.isReadAs hxs hR, .nil⟩⟩
      simpa using h.mono hxs.growsTo.lags
  | @goals _ xs _ hsection hxs =>
      simp only [SExpr.holding_of_asSection? hsection]
      refine ⟨?_, hxs.steps.keepsSorts, [], xs, by simp, fun R hR => ⟨.nil, h.isReadAs hxs hR⟩⟩
      simpa using h.mono hxs.growsTo.lags

/-- All sections, by induction on them: what has been recorded so far is known before each. -/
theorem Records.readSections (h : r.Records (declarationsOf before))
    (hread : Succeeds (readSections problem rest) r problem' r') :
    r'.Records (declarationsOf (before ++ rest)) ∧ KeepsSorts r r' ∧
      ∃ ps gs, problem' = ⟨problem.premises ++ ps, problem.goals ++ gs⟩ ∧
        List.Forall₂ (IsReadAs r') (written .premises before rest) ps ∧
        List.Forall₂ (IsReadAs r') (written .goals before rest) gs := by
  induction rest generalizing r before problem with
  | nil =>
      obtain ⟨rfl, rfl⟩ := Succeeds.pure_iff.mp hread
      exact ⟨by rwa [List.append_nil], .refl _, [], [], by simp, .nil, .nil⟩
  | cons e rest ih =>
      obtain ⟨problem₁, mid, hfirst, hrest⟩ := Succeeds.bind_iff.mp hread
      obtain ⟨hmid, hkeeps, ps, gs, rfl, hreadAs⟩ := h.readSection (addsSection_of_succeeds hfirst)
      obtain ⟨hrecords, hkeeps', ps', gs', rfl, hps', hgs'⟩ := ih hmid hrest
      obtain ⟨hps, hgs⟩ := hreadAs r' hkeeps'
      rw [List.append_assoc] at hrecords
      exact ⟨hrecords, hkeeps.trans hkeeps', ps ++ ps', gs ++ gs', by simp,
        List.rel_append hps hps', List.rel_append hgs hgs'⟩

/-! What sentences mean by the declarations. -/

/-- The sorts of names by the declarations: of constants by those in all sections of a text,
of functions by those in some sections. -/
def vocabulary (sorts : Sorts) (sections before : List SExpr) : Vocabulary where
  sorts
  sortOf
    | .constant => sorts.declaredSort (declared .constant (declarationsOf sections))
    | .function => sorts.declaredSort (declared .function (declarationsOf before))

/-- A sentence is what a formula of a text means, by the declarations of the text. -/
structure Means (sorts : Sorts) (sections : List SExpr) (w : Written) (s : Sentence) : Prop where
  denotes : (vocabulary sorts sections w.before).formula? [] w.formula = some s
  constants : ∀ name sort, .const name sort ∈ s.subsentences →
    sort = sorts.declaredSort (declared .constant (declarationsOf sections)) name
  functions : ∀ name sort xs, .app name sort xs ∈ s.subsentences →
    sort = sorts.declaredSort (declared .function (declarationsOf w.before)) name
  /-- A function that is not declared later has the sort that the whole text gives it. -/
  declared_before : ∀ name sort xs, .app name sort xs ∈ s.subsentences →
    (∀ result, (name, result) ∈ declared .function (declarationsOf sections) →
      (name, result) ∈ declared .function (declarationsOf w.before)) →
    sort = sorts.declaredSort (declared .function (declarationsOf sections)) name
  /-- If this is so of all its functions, the formula means the same at any place of the text. -/
  anywhere_iff : (vocabulary sorts sections sections).formula? [] w.formula = some s ↔
    ∀ name sort xs, .app name sort xs ∈ s.subsentences →
      sort = sorts.declaredSort (declared .function (declarationsOf sections)) name

variable {w : Written}

theorem declared_subset (h : before <+: sections) :
    declared kind (declarationsOf before) ⊆ declared kind (declarationsOf sections) := by
  obtain ⟨later, rfl⟩ := h
  rw [declarationsOf, declarationsOf, List.flatMap_append, declared, declared,
    List.filterMap_append]
  exact List.subset_append_left ..

theorem before_of_mem_written {kind : SectionKind} (h : w ∈ written kind before rest) :
    w.before <+: before ++ rest := by
  induction rest generalizing before with
  | nil => contradiction
  | cons e rest ih =>
      rcases List.mem_append.mp h with hfirst | hrest
      · obtain ⟨formula, -, rfl⟩ := List.mem_map.mp hfirst
        exact List.prefix_append ..
      · have hlater := ih hrest
        rwa [List.append_assoc] at hlater

namespace IsReadAs

variable (h : R.IsReadAs w s)
include h

theorem gives_constant (hR : R.Records (declarationsOf sections))
    (hmem : .const name sort ∈ s.subsentences) :
    R.lexicon.sorts.Gives (declared .constant (declarationsOf sections)) name sort := by
  obtain ⟨q, q', hread, -, hkeeps⟩ := h
  have hknown : q'.constants.lookup name = some sort :=
    hread.supports isNamed_nil s List.mem_cons_self _ hmem
  exact hR.sortOf? .constant name sort (hkeeps.constants name sort hknown)

theorem gives_function {xs : List Sentence} (hmem : .app name sort xs ∈ s.subsentences) :
    R.lexicon.sorts.Gives (declared .function (declarationsOf w.before)) name sort := by
  obtain ⟨q, q', hread, hrecords, hkeeps⟩ := h
  obtain ⟨sig, haccepts, rfl⟩ := hread.supports isNamed_nil s List.mem_cons_self _ hmem
  have hknown : q'.sortOf? .function name = some sig.result :=
    Option.map_eq_some_iff.mpr ⟨sig, haccepts.known, rfl⟩
  exact (hrecords.sortOf? .function name sig.result hknown).mono hkeeps.sorts

theorem formula?_eq_iff (hR : R.Records (declarationsOf sections)) (before : List SExpr) :
    (vocabulary R.lexicon.sorts sections before).formula? [] w.formula = some s ↔
      ∀ name sort xs, .app name sort xs ∈ s.subsentences →
        sort = R.lexicon.sorts.declaredSort (declared .function (declarationsOf before)) name := by
  have hconstants : ∀ name sort, .const name sort ∈ s.subsentences →
      (vocabulary R.lexicon.sorts sections before).sortOf .constant name = sort :=
    fun name sort hmem => (h.gives_constant hR hmem).declaredSort_eq
  obtain ⟨q, q', hread, -, hkeeps⟩ := h
  have hknows : (vocabulary R.lexicon.sorts sections before).Knows q.lexicon.sorts :=
    (hread.steps.keepsSorts.trans hkeeps).sorts
  rw [hread.formula?_eq_iff hknows, Vocabulary.fits_iff_names, and_iff_right hconstants]
  simp only [vocabulary, eq_comm]

/-- Declarations in later sections do not matter if they are of other names. -/
theorem means (hR : R.Records (declarationsOf sections)) (hbefore : w.before <+: sections) :
    Means R.lexicon.sorts sections w s := by
  have hfunctions : ∀ name sort xs, .app name sort xs ∈ s.subsentences →
      sort = R.lexicon.sorts.declaredSort (declared .function (declarationsOf w.before)) name :=
    fun name sort xs hmem => (h.gives_function hmem).declaredSort_eq.symm
  refine ⟨(h.formula?_eq_iff hR w.before).mpr hfunctions, ?_, hfunctions, ?_,
    h.formula?_eq_iff hR sections⟩
  · exact fun name sort hmem => (h.gives_constant hR hmem).declaredSort_eq.symm
  · intro name sort xs hmem hearly
    have hgives := h.gives_function hmem
    have hall : R.lexicon.sorts.Gives (declared .function (declarationsOf sections)) name sort := by
      refine ⟨fun result hresult => hgives.declared result (hearly result hresult), fun hnone => ?_⟩
      exact hgives.undeclared fun result hresult => hnone result (declared_subset hbefore hresult)
    exact hall.declaredSort_eq.symm

end IsReadAs

theorem forall₂_means {kind : SectionKind} (hR : R.Records (declarationsOf sections))
    (h : List.Forall₂ (IsReadAs R) (written kind [] sections) xs) :
    List.Forall₂ (Means R.lexicon.sorts sections) (written kind [] sections) xs := by
  have hbefore : ∀ w ∈ written kind [] sections, w.before <+: sections :=
    fun _ hw => before_of_mem_written hw
  refine List.Forall₂.imp ?_ (List.forall₂_and_left _ _ |>.mpr ⟨hbefore, h⟩)
  rintro w s ⟨hw, hread⟩
  exact hread.means hR hw

end Reader

namespace Problem

open Reader

variable {lexicon lexicon' : Lexicon} {text : String} {problem : Problem}

/-- The sentences of a problem are what the formulas of its text mean.  Constants have the
sort that they are declared with anywhere in the text, and functions the sort that they are
declared with before the section of the formula; all declarations of a name agree. -/
theorem means_of_read (hread : read lexicon text = (.ok problem, lexicon')) :
    ∃ sections, SExpr.read text = .ok sections ∧
      (∀ kind name result, (name, result) ∈ declared kind (declarationsOf sections) →
        lexicon'.sorts.resolve? result =
          some (lexicon'.sorts.declaredSort (declared kind (declarationsOf sections)) name)) ∧
      List.Forall₂ (Means lexicon'.sorts sections)
        (written .premises [] sections) problem.premises ∧
      List.Forall₂ (Means lexicon'.sorts sections) (written .goals [] sections) problem.goals := by
  obtain ⟨sections, R, htext, hrun, rfl⟩ := exists_succeeds_of_read hread
  have hempty : Records { lexicon } (declarationsOf []) :=
    ⟨fun kind name sort hsort => by cases kind <;> contradiction,
      fun _ _ hmem => (List.not_mem_nil hmem).elim, fun _ _ hmem => (List.not_mem_nil hmem).elim⟩
  obtain ⟨hrecords, -, ps, gs, rfl, hps, hgs⟩ := hempty.readSections hrun
  rw [List.nil_append] at hrecords
  refine ⟨sections, htext, fun kind name result hmem => ?_, forall₂_means hrecords hps,
    forall₂_means hrecords hgs⟩
  obtain ⟨sort, hsort⟩ := hrecords.exists_sortOf? hmem
  have hgives := hrecords.sortOf? kind name sort hsort
  rw [hgives.declaredSort_eq]
  exact hgives.declared result hmem

/-- One function is declared before its use and one after it, and a constant twice. -/
theorem means_of_read_instance :
    let text := "(declarations (sort s) (constant c s) (function f (s) s))
(premises (P (f c) (g c)))
(declarations (constant c s) (function g (s) s))
(goals (exists (x s) (Q (f x) (g c))))"
    let c := Sentence.const "c" 1
    let x := Sentence.var "x" 1
    ∃ problem lexicon' sections, read {} text = (.ok problem, lexicon') ∧
      problem.premises = [.pred "P" [.app "f" 1 [c], .app "g" 0 [c]]] ∧
      problem.goals = [.ex x (.pred "Q" [.app "f" 1 [x], .app "g" 1 [c]])] ∧
      SExpr.read text = .ok sections ∧
      List.Forall₂ (Means lexicon'.sorts sections)
        (written .premises [] sections) problem.premises ∧
      List.Forall₂ (Means lexicon'.sorts sections) (written .goals [] sections) problem.goals := by
  intro text c x
  obtain ⟨problem, lexicon', hread, htest⟩ := exists_read_of_any {} text
    (fun problem _ => decide (problem.premises = [.pred "P" [.app "f" 1 [c], .app "g" 0 [c]]] ∧
      problem.goals = [.ex x (.pred "Q" [.app "f" 1 [x], .app "g" 1 [c]])])) (by decide +kernel)
  obtain ⟨hpremises, hgoals⟩ := of_decide_eq_true htest
  obtain ⟨sections, htext, -, hmeans⟩ := means_of_read hread
  exact ⟨problem, lexicon', sections, hread, hpremises, hgoals, htext, hmeans⟩

/-- The same formula means two sentences, because a function in it is declared between them;
and a function without arguments does not have the sort that it is declared with. -/
theorem not_declaredSort_of_read :
    let text := "(declarations (sort S) (function c () S)) (premises (P (f c)))
(declarations (function f (OBJECT) S)) (premises (P (f c)))"
    let p : SExpr := .list [.symbol "P", .list [.symbol "f", .symbol "c"]]
    ∃ problem lexicon' sections, read {} text = (.ok problem, lexicon') ∧
      SExpr.read text = .ok sections ∧ (written .premises [] sections).map (·.formula) = [p, p] ∧
      declared .function (declarationsOf sections) = [("c", some "S"), ("f", some "S")] ∧
      lexicon'.sorts.find? "S" = some 1 ∧
      problem.premises = [.pred "P" [.app "f" SortId.object [.const "c" SortId.object]],
        .pred "P" [.app "f" 1 [.const "c" SortId.object]]] := by
  intro text p
  obtain ⟨problem, lexicon', hread, htest⟩ := exists_read_of_any {} text
    (fun problem lexicon' => decide (lexicon'.sorts.find? "S" = some 1 ∧
      problem.premises = [.pred "P" [.app "f" SortId.object [.const "c" SortId.object]],
        .pred "P" [.app "f" 1 [.const "c" SortId.object]]])) (by decide +kernel)
  obtain ⟨hsort, hpremises⟩ := of_decide_eq_true htest
  have htext : SExpr.read text = .ok
      [.list [.symbol "declarations", .list [.symbol "sort", .symbol "S"],
          .list [.symbol "function", .symbol "c", .list [], .symbol "S"]],
        .list [.symbol "premises", p],
        .list [.symbol "declarations",
          .list [.symbol "function", .symbol "f", .list [.symbol "OBJECT"], .symbol "S"]],
        .list [.symbol "premises", p]] := SExpr.read_of_tokens (by decide +kernel)
  have hdeclarations : Text.lowercase "declarations" = "declarations" := by decide +kernel
  have hpremises' : Text.lowercase "premises" = "premises" := by decide +kernel
  refine ⟨problem, lexicon', _, hread, htext, ?_, by decide +kernel, hsort, hpremises⟩
  simp only [written, SExpr.holding, SExpr.asSection?, SectionKind.ofHead?,
    hdeclarations, hpremises']
  rfl

end Problem

end Tableau
