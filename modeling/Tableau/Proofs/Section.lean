/-
How sections are read.  A declaration changes the tables of the reader by one of four rules,
and a section declares or adds formulas to the premises or to the goals.  A text is read
section by section, and what has been read before a failure is kept.
-/
import Mathlib.Data.List.Forall2
import Mathlib.Tactic.Tauto
import Tableau.Proofs.Derivation

namespace Tableau

/-- What a section of a text holds. -/
inductive SectionKind where
  | declarations
  | premises
  | goals
deriving DecidableEq

def SectionKind.ofHead? (head : String) : Option SectionKind :=
  match Text.lowercase head with
  | "declarations" => some declarations
  | "premises" => some premises
  | "goal" | "goals" => some goals
  | _ => none

/-- The heads of the sections of a kind. -/
def SectionKind.heads : SectionKind → List String
  | declarations => ["declarations"]
  | premises => ["premises"]
  | goals => ["goal", "goals"]

theorem SectionKind.ofHead?_eq_some_iff {head : String} {kind : SectionKind} :
    ofHead? head = some kind ↔ Text.lowercase head ∈ kind.heads := by
  unfold ofHead?
  split
  · next h => cases kind <;> simp [heads, h]
  · next h => cases kind <;> simp [heads, h]
  · next h => cases kind <;> simp [heads, h]
  · next h => cases kind <;> simp [heads, h]
  · cases kind <;> simp_all [heads]

def SExpr.asSection? : SExpr → Option (SectionKind × List SExpr)
  | list (symbol head :: body) => (SectionKind.ofHead? head).map (·, body)
  | _ => none

theorem SExpr.asSection?_eq_some_iff {e : SExpr} {kind : SectionKind} {body : List SExpr} :
    e.asSection? = some (kind, body) ↔
      ∃ head, e = list (symbol head :: body) ∧ SectionKind.ofHead? head = some kind := by
  unfold asSection?
  split
  · next head rest =>
      rw [Option.map_eq_some_iff]
      constructor
      · rintro ⟨_, hhead, ⟨⟩⟩
        exact ⟨head, rfl, hhead⟩
      · rintro ⟨_, ⟨⟩, hhead⟩
        exact ⟨kind, hhead, rfl⟩
  · next hother =>
      refine iff_of_false (fun h => nomatch h) ?_
      rintro ⟨head, rfl, -⟩
      exact hother head body rfl

namespace Reader

variable {r r' : Reader} {e : SExpr} {es : List SExpr} {name : String} {u : Unit}

/-! Parts of declarations. -/

/-- A name that may be left out at the end of a declaration. -/
def trailing (name? : Option String) : List SExpr := name?.toList.map .symbol

/-- Expressions that are names of sorts. -/
def NameSorts (sorts : Sorts) : List SExpr → List SortId → Prop :=
  List.Forall₂ fun e sort => ∃ name, e = .symbol name ∧ sorts.find? name = some sort

theorem succeeds_sorts_iff {found : List SortId} :
    Succeeds (sorts es) r found r' ↔ NameSorts r.lexicon.sorts es found ∧ r' = r := by
  induction es generalizing found with
  | nil => simp [sorts, NameSorts]
  | cons e es ih =>
      cases e with
      | symbol name =>
          simp only [sorts, Succeeds.bind_iff, succeeds_sort_iff, Succeeds.pure_iff, NameSorts,
            List.forall₂_cons_left_iff]
          constructor
          · rintro ⟨sort, _, ⟨hsort, rfl⟩, rest, _, hrest, rfl, rfl⟩
            obtain ⟨hnames, rfl⟩ := ih.mp hrest
            exact ⟨⟨sort, rest, ⟨name, rfl, hsort⟩, hnames, rfl⟩, rfl⟩
          · rintro ⟨⟨sort, rest, ⟨_, ⟨⟩, hsort⟩, hnames, rfl⟩, rfl⟩
            exact ⟨sort, _, ⟨hsort, rfl⟩, rest, _, ih.mpr ⟨hnames, rfl⟩, rfl, rfl⟩
      | list xs =>
          refine iff_of_false Succeeds.throw_iff.mp ?_
          rintro ⟨hnames, -⟩
          obtain ⟨_, _, ⟨_, heq, -⟩, -⟩ := List.forall₂_cons_left_iff.mp hnames
          contradiction

theorem proceeds_sorts (es : List SExpr) (r : Reader) : Proceeds (sorts es) r := by
  induction es generalizing r with
  | nil => exact .pure _
  | cons e es ih =>
      cases e with
      | symbol name =>
          refine .bind (proceeds_sort name) fun _ mid _ => ?_
          exact .bind (ih mid) fun _ _ _ => .pure _
      | list xs => exact .throw _

theorem succeeds_resultSort_iff {sort : SortId} :
    Succeeds (resultSort e es) r sort r' ↔
      ∃ name?, es = trailing name? ∧ r.lexicon.sorts.resolve? name? = some sort ∧ r' = r := by
  unfold resultSort
  split
  · rw [Succeeds.pure_iff]
    constructor
    · rintro ⟨rfl, rfl⟩
      exact ⟨none, rfl, rfl, rfl⟩
    · rintro ⟨_ | _, ⟨⟩, hsort, rfl⟩
      exact ⟨(Option.some.inj hsort).symm, rfl⟩
  · next name =>
      rw [succeeds_sort_iff]
      constructor
      · rintro ⟨hsort, rfl⟩
        exact ⟨some name, rfl, hsort, rfl⟩
      · rintro ⟨_ | _, ⟨⟩, hsort, rfl⟩
        exact ⟨hsort, rfl⟩
  · next hnil hsymbol =>
      refine iff_of_false Succeeds.throw_iff.mp ?_
      rintro ⟨name?, hes, -⟩
      cases name? with
      | none => exact hnil hes
      | some name => exact hsymbol name hes

theorem proceeds_resultSort (e : SExpr) (es : List SExpr) : Proceeds (resultSort e es) r := by
  unfold resultSort
  split
  · exact .pure _
  · exact proceeds_sort _
  · exact .throw _

/-! What is declared. -/

theorem run_declareSort_of_ok {parent sort : SortId} {sorts : Sorts}
    (h : r.lexicon.sorts.declare name parent = .ok (sort, sorts)) :
    (declareSort name parent).run.run r = (.ok (), { r with lexicon.sorts := sorts }) := by
  unfold declareSort
  rw [run_get_bind, h]
  rfl

theorem run_declareSort_of_error {parent : SortId} {redeclared : Sorts.Redeclared}
    (h : r.lexicon.sorts.declare name parent = .error redeclared) :
    (declareSort name parent).run.run r = (.error (.sortRedeclared redeclared.name), r) := by
  unfold declareSort
  rw [run_get_bind, h]
  rfl

theorem succeeds_declareSort_iff {parent : SortId} :
    Succeeds (declareSort name parent) r u r' ↔
      ∃ sort sorts, r.lexicon.sorts.declare name parent = .ok (sort, sorts) ∧
        r' = { r with lexicon.sorts := sorts } := by
  constructor
  · intro h
    have hrun : (declareSort name parent).run.run r = (.ok u, r') := h
    cases hdeclare : r.lexicon.sorts.declare name parent with
    | ok found =>
        rw [run_declareSort_of_ok hdeclare] at hrun
        exact ⟨found.1, found.2, rfl, (congrArg Prod.snd hrun).symm⟩
    | error redeclared =>
        rw [run_declareSort_of_error hdeclare] at hrun
        cases congrArg Prod.fst hrun
  · rintro ⟨sort, sorts, hdeclare, rfl⟩
    exact run_declareSort_of_ok hdeclare

theorem proceeds_declareSort (name : String) (parentName : Option String) {parent : SortId}
    (hparent : r.lexicon.sorts.resolve? parentName = some parent) :
    Proceeds (declareSort name parent) r := by
  unfold Proceeds
  cases hdeclare : r.lexicon.sorts.declare name parent with
  | ok found =>
      rw [run_declareSort_of_ok hdeclare]
      exact .single (.declareSort hparent hdeclare)
  | error redeclared =>
      rw [run_declareSort_of_error hdeclare]

/-- A constant is declared for the first time, or again with the same sort. -/
theorem succeeds_declareConstant_iff {sort : SortId} :
    Succeeds (declareConstant name sort) r u r' ↔
      r.constants.lookup name = some sort ∧ r' = r.enter (.const name sort) ∨
      r.constants.lookup name = none ∧
        r' = (r.addConstant name sort).enter (.const name sort) := by
  unfold declareConstant
  rw [succeeds_get_bind]
  cases hlookup : r.constants.lookup name with
  | none => simp [succeeds_intern_iff]
  | some known =>
      by_cases hsame : known = sort
      · simp [hsame, succeeds_intern_iff]
      · simp [hsame]

theorem proceeds_declareConstant (name : String) (sort : SortId) :
    Proceeds (declareConstant name sort) r := by
  have hintern : ∀ q, Proceeds (discard (intern (.const name sort))) q :=
    fun _ => .discard (proceeds_intern _)
  unfold declareConstant
  refine .get_bind ?_
  simp only
  split
  · split
    · exact .throw_bind _
    · exact hintern r
  · next hnone => exact .bind (.update (.addConstant sort hnone)) fun _ mid _ => hintern mid

/-- A symbol may be declared after it has been used, with as many arguments. -/
def MayDeclare (r : Reader) (kind : SymbolKind) (name : String) (args : List SortId) : Prop :=
  ∀ known, (r.symbols kind).lookup name = some known →
    known.arity = args.length ∧ known.args = none

theorem succeeds_declareSymbol_iff {kind : SymbolKind} {args : List SortId} {result : SortId} :
    Succeeds (declareSymbol kind name args result) r u r' ↔
      r.MayDeclare kind name args ∧
        r' = r.addSymbol name { args := some args, arity := args.length, result } kind := by
  unfold declareSymbol MayDeclare
  rw [succeeds_get_bind]
  cases hlookup : (r.symbols kind).lookup name with
  | none => simp
  | some known =>
      by_cases harity : known.arity = args.length
      · cases hargs : known.args <;> simp [harity, hargs]
      · simp [harity]

theorem proceeds_declareSymbol (kind : SymbolKind) (name : String) (args : List SortId)
    (result : SortId) : Proceeds (declareSymbol kind name args result) r := by
  have hadd : r.MayDeclare kind name args → Proceeds (modify
      (·.addSymbol name { args := some args, arity := args.length, result } kind) :
        ReadM Unit) r :=
    fun hmay => .update (.addSymbol hmay)
  unfold declareSymbol
  refine .get_bind ?_
  simp only
  split
  · next known hknown =>
      split
      · exact .throw_bind _
      · next harity =>
          split
          · exact .throw_bind _
          · next hargs =>
              refine hadd fun known' hknown' => ?_
              obtain rfl := Option.some.inj (hknown.symm.trans hknown')
              exact ⟨Decidable.not_not.mp harity, by simpa using hargs⟩
  · next hnone => exact hadd fun known hknown => nomatch hnone.symm.trans hknown

/-- What a declaration does to a reader. -/
inductive Declares (r : Reader) : SExpr → Reader → Prop where
  | sort {head name : String} {parentName : Option String} {parent sort : SortId}
      {sorts : Sorts} : Text.lowercase head = "sort" →
      r.lexicon.sorts.resolve? parentName = some parent →
      r.lexicon.sorts.declare name parent = .ok (sort, sorts) →
      Declares r (.list (.symbol head :: .symbol name :: trailing parentName))
        { r with lexicon.sorts := sorts }
  | constant {head name : String} {sortName : Option String} {sort : SortId} {r' : Reader} :
      Text.lowercase head = "constant" → r.lexicon.sorts.resolve? sortName = some sort →
      Succeeds (declareConstant name sort) r () r' →
      Declares r (.list (.symbol head :: .symbol name :: trailing sortName)) r'
  | predicate {head name : String} {es : List SExpr} {args : List SortId} :
      Text.lowercase head = "predicate" → NameSorts r.lexicon.sorts es args →
      r.MayDeclare .predicate name args →
      Declares r (.list (.symbol head :: .symbol name :: es))
        (r.addSymbol name { args := some args, arity := args.length } .predicate)
  | function {head name : String} {es : List SExpr} {args : List SortId}
      {resultName : Option String} {result : SortId} : Text.lowercase head = "function" →
      r.lexicon.sorts.resolve? resultName = some result → NameSorts r.lexicon.sorts es args →
      r.MayDeclare .function name args →
      Declares r (.list (.symbol head :: .symbol name :: .list es :: trailing resultName))
        (r.addSymbol name { args := some args, arity := args.length, result } .function)

/-- A declaration is read by the rules and in no other way. -/
theorem declares_iff : Declares r e r' ↔ Succeeds (declaration e) r u r' := by
  constructor
  · intro h
    unfold declaration
    cases h with
    | @sort _ _ parentName _ _ _ hhead hparent hdeclare =>
        have hsort : Succeeds (declareSort _ _) r u _ :=
          succeeds_declareSort_iff.mpr ⟨_, _, hdeclare, rfl⟩
        cases parentName with
        | none =>
            cases hparent
            simpa [trailing, hhead] using hsort
        | some parentName =>
            simp only [trailing, Option.toList_some, List.map_cons, List.map_nil, hhead]
            exact Succeeds.bind_iff.mpr ⟨_, _, succeeds_sort_iff.mpr ⟨hparent, rfl⟩, hsort⟩
    | @constant _ _ sortName _ _ hhead hsort hconstant =>
        cases sortName with
        | none =>
            cases hsort
            simpa [trailing, hhead] using hconstant
        | some sortName =>
            simp only [trailing, Option.toList_some, List.map_cons, List.map_nil, hhead]
            exact Succeeds.bind_iff.mpr ⟨_, _, succeeds_sort_iff.mpr ⟨hsort, rfl⟩, hconstant⟩
    | predicate hhead hargs hmay =>
        simp only [hhead]
        exact Succeeds.bind_iff.mpr ⟨_, _, succeeds_sorts_iff.mpr ⟨hargs, rfl⟩,
          succeeds_declareSymbol_iff.mpr ⟨hmay, rfl⟩⟩
    | function hhead hresult hargs hmay =>
        simp only [hhead]
        refine Succeeds.bind_iff.mpr
          ⟨_, _, succeeds_resultSort_iff.mpr ⟨_, rfl, hresult, rfl⟩, ?_⟩
        exact Succeeds.bind_iff.mpr ⟨_, _, succeeds_sorts_iff.mpr ⟨hargs, rfl⟩,
          succeeds_declareSymbol_iff.mpr ⟨hmay, rfl⟩⟩
  · intro h
    unfold declaration at h
    split at h
    · split at h
      · next hhead =>
          obtain ⟨_, _, hdeclare, rfl⟩ := succeeds_declareSort_iff.mp h
          exact @Declares.sort _ _ _ none _ _ _ hhead rfl hdeclare
      · next hhead =>
          obtain ⟨_, _, hparent, hsort⟩ := Succeeds.bind_iff.mp h
          obtain ⟨hparent, rfl⟩ := succeeds_sort_iff.mp hparent
          obtain ⟨_, _, hdeclare, rfl⟩ := succeeds_declareSort_iff.mp hsort
          exact @Declares.sort _ _ _ (some _) _ _ _ hhead hparent hdeclare
      · next hhead => exact @Declares.constant _ _ _ none _ _ hhead rfl h
      · next hhead =>
          obtain ⟨_, _, hsort, hconstant⟩ := Succeeds.bind_iff.mp h
          obtain ⟨hsort, rfl⟩ := succeeds_sort_iff.mp hsort
          exact @Declares.constant _ _ _ (some _) _ _ hhead hsort hconstant
      · next hhead =>
          obtain ⟨_, _, hargs, hsymbol⟩ := Succeeds.bind_iff.mp h
          obtain ⟨hargs, rfl⟩ := succeeds_sorts_iff.mp hargs
          obtain ⟨hmay, rfl⟩ := succeeds_declareSymbol_iff.mp hsymbol
          exact .predicate hhead hargs hmay
      · next hhead =>
          obtain ⟨_, _, hresult, hrest⟩ := Succeeds.bind_iff.mp h
          obtain ⟨_, _, hargs, hsymbol⟩ := Succeeds.bind_iff.mp hrest
          obtain ⟨_, rfl, hresult, rfl⟩ := succeeds_resultSort_iff.mp hresult
          obtain ⟨hargs, rfl⟩ := succeeds_sorts_iff.mp hargs
          obtain ⟨hmay, rfl⟩ := succeeds_declareSymbol_iff.mp hsymbol
          exact .function hhead hresult hargs hmay
      · exact (Succeeds.throw_iff.mp h).elim
    · exact (Succeeds.throw_iff.mp h).elim

theorem proceeds_declaration (e : SExpr) : Proceeds (declaration e) r := by
  unfold declaration
  split
  · split
    · exact proceeds_declareSort _ none rfl
    · next parentName _ =>
        refine .bind (proceeds_sort _) fun parent mid hparent => ?_
        obtain ⟨hparent, rfl⟩ := succeeds_sort_iff.mp hparent
        exact proceeds_declareSort _ (some parentName) hparent
    · exact proceeds_declareConstant _ _
    · exact .bind (proceeds_sort _) fun _ _ _ => proceeds_declareConstant _ _
    · exact .bind (proceeds_sorts _ _) fun _ _ _ => proceeds_declareSymbol _ _ _ _
    · refine .bind (proceeds_resultSort _ _) fun _ mid _ => ?_
      exact .bind (proceeds_sorts _ mid) fun _ _ _ => proceeds_declareSymbol _ _ _ _
    · exact .throw _
  · exact .throw _

theorem succeeds_declarations_nil_iff : Succeeds (declarations []) r u r' ↔ r' = r := by
  simp [declarations]

theorem succeeds_declarations_cons_iff :
    Succeeds (declarations (e :: es)) r u r' ↔
      ∃ mid, Declares r e mid ∧ Succeeds (declarations es) mid () r' := by
  rw [declarations, Succeeds.bind_iff]
  constructor
  · rintro ⟨_, mid, hfirst, hrest⟩
    exact ⟨mid, declares_iff.mpr hfirst, hrest⟩
  · rintro ⟨mid, hfirst, hrest⟩
    exact ⟨(), mid, declares_iff.mp hfirst, hrest⟩

theorem proceeds_declarations (es : List SExpr) (r : Reader) : Proceeds (declarations es) r := by
  induction es generalizing r with
  | nil => exact .pure _
  | cons e es ih => exact .bind (proceeds_declaration e) fun _ mid _ => ih mid

/-! Sections. -/

variable {problem problem' : Problem}

/-- Reads what is inside a section of a kind. -/
def readBody (problem : Problem) (body : List SExpr) : SectionKind → ReadM Problem
  | .declarations => do
      declarations body
      return problem
  | .premises => do
      return { problem with premises := problem.premises ++ (← formulas [] body) }
  | .goals => do
      return { problem with goals := problem.goals ++ (← formulas [] body) }

theorem readSection_eq_readBody {kind : SectionKind} {body : List SExpr}
    (h : e.asSection? = some (kind, body)) :
    readSection problem e = readBody problem body kind := by
  obtain ⟨head, rfl, hkind⟩ := SExpr.asSection?_eq_some_iff.mp h
  have hhead := SectionKind.ofHead?_eq_some_iff.mp hkind
  cases kind with
  | declarations | premises =>
      replace hhead := List.mem_singleton.mp hhead
      simp only [readSection, hhead, readBody]
  | goals =>
      rcases List.mem_pair.mp hhead with hhead | hhead <;>
        simp only [readSection, hhead, readBody]

theorem exists_readSection_eq_throw (problem : Problem) (h : e.asSection? = none) :
    ∃ err, readSection problem e = throw err := by
  unfold readSection
  split
  · next head body =>
      have hhead : SectionKind.ofHead? head = none := by simpa [SExpr.asSection?] using h
      split
      · next hlower => simp [SectionKind.ofHead?, hlower] at hhead
      · next hlower => simp [SectionKind.ofHead?, hlower] at hhead
      · next hlower => simp [SectionKind.ofHead?, hlower] at hhead
      · next hlower => simp [SectionKind.ofHead?, hlower] at hhead
      · exact ⟨_, rfl⟩
  · exact ⟨_, rfl⟩
  · exact ⟨_, rfl⟩

/-- What a section adds to a problem. -/
inductive AddsSection (problem : Problem) (r : Reader) : SExpr → Problem → Reader → Prop where
  | declarations {e : SExpr} {body : List SExpr} {r' : Reader} :
      e.asSection? = some (.declarations, body) → Succeeds (declarations body) r () r' →
      AddsSection problem r e problem r'
  | premises {e : SExpr} {body : List SExpr} {xs : List Sentence} {r' : Reader} :
      e.asSection? = some (.premises, body) → Yields .formula [] body r xs r' →
      AddsSection problem r e { problem with premises := problem.premises ++ xs } r'
  | goals {e : SExpr} {body : List SExpr} {xs : List Sentence} {r' : Reader} :
      e.asSection? = some (.goals, body) → Yields .formula [] body r xs r' →
      AddsSection problem r e { problem with goals := problem.goals ++ xs } r'

theorem addsSection_of_succeeds (h : Succeeds (readSection problem e) r problem' r') :
    AddsSection problem r e problem' r' := by
  cases hsection : e.asSection? with
  | none =>
      obtain ⟨err, hthrow⟩ := exists_readSection_eq_throw problem hsection
      rw [hthrow] at h
      exact (Succeeds.throw_iff.mp h).elim
  | some found =>
      obtain ⟨kind, body⟩ := found
      rw [readSection_eq_readBody hsection] at h
      cases kind with
      | declarations =>
          obtain ⟨_, _, hread, hpure⟩ := Succeeds.bind_iff.mp h
          obtain ⟨rfl, rfl⟩ := Succeeds.pure_iff.mp hpure
          exact .declarations hsection hread
      | premises =>
          obtain ⟨xs, _, hxs, hpure⟩ := Succeeds.bind_iff.mp h
          obtain ⟨rfl, rfl⟩ := Succeeds.pure_iff.mp hpure
          exact .premises hsection (yields_iff.mpr hxs)
      | goals =>
          obtain ⟨xs, _, hxs, hpure⟩ := Succeeds.bind_iff.mp h
          obtain ⟨rfl, rfl⟩ := Succeeds.pure_iff.mp hpure
          exact .goals hsection (yields_iff.mpr hxs)

theorem proceeds_readSection (problem : Problem) (e : SExpr) :
    Proceeds (readSection problem e) r := by
  cases hsection : e.asSection? with
  | none =>
      obtain ⟨err, hthrow⟩ := exists_readSection_eq_throw problem hsection
      rw [hthrow]
      exact .throw err
  | some found =>
      obtain ⟨kind, body⟩ := found
      rw [readSection_eq_readBody hsection]
      cases kind with
      | declarations => exact .bind (proceeds_declarations body r) fun _ _ _ => .pure _
      | premises | goals => exact .bind (proceeds_formulas body r) fun _ _ _ => .pure _

theorem proceeds_readSections (es : List SExpr) (problem : Problem) (r : Reader) :
    Proceeds (readSections problem es) r := by
  induction es generalizing problem r with
  | nil => exact .pure _
  | cons e es ih => exact .bind (proceeds_readSection problem e) fun _ mid _ => ih _ mid

section Sentences

variable {P : Reader → Sentence → Prop}
  (hread : ∀ es q xs q', Yields .formula [] es q xs q' → ∀ s ∈ xs, P q' s)
  (hkept : ∀ q q' s, Steps q q' → P q s → P q' s)
include hread hkept

/-- What holds of formulas that have been read, and stays true, holds of what a section adds. -/
theorem AddsSection.forall_sentences (h : AddsSection problem r e problem' r')
    (hr : ∀ s ∈ problem.premises ++ problem.goals, P r s) :
    ∀ s ∈ problem'.premises ++ problem'.goals, P r' s := by
  intro s hs
  cases h with
  | @declarations body _ _ hdeclarations =>
      have hsteps := (proceeds_declarations body r).steps_of_succeeds hdeclarations
      exact hkept r r' s hsteps (hr s hs)
  | @premises _ xs _ _ hxs | @goals _ xs _ _ hxs =>
      have hadded : s ∈ problem.premises ++ problem.goals ∨ s ∈ xs := by
        simp only [List.mem_append] at hs ⊢
        tauto
      rcases hadded with hold | hnew
      · exact hkept r r' s hxs.steps (hr s hold)
      · exact hread _ r xs r' hxs s hnew

theorem forall_sentences_of_readSections (h : Succeeds (readSections problem es) r problem' r')
    (hr : ∀ s ∈ problem.premises ++ problem.goals, P r s) :
    ∀ s ∈ problem'.premises ++ problem'.goals, P r' s := by
  induction es generalizing problem r with
  | nil =>
      obtain ⟨rfl, rfl⟩ := Succeeds.pure_iff.mp h
      exact hr
  | cons e es ih =>
      obtain ⟨problem₁, mid, hfirst, hrest⟩ := Succeeds.bind_iff.mp h
      exact ih hrest ((addsSection_of_succeeds hfirst).forall_sentences hread hkept hr)

end Sentences

end Reader

/-! Texts. -/

namespace Problem

variable {lexicon lexicon' : Lexicon} {text : String} {problem : Problem}

theorem read_eq_ok_iff {es : List SExpr} (htext : SExpr.read text = .ok es) :
    read lexicon text = (.ok problem, lexicon') ↔
      ∃ r', Reader.Succeeds (Reader.problem es) { lexicon } problem r' ∧
        r'.lexicon = lexicon' := by
  rw [read, htext]
  constructor
  · intro h
    obtain ⟨hok, hlexicon⟩ := Prod.mk.inj h
    exact ⟨_, Prod.ext hok rfl, hlexicon⟩
  · rintro ⟨r', hrun, rfl⟩
    have hrun : (Reader.problem es).run.run { lexicon } = (.ok problem, r') := hrun
    simp only [hrun]

/-- A problem that has been read comes from the sections of its text. -/
theorem exists_succeeds_of_read (h : read lexicon text = (.ok problem, lexicon')) :
    ∃ sections r', SExpr.read text = .ok sections ∧
      Reader.Succeeds (Reader.readSections {} sections) { lexicon } problem r' ∧
      r'.lexicon = lexicon' := by
  cases htext : SExpr.read text with
  | error e =>
      rw [read, htext] at h
      simp at h
  | ok sections =>
      obtain ⟨r', hrun, hlexicon⟩ := (read_eq_ok_iff htext).mp h
      exact ⟨sections, r', rfl, hrun, hlexicon⟩

/-- What holds of formulas that have been read, and stays true, holds of the problem. -/
theorem forall_sentences_of_read {P : Reader → Sentence → Prop}
    (h : read lexicon text = (.ok problem, lexicon'))
    (hread : ∀ es q xs q', Reader.Yields .formula [] es q xs q' → ∀ s ∈ xs, P q' s)
    (hkept : ∀ q q' s, Reader.Steps q q' → P q s → P q' s) :
    ∃ r', r'.lexicon = lexicon' ∧ ∀ s ∈ problem.premises ++ problem.goals, P r' s := by
  obtain ⟨sections, r', -, hrun, hlexicon⟩ := exists_succeeds_of_read h
  exact ⟨r', hlexicon, Reader.forall_sentences_of_readSections hread hkept hrun (by simp)⟩

/-- The lexicon that is left, also by a failure, is reached step by step. -/
theorem exists_steps_read (lexicon : Lexicon) (text : String) :
    ∃ r', Reader.Steps { lexicon } r' ∧ r'.lexicon = (read lexicon text).2 := by
  unfold read
  split
  · exact ⟨{ lexicon }, .refl, rfl⟩
  · next sections _ => exact ⟨_, Reader.proceeds_readSections sections {} { lexicon }, rfl⟩

/-- Reading a text by evaluation shows what holds of the problem. -/
theorem exists_read_of_any (lexicon : Lexicon) (text : String) (test : Problem → Lexicon → Bool)
    (h : ((read lexicon text).1.toOption.any (test · (read lexicon text).2)) = true) :
    ∃ problem lexicon', read lexicon text = (.ok problem, lexicon') ∧
      test problem lexicon' = true :=
  Reader.exists_ok_of_any (read lexicon text) test h

end Problem

end Tableau
