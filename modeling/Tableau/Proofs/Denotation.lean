/-
What a text means.  An expression that is read as a sentence denotes that sentence in every
vocabulary that gives the constants and functions of the sentence the sorts that they have in
it, and in no other.
-/
import Tableau.Proofs.Knowledge

namespace Tableau

/-- What a name in a term can be, other than a bound variable. -/
inductive TermKind where
  | constant
  | function
deriving DecidableEq

/-- The constant or function that a term begins with, and its sort. -/
def Sentence.head? : Sentence → Option (TermKind × String × SortId)
  | const name sort => some (.constant, name, sort)
  | app name sort _ => some (.function, name, sort)
  | _ => none

/-- The sorts of names. -/
structure Vocabulary where
  sorts : Sorts
  sortOf : TermKind → String → SortId

namespace Vocabulary

mutual

/-- The term that an expression denotes. -/
def term? (voc : Vocabulary) (scope : Scope) (e : SExpr) : Option Sentence :=
  match e with
  | .symbol name => some ((scope.lookup name).getD (.const name (voc.sortOf .constant name)))
  | .list (.symbol f :: args) => (voc.terms? scope args).map (.app f (voc.sortOf .function f))
  | .list _ => none
termination_by structural e

def terms? (voc : Vocabulary) (scope : Scope) (es : List SExpr) : Option (List Sentence) :=
  match es with
  | [] => some []
  | e :: es => (voc.term? scope e).bind fun s => (voc.terms? scope es).map (s :: ·)
termination_by structural es

end

/-- The variable that an expression makes a quantifier bind, with its name. -/
def binder? (voc : Vocabulary) : SExpr → Option (String × Sentence)
  | .symbol name => some (name, .var name SortId.object)
  | .list [.symbol name, .symbol sort] => (voc.sorts.find? sort).map fun sort =>
      (name, .var name sort)
  | _ => none

mutual

/-- The formula that an expression denotes. -/
def formula? (voc : Vocabulary) (scope : Scope) (e : SExpr) : Option Sentence :=
  match e with
  | .symbol name => some (.atom name)
  | .list (.symbol head :: args) =>
      match Keyword.ofHead? head, args with
      | none, [] => some (.atom head)
      | none, args => (voc.terms? scope args).map (.pred head)
      | some .equals, args => (voc.terms? scope args).map .equal
      | some .all, [b, x] =>
          (voc.binder? b).bind fun bound => (voc.formula? (bound :: scope) x).map (.all bound.2)
      | some .ex, [b, x] =>
          (voc.binder? b).bind fun bound => (voc.formula? (bound :: scope) x).map (.ex bound.2)
      | some keyword, args => (voc.formulas? scope args).bind keyword.connect?
  | .list _ => none
termination_by structural e

def formulas? (voc : Vocabulary) (scope : Scope) (es : List SExpr) : Option (List Sentence) :=
  match es with
  | [] => some []
  | e :: es => (voc.formula? scope e).bind fun s => (voc.formulas? scope es).map (s :: ·)
termination_by structural es

end

open Reader

variable {voc : Vocabulary} {category : Category} {scope : Scope} {e : SExpr} {es : List SExpr}
  {s : Sentence} {xs : List Sentence}

/-- The sentences that a list of expressions denotes. -/
def all? (voc : Vocabulary) : Category → Scope → List SExpr → Option (List Sentence)
  | .term => voc.terms?
  | .formula => voc.formulas?

def one? (voc : Vocabulary) : Category → Scope → SExpr → Option Sentence
  | .term => voc.term?
  | .formula => voc.formula?

theorem all?_cons : voc.all? category scope (e :: es) =
    (voc.one? category scope e).bind fun s => (voc.all? category scope es).map (s :: ·) := by
  cases category <;> rfl

theorem all?_cons_iff : voc.all? category scope (e :: es) = some (s :: xs) ↔
    voc.one? category scope e = some s ∧ voc.all? category scope es = some xs := by
  simp [all?_cons, Option.bind_eq_some_iff]

theorem all?_singleton_iff :
    voc.all? category scope [e] = some [s] ↔ voc.one? category scope e = some s := by
  have hnil : voc.all? category scope [] = some [] := by cases category <;> rfl
  simp [all?_cons_iff, hnil]

/-- A vocabulary gives a name the sort that it has in a sentence. -/
def FitsHead (voc : Vocabulary) (s : Sentence) : Prop :=
  ∀ kind name sort, s.head? = some (kind, name, sort) → voc.sortOf kind name = sort

/-- A vocabulary gives the names in a sentence the sorts that they have there. -/
def Fits (voc : Vocabulary) (s : Sentence) : Prop := ∀ t ∈ s.subsentences, voc.FitsHead t

theorem fits_iff_parts : voc.Fits s ↔ voc.FitsHead s ∧ ∀ x ∈ s.parts, voc.Fits x := by
  constructor
  · intro h
    exact ⟨h s (Sentence.self_mem_subsentences s),
      fun x hx t ht => h t (Sentence.mem_subsentences_of_part hx ht)⟩
  · rintro ⟨hhead, hparts⟩ t ht
    rcases Sentence.mem_subsentences.mp ht with rfl | ⟨x, hx, ht⟩
    · exact hhead
    · exact hparts x hx t ht

/-- Only terms begin with names. -/
theorem fits_iff_of_head? (h : s.head? = none) : voc.Fits s ↔ ∀ x ∈ s.parts, voc.Fits x := by
  have hhead : voc.FitsHead s := fun _ _ _ hsome => nomatch h.symm.trans hsome
  rw [fits_iff_parts]
  exact and_iff_right hhead

theorem fits_atom (name : String) : voc.Fits (.atom name) := (fits_iff_of_head? rfl).mpr nofun

theorem fits_var (name : String) (sort : SortId) : voc.Fits (.var name sort) :=
  (fits_iff_of_head? rfl).mpr nofun

theorem fits_const_iff {name : String} {sort : SortId} :
    voc.Fits (.const name sort) ↔ voc.sortOf .constant name = sort := by
  rw [fits_iff_parts]
  simp [FitsHead, Sentence.head?, Sentence.parts]

theorem fits_app_iff {name : String} {sort : SortId} :
    voc.Fits (.app name sort xs) ↔ voc.sortOf .function name = sort ∧ ∀ x ∈ xs, voc.Fits x := by
  rw [fits_iff_parts]
  simp [FitsHead, Sentence.head?, Sentence.parts]

theorem fits_iff_names : voc.Fits s ↔
    (∀ name sort, .const name sort ∈ s.subsentences → voc.sortOf .constant name = sort) ∧
      ∀ name sort xs, .app name sort xs ∈ s.subsentences → voc.sortOf .function name = sort := by
  constructor
  · intro h
    exact ⟨fun name sort hmem => h _ hmem .constant name sort rfl,
      fun name sort xs hmem => h _ hmem .function name sort rfl⟩
  · rintro ⟨hconst, happ⟩ t ht kind name sort hhead
    cases t with
    | const =>
        cases hhead
        exact hconst _ _ ht
    | app =>
        cases hhead
        exact happ _ _ _ ht
    | _ => contradiction

/-! What the heads of formulas denote. -/

section Heads

variable {head : String} {args : List SExpr}

theorem formula?_pred (hhead : Keyword.ofHead? head = none) (hargs : args ≠ []) :
    voc.formula? scope (.list (.symbol head :: args)) =
      (voc.terms? scope args).map (.pred head) := by
  cases args with
  | nil => contradiction
  | cons arg args =>
      unfold formula?
      simp only [hhead]

theorem formula?_equal (hhead : Keyword.ofHead? head = some .equals) :
    voc.formula? scope (.list (.symbol head :: args)) = (voc.terms? scope args).map .equal := by
  unfold formula?
  simp only [hhead]

theorem connect?_eq_iff {keyword : Keyword} {found : Option (List Sentence)}
    (hs : keyword.connect? xs = some s) :
    found.bind keyword.connect? = some s ↔ found = some xs := by
  constructor
  · intro h
    obtain ⟨ys, rfl, hys⟩ := Option.bind_eq_some_iff.mp h
    rw [← Keyword.parts_of_connect? hys, Keyword.parts_of_connect? hs]
  · rintro rfl
    exact hs

theorem fits_connect?_iff {keyword : Keyword} (hs : keyword.connect? xs = some s) :
    voc.Fits s ↔ ∀ x ∈ xs, voc.Fits x := by
  have hhead : s.head? = none := by
    unfold Keyword.connect? at hs
    split at hs <;> cases hs <;> rfl
  rw [fits_iff_of_head? hhead, Keyword.parts_of_connect? hs]

theorem quantify?_eq_iff {keyword : Keyword} {v y : Sentence} {found : Option Sentence}
    (hs : keyword.quantify? v y = some s) :
    found.bind (keyword.quantify? v) = some s ↔ found = some y := by
  constructor
  · intro h
    obtain ⟨x, rfl, hx⟩ := Option.bind_eq_some_iff.mp h
    have hparts := (Keyword.parts_of_quantify? hx).symm.trans (Keyword.parts_of_quantify? hs)
    simpa using hparts
  · rintro rfl
    exact hs

theorem fits_quantify?_iff {keyword : Keyword} {v y : Sentence}
    (hs : keyword.quantify? v y = some s) :
    voc.Fits s ↔ voc.Fits v ∧ voc.Fits y := by
  have hhead : s.head? = none := by
    unfold Keyword.quantify? at hs
    split at hs <;> cases hs <;> rfl
  rw [fits_iff_of_head? hhead, Keyword.parts_of_quantify? hs]
  simp

theorem formula?_connective {keyword : Keyword} (hhead : Keyword.ofHead? head = some keyword)
    (hs : keyword.connect? xs = some s) :
    voc.formula? scope (.list (.symbol head :: args)) =
      (voc.formulas? scope args).bind keyword.connect? := by
  unfold formula?
  simp only [hhead]
  cases keyword with
  | equals | all | ex => simp [Keyword.connect?] at hs
  | _ => rfl

theorem formula?_quantifier {keyword : Keyword} {b x : SExpr} {v y : Sentence}
    (hhead : Keyword.ofHead? head = some keyword) (hs : keyword.quantify? v y = some s) :
    voc.formula? scope (.list [.symbol head, b, x]) =
      (voc.binder? b).bind fun bound =>
        (voc.formula? (bound :: scope) x).bind (keyword.quantify? bound.2) := by
  conv_lhs => unfold formula?
  simp only [hhead]
  cases keyword with
  | all | ex => exact Option.bind_congr fun bound _ => Option.map_eq_bind
  | _ => simp [Keyword.quantify?] at hs

end Heads

/-- A vocabulary knows the sorts of another hierarchy by the same names. -/
def Knows (voc : Vocabulary) (sorts : Sorts) : Prop :=
  ∀ name sort, sorts.find? name = some sort → voc.sorts.find? name = some sort

theorem Knows.binder? {sorts : Sorts} {name : String} {v : Sentence} (h : voc.Knows sorts)
    (hbinds : Binds sorts e name v) : voc.binder? e = some (name, v) := by
  cases hbinds with
  | plain => rfl
  | sorted hsort => rw [Vocabulary.binder?, h _ _ hsort, Option.map_some]

end Vocabulary

open Vocabulary in
/-- Expressions that have been read as sentences denote these sentences in the vocabularies
that give the names in them the sorts that they have there. -/
theorem Reader.Yields.all?_eq_iff {voc : Vocabulary} {category : Category} {scope : Scope}
    {es : List SExpr}
    {r r' : Reader} {xs : List Sentence} (h : Yields category scope es r xs r')
    (hscope : IsNamed scope) (hsorts : voc.Knows r.lexicon.sorts) :
    voc.all? category scope es = some xs ↔ ∀ x ∈ xs, voc.Fits x := by
  induction h with
  | @nil category =>
      cases category <;> simp [all?, terms?, formulas?]
  | cons he _ ihe ihes =>
      rw [all?_cons_iff, ← all?_singleton_iff, ihe hscope hsorts,
        ihes hscope (he.growsTo.lags.sorts ▸ hsorts), List.forall_mem_singleton,
        List.forall_mem_cons]
  | var hlookup =>
      obtain ⟨sort, rfl⟩ := hscope _ _ hlookup
      rw [all?_singleton_iff, List.forall_mem_singleton, one?, term?, hlookup]
      exact iff_of_true rfl (fits_var _ sort)
  | const hlookup =>
      rw [all?_singleton_iff, List.forall_mem_singleton, fits_const_iff, one?, term?, hlookup]
      simp
  | app _ _ _ ih =>
      rw [all?_singleton_iff, List.forall_mem_singleton, fits_app_iff, ← ih hscope hsorts,
        one?, term?]
      simp [all?, and_comm]
  | atom hatom =>
      rw [all?_singleton_iff, List.forall_mem_singleton, one?]
      refine iff_of_true ?_ (fits_atom _)
      cases hatom with
      | symbol => rw [formula?]
      | list hhead =>
          unfold formula?
          simp only [hhead]
  | pred hhead hargs _ _ ih =>
      rw [all?_singleton_iff, List.forall_mem_singleton, fits_iff_of_head? rfl, one?,
        formula?_pred hhead hargs]
      simpa [all?, Sentence.parts] using ih hscope hsorts
  | equal hhead _ _ ih =>
      rw [all?_singleton_iff, List.forall_mem_singleton, fits_iff_of_head? rfl, one?,
        formula?_equal hhead]
      simpa [all?, Sentence.parts] using ih hscope hsorts
  | connective hhead _ hs ih =>
      rw [all?_singleton_iff, List.forall_mem_singleton, one?, formula?_connective hhead hs,
        connect?_eq_iff hs, fits_connect?_iff hs]
      exact ih hscope hsorts
  | quantifier hhead hbinds _ hs ih =>
      rw [all?_singleton_iff, List.forall_mem_singleton, one?, formula?_quantifier hhead hs,
        hsorts.binder? hbinds, Option.bind_some, quantify?_eq_iff hs, fits_quantify?_iff hs]
      have hbody := ih (hscope.cons hbinds) ((Lexicon.sorts_intern ..).symm ▸ hsorts)
      obtain ⟨sort, rfl⟩ := hbinds.exists_var
      rw [all?_singleton_iff, List.forall_mem_singleton] at hbody
      rw [and_iff_right (fits_var _ sort)]
      exact hbody

/-- A formula that has been read denotes the sentence in the vocabularies that fit it. -/
theorem Reader.Yields.formula?_eq_iff {voc : Vocabulary} {e : SExpr} {r r' : Reader} {s : Sentence}
    (h : Yields .formula [] [e] r [s] r') (hsorts : voc.Knows r.lexicon.sorts) :
    voc.formula? [] e = some s ↔ voc.Fits s := by
  have hiff := h.all?_eq_iff isNamed_nil hsorts
  rwa [Vocabulary.all?_singleton_iff, List.forall_mem_singleton] at hiff

end Tableau
