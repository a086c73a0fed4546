/-
Sentences of a problem that has been read are well-formed.  Every variable is bound by a
quantifier around it, terms and formulas stand where they belong, and a symbol has the same
number of arguments wherever it is used.
-/
import Tableau.Proofs.Intake
import Tableau.Proofs.ScopeStack

namespace Tableau

namespace Sentence

/-- Sentences that are made of terms. -/
def takesTerms : Sentence → Bool
  | app .. | pred .. | equal _ => true
  | _ => false

/-- Sentences that are made of formulas by a connective. -/
def isConnective : Sentence → Bool
  | neg _ | conj _ | disj _ | imp .. | iff .. => true
  | _ => false

/-- A sentence stands in another, though not as the binder of a quantifier, inside the bodies
of the quantifiers with the given binders, the innermost first. -/
inductive Occurs (s : Sentence) : (binders : List Sentence) → Sentence → Prop where
  | whole : Occurs s [] s
  | part {binders : List Sentence} {t x : Sentence} :
      Occurs s binders t → t.isQuantifier = false → x ∈ t.parts → Occurs s binders x
  | body {binders : List Sentence} {t v x : Sentence} :
      Occurs s binders t → t = .all v x ∨ t = .ex v x → Occurs s (v :: binders) x

/-- A formula that is closed and has terms and formulas where they belong. -/
structure IsWellFormed (s : Sentence) : Prop where
  formula : s.isTerm = false
  bound : ∀ binders v, s.Occurs binders v → v.isVariable = true → v ∈ binders
  arguments : ∀ binders t, s.Occurs binders t → t.takesTerms = true → ∀ x ∈ t.parts, x.isTerm = true
  operands : ∀ binders t, s.Occurs binders t → t.isConnective = true →
    ∀ x ∈ t.parts, x.isTerm = false
  quantifiers : ∀ binders t v x, s.Occurs binders t → t = .all v x ∨ t = .ex v x →
    v.isVariable = true ∧ x.isTerm = false

variable {s t x v : Sentence} {scope binders : List Sentence}

theorem isTerm_of_isTermIn (h : s.isTermIn scope = true) : s.isTerm = true := by
  cases s <;> simp_all [isTermIn, isTerm]

theorem isTerm_of_isFormulaIn (h : s.isFormulaIn scope = true) : s.isTerm = false := by
  cases s <;> simp_all [isFormulaIn, isTerm]

/-! What stands in a scope, as a term or as a formula, has its parts in that scope. -/

theorem isTermIn_of_mem_parts (h : t.isTermIn scope = true ∨ t.isFormulaIn scope = true)
    (ht : t.takesTerms = true) (hx : x ∈ t.parts) : x.isTermIn scope = true := by
  cases t with
  | app name sort xs => exact areTermsIn_iff.mp (h.resolve_right nofun) x hx
  | pred name xs => exact areTermsIn_iff.mp (h.resolve_left nofun) x hx
  | equal xs => exact areTermsIn_iff.mp (h.resolve_left nofun) x hx
  | _ => simp [takesTerms] at ht

theorem isFormulaIn_of_mem_parts (h : t.isTermIn scope = true ∨ t.isFormulaIn scope = true)
    (ht : t.isConnective = true) (hx : x ∈ t.parts) : x.isFormulaIn scope = true := by
  cases t with
  | neg y =>
      obtain rfl : x = y := by simpa [parts] using hx
      exact h.resolve_left nofun
  | conj xs => exact areFormulasIn_iff.mp (h.resolve_left nofun) x hx
  | disj xs => exact areFormulasIn_iff.mp (h.resolve_left nofun) x hx
  | imp l r | iff l r =>
      have hboth := Bool.and_eq_true_iff.mp (h.resolve_left nofun)
      have hx : x = l ∨ x = r := by simpa [parts] using hx
      rcases hx with rfl | rfl
      · exact hboth.1
      · exact hboth.2
  | _ => simp [isConnective] at ht

theorem isFormulaIn_of_quantifier (h : t.isTermIn scope = true ∨ t.isFormulaIn scope = true)
    (ht : t = .all v x ∨ t = .ex v x) :
    v.isVariable = true ∧ x.isFormulaIn (v :: scope) = true := by
  rcases ht with rfl | rfl <;> exact Bool.and_eq_true_iff.mp (h.resolve_left nofun)

/-- In a closed formula, what stands inside some binders is a term or a formula of their scope. -/
theorem Occurs.isTermIn_or_isFormulaIn (h : s.Occurs binders t) (hs : s.isClosedFormula = true) :
    t.isTermIn binders = true ∨ t.isFormulaIn binders = true := by
  induction h with
  | whole => exact Or.inr hs
  | @part binders t x _ hplain hx ih =>
      have hkind : t.takesTerms = true ∨ t.isConnective = true := by
        cases t <;> simp_all [takesTerms, isConnective, isQuantifier, parts]
      rcases hkind with hterms | hconnective
      · exact Or.inl (isTermIn_of_mem_parts ih hterms hx)
      · exact Or.inr (isFormulaIn_of_mem_parts ih hconnective hx)
  | body _ ht ih => exact Or.inr (isFormulaIn_of_quantifier ih ht).2

theorem isWellFormed_of_isClosedFormula (hs : s.isClosedFormula = true) : s.IsWellFormed where
  formula := isTerm_of_isFormulaIn hs
  bound binders v h hv := by
    have hscope := h.isTermIn_or_isFormulaIn hs
    cases v with
    | var => simpa [isTermIn, isFormulaIn] using hscope
    | _ => simp [isVariable] at hv
  arguments binders t h ht x hx :=
    isTerm_of_isTermIn (isTermIn_of_mem_parts (h.isTermIn_or_isFormulaIn hs) ht hx)
  operands binders t h ht x hx :=
    isTerm_of_isFormulaIn (isFormulaIn_of_mem_parts (h.isTermIn_or_isFormulaIn hs) ht hx)
  quantifiers binders t v x h ht := by
    have hbody := isFormulaIn_of_quantifier (h.isTermIn_or_isFormulaIn hs) ht
    exact ⟨hbody.1, isTerm_of_isFormulaIn hbody.2⟩

/-- The symbol of the given kind that a sentence is made with, and the number of its
arguments.  An atom is a predicate without arguments. -/
def use? : SymbolKind → Sentence → Option (String × Nat)
  | .predicate, atom name => some (name, 0)
  | .predicate, pred name xs => some (name, xs.length)
  | .function, app name _ xs => some (name, xs.length)
  | _, _ => none

end Sentence

/-- In all the sentences together, a symbol is always used with the same number of arguments. -/
def HaveOneArity (xs : List Sentence) : Prop :=
  ∀ s ∈ xs, ∀ t ∈ s.subsentences, ∀ s' ∈ xs, ∀ t' ∈ s'.subsentences, ∀ kind name n n',
    t.use? kind = some (name, n) → t'.use? kind = some (name, n') → n = n'

namespace Reader

variable {r r' r'' : Reader} {kind : SymbolKind} {name : String} {n : Nat}
  {s t : Sentence}

def arity? (r : Reader) (kind : SymbolKind) (name : String) : Option Nat :=
  ((r.symbols kind).lookup name).map (·.arity)

theorem arity?_of_accepts {args : List Sentence} {sig : Signature}
    (h : r.Accepts kind name args sig) :
    r.arity? kind name = some args.length := by
  rw [arity?, h.known, Option.map_some, h.arity]

/-- A reader knows a symbol by every use of it in a sentence. -/
def KnowsUses (r : Reader) (s : Sentence) : Prop :=
  ∀ t ∈ s.subsentences, ∀ kind name n, t.use? kind = some (name, n) → r.arity? kind name = some n

theorem Supports.arity? (h : r.Supports t) (huse : t.use? kind = some (name, n)) :
    r.arity? kind name = some n := by
  unfold Sentence.use? at huse
  split at huse
  · cases huse
    obtain ⟨sig, haccepts⟩ := h
    exact arity?_of_accepts haccepts
  · cases huse
    obtain ⟨sig, haccepts⟩ := h
    exact arity?_of_accepts haccepts
  · cases huse
    obtain ⟨sig, haccepts, -⟩ := h
    exact arity?_of_accepts haccepts
  · contradiction

theorem SupportsAll.knowsUses (h : r.SupportsAll s) : r.KnowsUses s :=
  fun t ht _ _ _ huse => (h t ht).arity? huse

/-! The number of arguments of a symbol never changes, not even when the symbol is declared
after it has been used. -/

def KeepsArities (r r' : Reader) : Prop :=
  ∀ kind name n, r.arity? kind name = some n → r'.arity? kind name = some n

theorem KeepsArities.refl (r : Reader) : KeepsArities r r := fun _ _ _ => id

theorem KeepsArities.trans (h : KeepsArities r r') (h' : KeepsArities r' r'') :
    KeepsArities r r'' :=
  fun kind name n hn => h' kind name n (h kind name n hn)

theorem KeepsArities.of_symbols (h : ∀ kind, r'.symbols kind = r.symbols kind) :
    KeepsArities r r' := by
  intro kind name n hn
  rwa [arity?, h]

theorem KeepsArities.addSymbol {sig : Signature}
    (h : ∀ known, (r.symbols kind).lookup name = some known → known.arity = sig.arity) :
    KeepsArities r (r.addSymbol name sig kind) := by
  intro kind' name' n hn
  rw [arity?, lookup_addSymbol]
  split
  · next heq =>
      obtain ⟨rfl, rfl⟩ := heq
      obtain ⟨known, hknown, rfl⟩ := Option.map_eq_some_iff.mp hn
      rw [Option.map_some, h known hknown]
  · exact hn

theorem Step.keepsArities (h : Step r r') : KeepsArities r r' := by
  cases h with
  | enter s => exact .of_symbols (symbols_enter r s)
  | addConstant sort => exact .of_symbols (symbols_addConstant r _ sort)
  | addSymbol hknown => exact .addSymbol fun known hlookup => (hknown known hlookup).1
  | declareSort => exact .of_symbols fun kind => by cases kind <;> rfl

theorem Steps.keepsArities (h : Steps r r') : KeepsArities r r' :=
  h.keeps (P := KeepsArities r) (fun _ _ hstep hq => hq.trans hstep.keepsArities) (.refl r)

theorem KnowsUses.mono (h : r.KnowsUses s) (hkeeps : KeepsArities r r') : r'.KnowsUses s :=
  fun t ht kind name n huse => hkeeps kind name n (h t ht kind name n huse)

/-- A reader knows the symbols of a problem by all their uses. -/
def KnowsProblem (r : Reader) (problem : Problem) : Prop :=
  ∀ s ∈ problem.premises ++ problem.goals, r.KnowsUses s

theorem KnowsProblem.haveOneArity {problem : Problem} (h : r.KnowsProblem problem) :
    HaveOneArity (problem.premises ++ problem.goals) := by
  intro s hs t ht s' hs' t' ht' kind name n n' huse huse'
  have hn := h s hs t ht kind name n huse
  have hn' := h s' hs' t' ht' kind name n' huse'
  exact Option.some.inj (hn.symm.trans hn')

end Reader

namespace Problem

variable {lexicon lexicon' : Lexicon} {text : String} {problem : Problem}

theorem haveOneArity_of_read (hread : read lexicon text = (.ok problem, lexicon')) :
    HaveOneArity (problem.premises ++ problem.goals) := by
  obtain ⟨r', -, hknows⟩ := forall_sentences_of_read hread (P := Reader.KnowsUses)
    (fun es q xs q' hxs s hs => (hxs.supports Reader.isNamed_nil s hs).knowsUses)
    (fun q q' s hsteps hs => hs.mono hsteps.keepsArities)
  exact Reader.KnowsProblem.haveOneArity hknows

/-- The sentences of a problem that has been read are well-formed, and in all of them
together every symbol has one number of arguments.  While they are read, a reader that
keeps its scope on a stack finds it after every call as it was before, whatever the call
gives. -/
theorem isWellFormed_of_read (hread : read lexicon text = (.ok problem, lexicon')) :
    (∀ s ∈ problem.premises ++ problem.goals, s.IsWellFormed) ∧
      HaveOneArity (problem.premises ++ problem.goals) ∧
      ∀ scope e, ScopedReader.Keeps scope (ScopedReader.formula e) (Reader.formula scope e) ∧
        ScopedReader.Keeps scope (ScopedReader.term e) (Reader.term scope e) := by
  have hentered := isEnteredProblem_of_read hread
  refine ⟨fun s hs => Sentence.isWellFormed_of_isClosedFormula (hentered s hs).1,
    haveOneArity_of_read hread, fun scope e => ⟨?_, ?_⟩⟩
  · exact ScopedReader.keeps_formula e
  · exact ScopedReader.keeps_term e

/-- Symbols are declared between their uses, and a variable is bound again without its sort. -/
def lateDeclarationText : String :=
  "(declarations (sort s) (constant c s))
(premises (P c) (forall (x s) (exists x (R (f x) x))))
(declarations (predicate P s) (function f (s) s))
(goals q (P (f c)))"

theorem isWellFormed_of_read_lateDeclaration :
    ∃ problem lexicon', read {} lateDeclarationText = (.ok problem, lexicon') ∧
      problem.premises.length = 2 ∧ problem.goals.length = 2 ∧
      (∀ s ∈ problem.premises ++ problem.goals, s.IsWellFormed) ∧
      HaveOneArity (problem.premises ++ problem.goals) ∧
      ∀ scope e, ScopedReader.Keeps scope (ScopedReader.formula e) (Reader.formula scope e) ∧
        ScopedReader.Keeps scope (ScopedReader.term e) (Reader.term scope e) := by
  obtain ⟨problem, lexicon', hread, htest⟩ := exists_read_of_any {} lateDeclarationText
    (fun problem _ => decide (problem.premises.length = 2 ∧ problem.goals.length = 2))
      (by decide +kernel)
  obtain ⟨hpremises, hgoals⟩ := of_decide_eq_true htest
  exact ⟨problem, lexicon', hread, hpremises, hgoals, isWellFormed_of_read hread⟩

end Problem

end Tableau
