/-
How expressions are read.  Reading that succeeds is described by rules, one for each
form of expression, which say what is read and what the reader learns from it.  Reading that
fails still goes step by step.
-/
import Tableau.Proofs.Reading

namespace Tableau

namespace Reader

variable {r r' : Reader}

/-! The rules of reading. -/

/-- What a list of expressions is read as. -/
inductive Category where
  | term
  | formula

def readOne : Category → Scope → SExpr → ReadM Sentence
  | .term => term
  | .formula => formula

def readAll : Category → Scope → List SExpr → ReadM (List Sentence)
  | .term => terms
  | .formula => formulas

end Reader

/-- The formula that a connective makes of formulas, if their number is right. -/
def Keyword.connect? : Keyword → List Sentence → Option Sentence
  | .not, [x] => some (.neg x)
  | .and, xs => some (.conj xs)
  | .or, xs => some (.disj xs)
  | .implies, [l, r] => some (.imp l r)
  | .iff, [l, r] => some (.iff l r)
  | _, _ => none

/-- The formula that a quantifier makes of a variable and a formula. -/
def Keyword.quantify? : Keyword → Sentence → Sentence → Option Sentence
  | .all, v, x => some (.all v x)
  | .ex, v, x => some (.ex v x)
  | _, _, _ => none

theorem Keyword.parts_of_connect? {keyword : Keyword} {xs : List Sentence} {s : Sentence}
    (h : keyword.connect? xs = some s) : s.parts = xs := by
  unfold connect? at h
  split at h <;> cases h <;> rfl

theorem Keyword.parts_of_quantify? {keyword : Keyword} {v x s : Sentence}
    (h : keyword.quantify? v x = some s) : s.parts = [v, x] := by
  unfold quantify? at h
  split at h <;> cases h <;> rfl

namespace Reader

/-- A name may be used for a constant: it is not known as a function with arguments. -/
def AllowsConstant (r : Reader) (name : String) : Prop :=
  ∀ sig, (r.symbols .function).lookup name = some sig → sig.arity = 0

/-- An expression names a variable that a quantifier binds. -/
inductive Binds (sorts : Sorts) : SExpr → String → Sentence → Prop where
  | plain {name : String} : Binds sorts (.symbol name) name (.var name SortId.object)
  | sorted {name sortName : String} {sort : SortId} : sorts.find? sortName = some sort →
      Binds sorts (.list [.symbol name, .symbol sortName]) name (.var name sort)

/-- An expression is a name used as a formula: on its own, or as a predicate without
arguments. -/
inductive IsAtom (name : String) : SExpr → Prop where
  | symbol : IsAtom name (.symbol name)
  | list : Keyword.ofHead? name = none → IsAtom name (.list [.symbol name])

/-- Reading a list of expressions in a scope, from one state to another.  An expression is
read as a list of one, and lists are read from left to right. -/
inductive Yields : Category → Scope → List SExpr → Reader → List Sentence → Reader → Prop where
  | nil {category : Category} {scope : Scope} {r : Reader} : Yields category scope [] r [] r
  | cons {category : Category} {scope : Scope} {e : SExpr} {es : List SExpr} {s : Sentence}
      {xs : List Sentence} {r mid r' : Reader} : Yields category scope [e] r [s] mid →
      Yields category scope es mid xs r' → Yields category scope (e :: es) r (s :: xs) r'
  | var {scope : Scope} {name : String} {v : Sentence} {r : Reader} :
      scope.lookup name = some v → Yields .term scope [.symbol name] r [v] r
  | const {scope : Scope} {name : String} {sort : SortId} {r : Reader} :
      scope.lookup name = none → r.AllowsConstant name →
      (r.named name).constants.lookup name = some sort →
      Yields .term scope [.symbol name] r [.const name sort]
        ((r.named name).enter (.const name sort))
  | app {scope : Scope} {name : String} {args : List SExpr} {xs : List Sentence} {sig : Signature}
      {r mid : Reader} : args ≠ [] → Yields .term scope args r xs mid →
      (mid.used .function name xs.length).Accepts .function name xs sig →
      Yields .term scope [.list (.symbol name :: args)] r [.app name sig.result xs]
        ((mid.used .function name xs.length).enter (.app name sig.result xs))
  | atom {scope : Scope} {name : String} {e : SExpr} {sig : Signature} {r : Reader} :
      IsAtom name e → scope.lookup name = none →
      (r.used .predicate name 0).Accepts .predicate name [] sig →
      Yields .formula scope [e] r [.atom name] ((r.used .predicate name 0).enter (.atom name))
  | pred {scope : Scope} {name : String} {args : List SExpr} {xs : List Sentence} {sig : Signature}
      {r mid : Reader} : Keyword.ofHead? name = none → args ≠ [] →
        Yields .term scope args r xs mid →
      (mid.used .predicate name xs.length).Accepts .predicate name xs sig →
      Yields .formula scope [.list (.symbol name :: args)] r [.pred name xs]
        ((mid.used .predicate name xs.length).enter (.pred name xs))
  | equal {scope : Scope} {head : String} {args : List SExpr} {xs : List Sentence}
      {r mid : Reader} :
      Keyword.ofHead? head = some .equals → args ≠ [] → Yields .term scope args r xs mid →
      Yields .formula scope [.list (.symbol head :: args)] r [.equal xs] (mid.enter (.equal xs))
  | connective {scope : Scope} {head : String} {keyword : Keyword} {args : List SExpr}
      {xs : List Sentence} {s : Sentence} {r mid : Reader} :
      Keyword.ofHead? head = some keyword → Yields .formula scope args r xs mid →
      keyword.connect? xs = some s →
      Yields .formula scope [.list (.symbol head :: args)] r [s] (mid.enter s)
  | quantifier {scope : Scope} {head name : String} {keyword : Keyword} {binder body : SExpr}
      {v x s : Sentence} {r mid : Reader} : Keyword.ofHead? head = some keyword →
      Binds r.lexicon.sorts binder name v →
      Yields .formula ((name, v) :: scope) [body] (r.enter v) [x] mid →
      keyword.quantify? v x = some s →
      Yields .formula scope [.list [.symbol head, binder, body]] r [s] (mid.enter s)

variable {scope : Scope} {e : SExpr} {es : List SExpr} {s : Sentence} {xs : List Sentence}

/-- A name that is not bound is a constant, unless it is known as a function with arguments. -/
theorem succeeds_name_iff {symbol : String} :
    Succeeds (name scope symbol) r s r' ↔
      (scope.lookup symbol = some s ∧ r' = r) ∨
      (scope.lookup symbol = none ∧ r.AllowsConstant symbol ∧
        ∃ sort, (r.named symbol).constants.lookup symbol = some sort ∧ s = .const symbol sort ∧
          r' = (r.named symbol).enter (.const symbol sort)) := by
  have hconst : Succeeds (do intern (.const symbol (← constantSort symbol))) r s r' ↔
      ∃ sort, (r.named symbol).constants.lookup symbol = some sort ∧ s = .const symbol sort ∧
        r' = (r.named symbol).enter (.const symbol sort) := by
    simp only [Succeeds.bind_iff, succeeds_constantSort_iff, succeeds_intern_iff]
    constructor
    · rintro ⟨sort, _, ⟨rfl, hsort⟩, hs, hr⟩
      exact ⟨sort, hsort, hs, hr⟩
    · rintro ⟨sort, hsort, hs, hr⟩
      exact ⟨sort, _, ⟨rfl, hsort⟩, hs, hr⟩
  unfold name
  cases hscope : scope.lookup symbol with
  | some v => simp [eq_comm]
  | none =>
      simp only [succeeds_get_bind]
      cases hfunction : r.functions.lookup symbol with
      | none => simpa [AllowsConstant, symbols, hfunction] using hconst
      | some sig =>
          have hknown : (r.symbols .function).lookup symbol = some sig := hfunction
          have hcheck : ∀ mid, (∃ sort, Succeeds (apply .function symbol []) r sort mid) ↔
              mid = r ∧ sig.arity = 0 := by
            intro mid
            simp only [succeeds_apply_iff, List.length_nil, used_of_some hknown, accepts_nil_iff]
            constructor
            · rintro ⟨sort, rfl, sig', ⟨hsig', harity⟩, -⟩
              obtain rfl := Option.some.inj (hknown.symm.trans hsig')
              exact ⟨rfl, harity⟩
            · rintro ⟨rfl, harity⟩
              exact ⟨sig.result, rfl, sig, ⟨hknown, harity⟩, rfl⟩
          rw [Option.isSome_some, if_pos rfl, Succeeds.bind_iff]
          simp only [Succeeds.discard_iff, hcheck]
          constructor
          · rintro ⟨_, _, ⟨rfl, harity⟩, h⟩
            refine Or.inr ⟨trivial, fun sig' hsig' => ?_, hconst.mp h⟩
            obtain rfl := Option.some.inj (hfunction.symm.trans hsig')
            exact harity
          · rintro (⟨h, -⟩ | ⟨-, harity, h⟩)
            · contradiction
            · exact ⟨(), r, ⟨rfl, harity sig hfunction⟩, hconst.mpr h⟩

/-! Lists are read from left to right. -/

variable {category : Category}

theorem succeeds_readAll_nil_iff :
    Succeeds (readAll category scope []) r xs r' ↔ xs = [] ∧ r' = r := by
  cases category <;> simp [readAll, terms, formulas]

theorem readAll_cons :
    readAll category scope (e :: es) = (do
      let s ← readOne category scope e
      return s :: (← readAll category scope es)) := by
  cases category <;> simp only [readAll, readOne, terms, formulas]

theorem succeeds_readAll_cons_iff :
    Succeeds (readAll category scope (e :: es)) r xs r' ↔
      ∃ s mid ys, Succeeds (readOne category scope e) r s mid ∧
        Succeeds (readAll category scope es) mid ys r' ∧ xs = s :: ys := by
  rw [readAll_cons]
  simp only [Succeeds.bind_iff, Succeeds.pure_iff]
  constructor
  · rintro ⟨s, mid, hs, ys, _, hys, rfl, rfl⟩
    exact ⟨s, mid, ys, hs, hys, rfl⟩
  · rintro ⟨s, mid, ys, hs, hys, rfl⟩
    exact ⟨s, mid, hs, ys, r', hys, rfl, rfl⟩

theorem succeeds_readAll_singleton_iff :
    Succeeds (readAll category scope [e]) r xs r' ↔
      ∃ s, xs = [s] ∧ Succeeds (readOne category scope e) r s r' := by
  simp only [succeeds_readAll_cons_iff, succeeds_readAll_nil_iff]
  constructor
  · rintro ⟨s, mid, _, hs, ⟨rfl, rfl⟩, rfl⟩
    exact ⟨s, rfl, hs⟩
  · rintro ⟨s, rfl, hs⟩
    exact ⟨s, r', [], hs, ⟨rfl, rfl⟩, rfl⟩

theorem succeeds_readAll_pair_iff {e' : SExpr} :
    Succeeds (readAll category scope [e, e']) r xs r' ↔
      ∃ s s' mid, xs = [s, s'] ∧ Succeeds (readOne category scope e) r s mid ∧
        Succeeds (readOne category scope e') mid s' r' := by
  rw [succeeds_readAll_cons_iff]
  simp only [succeeds_readAll_singleton_iff]
  constructor
  · rintro ⟨s, mid, _, hs, ⟨s', rfl, hs'⟩, rfl⟩
    exact ⟨s, s', mid, rfl, hs, hs'⟩
  · rintro ⟨s, s', mid, rfl, hs, hs'⟩
    exact ⟨s, mid, [s'], hs, ⟨s', rfl, hs'⟩, rfl⟩

theorem length_of_succeeds_readAll (h : Succeeds (readAll category scope es) r xs r') :
    xs.length = es.length := by
  induction es generalizing r xs with
  | nil =>
      obtain ⟨rfl, -⟩ := succeeds_readAll_nil_iff.mp h
      rfl
  | cons e es ih =>
      obtain ⟨s, mid, ys, -, hys, rfl⟩ := succeeds_readAll_cons_iff.mp h
      exact congrArg (· + 1) (ih hys)

/-! Terms and formulas, by the head of their expression. -/

section Heads

variable {head : String} {args : List SExpr}

theorem succeeds_app_iff :
    Succeeds (readOne .term scope (.list (.symbol head :: args))) r s r' ↔
      args ≠ [] ∧ ∃ xs mid sig, Succeeds (readAll .term scope args) r xs mid ∧
        (mid.used .function head xs.length).Accepts .function head xs sig ∧
        s = .app head sig.result xs ∧ r' = (mid.used .function head xs.length).enter s := by
  cases args with
  | nil => simp [readOne, term]
  | cons arg args =>
      have hhead : ∀ q x q', Succeeds (term scope arg) q x q' ↔
        Succeeds (readOne .term scope arg) q x q' := fun _ _ _ => Iff.rfl
      have htail : ∀ q ys q', Succeeds (terms scope args) q ys q' ↔
        Succeeds (readAll .term scope args) q ys q' := fun _ _ _ => Iff.rfl
      simp only [readOne, term, Succeeds.bind_iff, succeeds_apply_iff, succeeds_intern_iff, hhead,
        htail, succeeds_readAll_cons_iff]
      constructor
      · rintro ⟨x, mid, hx, ys, mid', hys, _, _, ⟨rfl, sig, haccepts, rfl⟩, rfl, rfl⟩
        exact ⟨by simp, x :: ys, mid', sig, ⟨x, mid, ys, hx, hys, rfl⟩, haccepts, rfl, rfl⟩
      · rintro ⟨-, _, mid', sig, ⟨x, mid, ys, hx, hys, rfl⟩, haccepts, rfl, rfl⟩
        exact ⟨x, mid, hx, ys, mid', hys, _, _, ⟨rfl, sig, haccepts, rfl⟩, rfl, rfl⟩

theorem succeeds_atom_iff {symbol : String} :
    Succeeds (atom scope symbol) r s r' ↔
      scope.lookup symbol = none ∧
        (∃ sig, (r.used .predicate symbol 0).Accepts .predicate symbol [] sig) ∧
        s = .atom symbol ∧ r' = (r.used .predicate symbol 0).enter s := by
  unfold atom
  cases hscope : scope.lookup symbol with
  | some v => simp
  | none =>
      simp only [Option.isSome_none, Bool.false_eq_true, if_false, Succeeds.bind_iff,
        Succeeds.discard_iff, succeeds_apply_iff, succeeds_intern_iff, List.length_nil]
      constructor
      · rintro ⟨_, _, ⟨_, rfl, sig, haccepts, -⟩, rfl, rfl⟩
        exact ⟨trivial, ⟨sig, haccepts⟩, rfl, rfl⟩
      · rintro ⟨-, ⟨sig, haccepts⟩, rfl, rfl⟩
        exact ⟨(), _, ⟨_, rfl, sig, haccepts, rfl⟩, rfl, rfl⟩

theorem succeeds_pred_iff (hargs : args ≠ []) :
    Succeeds (predicate scope head args) r s r' ↔
      ∃ xs mid sig, Succeeds (readAll .term scope args) r xs mid ∧
        (mid.used .predicate head xs.length).Accepts .predicate head xs sig ∧
        s = .pred head xs ∧ r' = (mid.used .predicate head xs.length).enter s := by
  unfold predicate
  rw [if_neg (by simpa using hargs)]
  have hargs : ∀ q ys q', Succeeds (terms scope args) q ys q' ↔
    Succeeds (readAll .term scope args) q ys q' := fun _ _ _ => Iff.rfl
  simp only [Succeeds.bind_iff, Succeeds.discard_iff, succeeds_apply_iff,
    succeeds_intern_iff, hargs]
  constructor
  · rintro ⟨xs, mid, hxs, _, _, ⟨_, rfl, sig, haccepts, -⟩, rfl, rfl⟩
    exact ⟨xs, mid, sig, hxs, haccepts, rfl, rfl⟩
  · rintro ⟨xs, mid, sig, hxs, haccepts, rfl, rfl⟩
    exact ⟨xs, mid, hxs, (), _, ⟨_, rfl, sig, haccepts, rfl⟩, rfl, rfl⟩

theorem succeeds_equality_iff :
    Succeeds (equality scope e args) r s r' ↔
      args ≠ [] ∧ ∃ xs mid, Succeeds (readAll .term scope args) r xs mid ∧ s = .equal xs ∧
        r' = mid.enter s := by
  unfold equality
  cases args with
  | nil => simp
  | cons arg args =>
    simp only [List.isEmpty_cons, Bool.false_eq_true, if_false, Succeeds.bind_iff,
      succeeds_intern_iff]
    constructor
    · rintro ⟨xs, mid, hxs, rfl, rfl⟩
      exact ⟨by simp, xs, mid, hxs, rfl, rfl⟩
    · rintro ⟨-, xs, mid, hxs, rfl, rfl⟩
      exact ⟨xs, mid, hxs, rfl, rfl⟩

theorem succeeds_binder_iff {name : String} {v : Sentence} :
    Succeeds (binder e) r (name, v) r' ↔ Binds r.lexicon.sorts e name v ∧ r' = r.enter v := by
  unfold binder
  constructor
  · intro h
    split at h
    · simp only [Succeeds.bind_iff, succeeds_intern_iff, Succeeds.pure_iff] at h
      obtain ⟨_, _, ⟨rfl, rfl⟩, ⟨⟩, rfl⟩ := h
      exact ⟨.plain, rfl⟩
    · simp only [Succeeds.bind_iff, succeeds_sort_iff, succeeds_intern_iff, Succeeds.pure_iff] at h
      obtain ⟨sort, _, ⟨hsort, rfl⟩, _, _, ⟨rfl, rfl⟩, ⟨⟩, rfl⟩ := h
      exact ⟨.sorted hsort, rfl⟩
    · exact (Succeeds.throw_iff.mp h).elim
  · rintro ⟨hbinds, rfl⟩
    cases hbinds with
    | plain =>
        simp only [Succeeds.bind_iff, succeeds_intern_iff, Succeeds.pure_iff]
        exact ⟨_, _, ⟨rfl, rfl⟩, rfl, rfl⟩
    | sorted hsort =>
        simp only [Succeeds.bind_iff, succeeds_sort_iff, succeeds_intern_iff, Succeeds.pure_iff]
        exact ⟨_, _, ⟨hsort, rfl⟩, _, _, ⟨rfl, rfl⟩, rfl, rfl⟩

/-- A connective makes a formula of the formulas that it needs. -/
theorem succeeds_connective {keyword : Keyword} {mid : Reader}
    (hhead : Keyword.ofHead? head = some keyword)
    (hxs : Succeeds (readAll .formula scope args) r xs mid) (hs : keyword.connect? xs = some s) :
    Succeeds (readOne .formula scope (.list (.symbol head :: args))) r s (mid.enter s) := by
  have hone : ∀ e q x q', Succeeds (formula scope e) q x q' ↔
    Succeeds (readOne .formula scope e) q x q' := fun _ _ _ _ => Iff.rfl
  have hlength := length_of_succeeds_readAll hxs
  unfold Keyword.connect? at hs
  split at hs
  · obtain ⟨arg, rfl⟩ := List.length_eq_one_iff.mp hlength.symm
    obtain ⟨_, ⟨⟩, hx⟩ := succeeds_readAll_singleton_iff.mp hxs
    cases hs
    rw [readOne]
    unfold formula
    simp only [hhead, Succeeds.bind_iff, succeeds_intern_iff, hone]
    exact ⟨_, _, hx, rfl, rfl⟩
  · cases hs
    rw [readOne]
    unfold formula
    simp only [hhead, Succeeds.bind_iff, succeeds_intern_iff]
    exact ⟨_, _, hxs, rfl, rfl⟩
  · cases hs
    rw [readOne]
    unfold formula
    simp only [hhead, Succeeds.bind_iff, succeeds_intern_iff]
    exact ⟨_, _, hxs, rfl, rfl⟩
  · obtain ⟨left, right, rfl⟩ := List.length_eq_two.mp hlength.symm
    obtain ⟨_, _, _, ⟨⟩, hl, hr⟩ := succeeds_readAll_pair_iff.mp hxs
    cases hs
    rw [readOne]
    unfold formula
    simp only [hhead, Succeeds.bind_iff, succeeds_intern_iff, hone]
    exact ⟨_, _, hl, _, _, hr, rfl, rfl⟩
  · obtain ⟨left, right, rfl⟩ := List.length_eq_two.mp hlength.symm
    obtain ⟨_, _, _, ⟨⟩, hl, hr⟩ := succeeds_readAll_pair_iff.mp hxs
    cases hs
    rw [readOne]
    unfold formula
    simp only [hhead, Succeeds.bind_iff, succeeds_intern_iff, hone]
    exact ⟨_, _, hl, _, _, hr, rfl, rfl⟩
  · contradiction

theorem succeeds_quantifier {keyword : Keyword} {b x : SExpr} {name : String} {v body : Sentence}
    {mid : Reader} (hhead : Keyword.ofHead? head = some keyword)
    (hbinds : Binds r.lexicon.sorts b name v)
    (hbody : Succeeds (readOne .formula ((name, v) :: scope) x) (r.enter v) body mid)
    (hs : keyword.quantify? v body = some s) :
    Succeeds (readOne .formula scope (.list [.symbol head, b, x])) r s (mid.enter s) := by
  have hbinder : Succeeds (binder b) r (name, v) (r.enter v) :=
    succeeds_binder_iff.mpr ⟨hbinds, rfl⟩
  unfold Keyword.quantify? at hs
  split at hs
  · cases hs
    rw [readOne]
    unfold formula
    simp only [hhead, Succeeds.bind_iff, succeeds_intern_iff]
    exact ⟨_, _, hbinder, _, _, hbody, rfl, rfl⟩
  · cases hs
    rw [readOne]
    unfold formula
    simp only [hhead, Succeeds.bind_iff, succeeds_intern_iff]
    exact ⟨_, _, hbinder, _, _, hbody, rfl, rfl⟩
  · contradiction

end Heads

/-- What the rules yield is what is read. -/
theorem Yields.succeeds (h : Yields category scope es r xs r') :
    Succeeds (readAll category scope es) r xs r' := by
  induction h with
  | nil => exact succeeds_readAll_nil_iff.mpr ⟨rfl, rfl⟩
  | cons _ _ ihe ihes =>
      obtain ⟨_, ⟨⟩, he⟩ := succeeds_readAll_singleton_iff.mp ihe
      exact succeeds_readAll_cons_iff.mpr ⟨_, _, _, he, ihes, rfl⟩
  | var hlookup =>
      refine succeeds_readAll_singleton_iff.mpr ⟨_, rfl, ?_⟩
      rw [readOne, term]
      exact succeeds_name_iff.mpr (Or.inl ⟨hlookup, rfl⟩)
  | const hlookup harity hsort =>
      refine succeeds_readAll_singleton_iff.mpr ⟨_, rfl, ?_⟩
      rw [readOne, term]
      exact succeeds_name_iff.mpr (Or.inr ⟨hlookup, harity, _, hsort, rfl, rfl⟩)
  | app hargs _ haccepts ih =>
      exact succeeds_readAll_singleton_iff.mpr
        ⟨_, rfl, succeeds_app_iff.mpr ⟨hargs, _, _, _, ih, haccepts, rfl, rfl⟩⟩
  | atom hatom hlookup haccepts =>
      refine succeeds_readAll_singleton_iff.mpr ⟨_, rfl, ?_⟩
      have hread := succeeds_atom_iff.mpr ⟨hlookup, ⟨_, haccepts⟩, rfl, rfl⟩
      cases hatom with
      | symbol =>
          rw [readOne]
          unfold formula
          exact hread
      | list hhead =>
          rw [readOne]
          unfold formula
          simp only [hhead]
          rw [predicate, List.isEmpty_nil, if_pos rfl]
          exact hread
  | pred hhead hargs _ haccepts ih =>
      refine succeeds_readAll_singleton_iff.mpr ⟨_, rfl, ?_⟩
      rw [readOne]
      unfold formula
      simp only [hhead]
      exact (succeeds_pred_iff hargs).mpr ⟨_, _, _, ih, haccepts, rfl, rfl⟩
  | equal hhead hargs _ ih =>
      refine succeeds_readAll_singleton_iff.mpr ⟨_, rfl, ?_⟩
      rw [readOne]
      unfold formula
      simp only [hhead]
      exact succeeds_equality_iff.mpr ⟨hargs, _, _, ih, rfl, rfl⟩
  | connective hhead _ hs ih =>
      exact succeeds_readAll_singleton_iff.mpr ⟨_, rfl, succeeds_connective hhead ih hs⟩
  | quantifier hhead hbinds _ hs ih =>
      obtain ⟨_, ⟨⟩, hbody⟩ := succeeds_readAll_singleton_iff.mp ih
      exact succeeds_readAll_singleton_iff.mpr ⟨_, rfl, succeeds_quantifier hhead hbinds hbody hs⟩

mutual

theorem yields_of_term (e : SExpr) {r r' : Reader} {s : Sentence}
    (h : Succeeds (readOne .term scope e) r s r') : Yields .term scope [e] r [s] r' := by
  match e with
  | .symbol symbol =>
      rw [readOne, term] at h
      rcases succeeds_name_iff.mp h with ⟨hlookup, rfl⟩ | ⟨hlookup, harity, sort, hsort, rfl, rfl⟩
      · exact .var hlookup
      · exact .const hlookup harity hsort
  | .list [] | .list (.list _ :: _) => simp [readOne, term] at h
  | .list (.symbol f :: args) =>
      obtain ⟨hargs, xs, mid, sig, hxs, haccepts, rfl, rfl⟩ := succeeds_app_iff.mp h
      exact .app hargs (yields_of_terms args hxs) haccepts

theorem yields_of_terms (es : List SExpr) {r r' : Reader} {xs : List Sentence}
    (h : Succeeds (readAll .term scope es) r xs r') : Yields .term scope es r xs r' := by
  match es with
  | [] =>
      obtain ⟨rfl, rfl⟩ := succeeds_readAll_nil_iff.mp h
      exact .nil
  | e :: es =>
      obtain ⟨s, mid, ys, hs, hys, rfl⟩ := succeeds_readAll_cons_iff.mp h
      exact .cons (yields_of_term e hs) (yields_of_terms es hys)

end

theorem yields_of_atom {name : String} (hatom : IsAtom name e)
    (h : Succeeds (atom scope name) r s r') : Yields .formula scope [e] r [s] r' := by
  obtain ⟨hlookup, ⟨sig, haccepts⟩, rfl, rfl⟩ := succeeds_atom_iff.mp h
  exact .atom hatom hlookup haccepts

/-- A head that is no keyword is a predicate, or an atom if there are no arguments. -/
theorem yields_of_predicate {head : String} {args : List SExpr}
    (hhead : Keyword.ofHead? head = none) (h : Succeeds (predicate scope head args) r s r') :
    Yields .formula scope [.list (.symbol head :: args)] r [s] r' := by
  cases args with
  | nil =>
      rw [predicate, List.isEmpty_nil, if_pos rfl] at h
      exact yields_of_atom (.list hhead) h
  | cons arg args =>
      have hargs : arg :: args ≠ [] := List.cons_ne_nil arg args
      obtain ⟨xs, mid, sig, hxs, haccepts, rfl, rfl⟩ := (succeeds_pred_iff hargs).mp h
      exact .pred hhead hargs (yields_of_terms _ hxs) haccepts

mutual

theorem yields_of_formula {scope : Scope} (e : SExpr) {r r' : Reader} {s : Sentence}
    (h : Succeeds (readOne .formula scope e) r s r') : Yields .formula scope [e] r [s] r' := by
  rw [readOne] at h
  unfold formula at h
  match e with
  | .symbol symbol => exact yields_of_atom .symbol h
  | .list [] | .list (.list _ :: _) => exact (Succeeds.throw_iff.mp h).elim
  | .list (.symbol head :: args) =>
      match hhead : Keyword.ofHead? head, args with
      | some .not, [x] =>
          simp only [hhead, Succeeds.bind_iff, succeeds_intern_iff] at h
          obtain ⟨y, mid, hy, rfl, rfl⟩ := h
          exact .connective hhead (yields_of_formula x hy) rfl
      | some .and, args | some .or, args =>
          simp only [hhead, Succeeds.bind_iff, succeeds_intern_iff] at h
          obtain ⟨xs, mid, hxs, rfl, rfl⟩ := h
          exact .connective hhead (yields_of_formulas args hxs) rfl
      | some .implies, [left, right] | some .iff, [left, right] =>
          simp only [hhead, Succeeds.bind_iff, succeeds_intern_iff] at h
          obtain ⟨x, mid, hx, y, mid', hy, rfl, rfl⟩ := h
          have hboth := Yields.cons (yields_of_formula left hx) (yields_of_formula right hy)
          exact .connective hhead hboth rfl
      | some .equals, args =>
          simp only [hhead] at h
          obtain ⟨hargs, xs, mid, hxs, rfl, rfl⟩ := succeeds_equality_iff.mp h
          exact .equal hhead hargs (yields_of_terms args hxs)
      | some .all, [b, x] | some .ex, [b, x] =>
          simp only [hhead, Succeeds.bind_iff, succeeds_intern_iff] at h
          obtain ⟨⟨name, v⟩, mid, hv, body, mid', hbody, rfl, rfl⟩ := h
          obtain ⟨hbinds, rfl⟩ := succeeds_binder_iff.mp hv
          exact .quantifier hhead hbinds (yields_of_formula x hbody) rfl
      | none, args =>
          simp only [hhead] at h
          exact yields_of_predicate hhead h
      | some .not, [] | some .not, _ :: _ :: _ | some .implies, [] | some .implies, [_]
      | some .implies, _ :: _ :: _ :: _
      | some .iff, [] | some .iff, [_] | some .iff, _ :: _ :: _ :: _
      | some .all, [] | some .all, [_] | some .all, _ :: _ :: _ :: _
      | some .ex, [] | some .ex, [_] | some .ex, _ :: _ :: _ :: _ =>
          simp only [hhead] at h
          exact (Succeeds.throw_iff.mp h).elim

theorem yields_of_formulas {scope : Scope} (es : List SExpr) {r r' : Reader} {xs : List Sentence}
    (h : Succeeds (readAll .formula scope es) r xs r') : Yields .formula scope es r xs r' := by
  match es with
  | [] =>
      obtain ⟨rfl, rfl⟩ := succeeds_readAll_nil_iff.mp h
      exact .nil
  | e :: es =>
      obtain ⟨s, mid, ys, hs, hys, rfl⟩ := succeeds_readAll_cons_iff.mp h
      exact .cons (yields_of_formula e hs) (yields_of_formulas es hys)

end

/-- Reading succeeds by the rules and in no other way. -/
theorem yields_iff :
    Yields category scope es r xs r' ↔ Succeeds (readAll category scope es) r xs r' := by
  refine ⟨Yields.succeeds, fun h => ?_⟩
  cases category with
  | term => exact yields_of_terms es h
  | formula => exact yields_of_formulas es h

/-! The steps of reading terms and formulas. -/

theorem proceeds_name (symbol : String) : Proceeds (name scope symbol) r := by
  have hconstant : ∀ q, Proceeds (do intern (.const symbol (← constantSort symbol))) q :=
    fun q => .bind (proceeds_constantSort symbol) fun _ _ _ => proceeds_intern _
  unfold name
  split
  · exact .pure _
  · refine .get_bind ?_
    simp only
    split
    · exact .bind (.discard proceeds_apply) fun _ mid _ => hconstant mid
    · exact hconstant r

mutual

theorem proceeds_term (e : SExpr) (r : Reader) : Proceeds (term scope e) r := by
  unfold term
  split
  · exact proceeds_name _
  · next f arg args =>
      refine .bind (proceeds_term arg r) fun _ mid _ => ?_
      refine .bind (proceeds_terms args mid) fun _ _ _ => ?_
      exact .bind proceeds_apply fun _ _ _ => proceeds_intern _
  · exact .throw _

theorem proceeds_terms (es : List SExpr) (r : Reader) : Proceeds (terms scope es) r := by
  unfold terms
  split
  · exact .pure _
  · next e es =>
      refine .bind (proceeds_term e r) fun _ mid _ => ?_
      exact .bind (proceeds_terms es mid) fun _ _ _ => .pure _

end

theorem proceeds_atom (symbol : String) : Proceeds (atom scope symbol) r := by
  unfold atom
  split
  · exact .throw _
  · exact .bind (.discard proceeds_apply) fun _ _ _ => proceeds_intern _

theorem proceeds_binder (e : SExpr) : Proceeds (binder e) r := by
  unfold binder
  split
  · exact .bind (proceeds_intern _) fun _ _ _ => .pure _
  · refine .bind (proceeds_sort _) fun _ _ _ => ?_
    exact .bind (proceeds_intern _) fun _ _ _ => .pure _
  · exact .throw _

theorem proceeds_predicate (head : String) (args : List SExpr) :
    Proceeds (predicate scope head args) r := by
  unfold predicate
  split
  · exact proceeds_atom _
  · refine .bind (proceeds_terms args r) fun _ _ _ => ?_
    exact .bind (.discard proceeds_apply) fun _ _ _ => proceeds_intern _

theorem proceeds_equality (e : SExpr) (args : List SExpr) :
    Proceeds (equality scope e args) r := by
  unfold equality
  split
  · exact .throw _
  · exact .bind (proceeds_terms args r) fun _ _ _ => proceeds_intern _

mutual

theorem proceeds_formula {scope : Scope} (e : SExpr) (r : Reader) :
    Proceeds (formula scope e) r := by
  unfold formula
  split
  · exact proceeds_atom _
  · next head args =>
      split
      · next x _ => exact .bind (proceeds_formula x r) fun _ _ _ => proceeds_intern _
      · exact .throw _
      · exact .bind (proceeds_formulas _ r) fun _ _ _ => proceeds_intern _
      · exact .bind (proceeds_formulas _ r) fun _ _ _ => proceeds_intern _
      · next left right _ =>
          refine .bind (proceeds_formula left r) fun _ mid _ => ?_
          exact .bind (proceeds_formula right mid) fun _ _ _ => proceeds_intern _
      · next left right _ =>
          refine .bind (proceeds_formula left r) fun _ mid _ => ?_
          exact .bind (proceeds_formula right mid) fun _ _ _ => proceeds_intern _
      · exact .throw _
      · exact .throw _
      · exact proceeds_equality _ _
      · next b x _ =>
          refine .bind (proceeds_binder b) fun _ mid _ => ?_
          exact .bind (proceeds_formula x mid) fun _ _ _ => proceeds_intern _
      · next b x _ =>
          refine .bind (proceeds_binder b) fun _ mid _ => ?_
          exact .bind (proceeds_formula x mid) fun _ _ _ => proceeds_intern _
      · exact .throw _
      · exact .throw _
      · exact proceeds_predicate _ _
  · exact .throw _

theorem proceeds_formulas {scope : Scope} (es : List SExpr) (r : Reader) :
    Proceeds (formulas scope es) r := by
  unfold formulas
  split
  · exact .pure _
  · next e es =>
      refine .bind (proceeds_formula e r) fun _ mid _ => ?_
      exact .bind (proceeds_formulas es mid) fun _ _ _ => .pure _

end

/-- What the rules yield is reached step by step. -/
theorem Yields.steps (h : Yields category scope es r xs r') : Steps r r' := by
  have hsucceeds := h.succeeds
  cases category with
  | term => exact (proceeds_terms es r).steps_of_succeeds hsucceeds
  | formula => exact (proceeds_formulas es r).steps_of_succeeds hsucceeds

end Reader

end Tableau
