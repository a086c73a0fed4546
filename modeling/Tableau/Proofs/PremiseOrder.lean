/-
The order of premises.  A name that has been used for a function cannot be used for a
constant afterwards, but a name that has been used for a constant may become one for a
function.  In this way, and in no other, it depends on the order of premises whether they
can be read.  What they are read as does not depend on it.
-/
import Tableau.Proofs.Knowledge
import Tableau.Proofs.Layout
import Tableau.Proofs.Section

namespace Tableau

/-- A use of a name in a term. -/
inductive NameUse where
  | constant (name : String)
  | function (name : String)
deriving DecidableEq

/-- Whether one use may come before another. -/
def NameUse.mayPrecede : NameUse → NameUse → Bool
  | .function name, .constant name' => name != name'
  | _, _ => true

/-- No name is used for a function and later for a constant. -/
def InOrder (uses : List NameUse) : Prop := uses.Pairwise (·.mayPrecede · = true)

instance (uses : List NameUse) : Decidable (InOrder uses) :=
  inferInstanceAs (Decidable (uses.Pairwise _))

/-- No name is used both for a function and for a constant: any use may precede any other. -/
def UsesNamesApart (uses : List NameUse) : Prop := ∀ u ∈ uses, ∀ u' ∈ uses, u.mayPrecede u' = true

instance (uses : List NameUse) : Decidable (UsesNamesApart uses) :=
  inferInstanceAs (Decidable (∀ u ∈ uses, ∀ u' ∈ uses, u.mayPrecede u' = true))

theorem NameUse.mayPrecede_iff {u u' : NameUse} :
    u.mayPrecede u' = true ↔ ∀ name, u = .function name → u' ≠ .constant name := by
  cases u <;> cases u' <;> grind [mayPrecede]

theorem UsesNamesApart.inOrder_of_perm {uses uses' : List NameUse} (h : UsesNamesApart uses)
    (hperm : uses.Perm uses') : InOrder uses' :=
  List.pairwise_of_forall_mem_list fun u hu u' hu' =>
    h u (hperm.mem_iff.mpr hu) u' (hperm.mem_iff.mpr hu')

namespace Sentence

mutual

/-- The uses of names in the terms of a sentence, in the order of reading: that of a
function comes after those in its arguments. -/
def nameUses : Sentence → List NameUse
  | atom _ | var .. => []
  | const name _ => [.constant name]
  | app name _ xs => nameUsesAll xs ++ [.function name]
  | pred _ xs | conj xs | disj xs | equal xs => nameUsesAll xs
  | neg x => nameUses x
  | imp l r | iff l r | all l r | ex l r => nameUses l ++ nameUses r
termination_by structural s => s

def nameUsesAll : List Sentence → List NameUse
  | [] => []
  | x :: xs => nameUses x ++ nameUsesAll xs
termination_by structural xs => xs

end

theorem nameUsesAll_eq_flatMap (xs : List Sentence) : nameUsesAll xs = xs.flatMap nameUses := by
  induction xs with
  | nil => rfl
  | cons x xs ih => rw [nameUsesAll, ih, List.flatMap_cons]

theorem nameUsesAll_perm {xs xs' : List Sentence} (h : xs.Perm xs') :
    (nameUsesAll xs).Perm (nameUsesAll xs') := by
  rw [nameUsesAll_eq_flatMap, nameUsesAll_eq_flatMap]
  exact h.flatMap_right _

@[simp]
theorem nameUsesAll_singleton (x : Sentence) : nameUsesAll [x] = x.nameUses := by
  simp [nameUsesAll]

end Sentence

open Sentence

namespace Keyword

variable {keyword : Keyword} {xs : List Sentence} {v x s : Sentence}

theorem nameUses_of_connect? (h : keyword.connect? xs = some s) : s.nameUses = nameUsesAll xs := by
  unfold connect? at h
  split at h <;> cases h <;> simp [nameUses, nameUsesAll]

theorem nameUses_of_quantify? (h : keyword.quantify? v x = some s) :
    s.nameUses = v.nameUses ++ x.nameUses := by
  unfold quantify? at h
  split at h <;> cases h <;> rfl

end Keyword

namespace Reader

variable {r r₀ r' q q' R R' mid : Reader} {category : Category} {scope : Scope} {e : SExpr}
  {es es' : List SExpr} {s : Sentence} {xs : List Sentence} {uses uses' : List NameUse}
  {name f : String}

/-! Which names may be used for constants. -/

@[simp]
theorem allowsConstant_enter : (r.enter s).AllowsConstant name ↔ r.AllowsConstant name := by
  simp [AllowsConstant]

@[simp]
theorem allowsConstant_named : (r.named f).AllowsConstant name ↔ r.AllowsConstant name := by
  unfold named
  split <;> simp [AllowsConstant]

@[simp]
theorem allowsConstant_used_predicate {arity : Nat} :
    (r.used .predicate f arity).AllowsConstant name ↔ r.AllowsConstant name := by
  unfold used
  split <;> simp [AllowsConstant, lookup_addSymbol]

theorem allowsConstant_used_function {args : List Sentence} {sig : Signature} (hargs : args ≠ [])
    (haccepts : (r.used .function f args.length).Accepts .function f args sig) :
    (r.used .function f args.length).AllowsConstant name ↔ r.AllowsConstant name ∧ name ≠ f := by
  have hpos : sig.arity ≠ 0 := by simp [haccepts.arity, hargs]
  have hf : ¬ (r.used .function f args.length).AllowsConstant f :=
    fun h => hpos (h sig haccepts.known)
  cases hr : (r.symbols .function).lookup f with
  | some known =>
      rw [used_of_some hr] at hf ⊢
      refine ⟨fun h => ⟨h, ?_⟩, And.left⟩
      rintro rfl
      exact hf h
  | none =>
      rw [used_of_none hr] at hf ⊢
      by_cases hname : name = f
      · subst hname
        simpa using hf
      · simp [AllowsConstant, lookup_addSymbol, hname]

theorem Yields.ne_nil (h : Yields category scope es r xs r') (hes : es ≠ []) : xs ≠ [] := by
  have hlength := length_of_succeeds_readAll h.succeeds
  rintro rfl
  exact hes (List.length_eq_zero_iff.mp hlength.symm)

/-- Reading makes functions of the names that it uses so, and of no others. -/
theorem Yields.allowsConstant_iff (h : Yields category scope es r xs r') (hscope : IsNamed scope) :
    r'.AllowsConstant name ↔ r.AllowsConstant name ∧ .function name ∉ nameUsesAll xs := by
  induction h with
  | nil => simp [nameUsesAll]
  | cons _ _ ihe ihes =>
      rw [ihes hscope, ihe hscope]
      simp [nameUsesAll, and_assoc]
  | var hlookup =>
      obtain ⟨sort, rfl⟩ := hscope _ _ hlookup
      simp [nameUses]
  | const => simp [nameUses]
  | app hargs hxs haccepts ih =>
      rw [allowsConstant_enter, allowsConstant_used_function (hxs.ne_nil hargs) haccepts, ih hscope]
      simp [nameUses, and_assoc]
  | atom => simp [nameUses]
  | pred _ _ _ _ ih => simpa [nameUses] using ih hscope
  | equal _ _ _ ih => simpa [nameUses] using ih hscope
  | connective _ _ hs ih => simpa [Keyword.nameUses_of_connect? hs] using ih hscope
  | quantifier _ hbinds _ hs ih =>
      have hbody := ih (hscope.cons hbinds)
      obtain ⟨sort, rfl⟩ := hbinds.exists_var
      simpa [Keyword.nameUses_of_quantify? hs, nameUses] using hbody

/-- A reader admits uses of names, one after the other. -/
structure Admits (r : Reader) (uses : List NameUse) : Prop where
  inOrder : InOrder uses
  allowed : ∀ name, .constant name ∈ uses → r.AllowsConstant name

namespace Admits

theorem left (h : r.Admits (uses ++ uses')) : r.Admits uses :=
  ⟨(List.pairwise_append.mp h.inOrder).1, fun name hname =>
    h.allowed name (List.mem_append_left _ hname)⟩

/-- The uses that are still to come have to be admitted by a reader that has read the others. -/
theorem append_iff (h : Yields category scope es r xs mid) (hscope : IsNamed scope) :
    r.Admits (nameUsesAll xs ++ uses) ↔ r.Admits (nameUsesAll xs) ∧ mid.Admits uses := by
  constructor
  · intro hboth
    obtain ⟨-, hright, hacross⟩ := List.pairwise_append.mp hboth.inOrder
    refine ⟨hboth.left, hright, fun name hname =>
      (h.allowsConstant_iff hscope).mpr ⟨?_, fun hf => ?_⟩⟩
    · exact hboth.allowed name (List.mem_append_right _ hname)
    · exact NameUse.mayPrecede_iff.mp (hacross _ hf _ hname) name rfl rfl
  · rintro ⟨hleft, hright⟩
    have hafter : ∀ name, .constant name ∈ uses →
        r.AllowsConstant name ∧ .function name ∉ nameUsesAll xs :=
      fun name hname => (h.allowsConstant_iff hscope).mp (hright.allowed name hname)
    refine ⟨List.pairwise_append.mpr ⟨hleft.inOrder, hright.inOrder, fun u hu u' hu' => ?_⟩, ?_⟩
    · refine NameUse.mayPrecede_iff.mpr ?_
      rintro name rfl rfl
      exact (hafter name hu').2 hu
    · intro name hname
      rcases List.mem_append.mp hname with hname | hname
      · exact hleft.allowed name hname
      · exact (hafter name hname).1

theorem append_function_iff : r.Admits (uses ++ [.function f]) ↔ r.Admits uses := by
  refine ⟨left, fun h =>
    ⟨List.pairwise_append.mpr ⟨h.inOrder, List.pairwise_singleton _ _, ?_⟩, ?_⟩⟩
  · intro u _ u' hu'
    rw [List.mem_singleton.mp hu']
    cases u <;> rfl
  · exact fun name hname => h.allowed name (by simpa using hname)

end Admits

/-- A reader that has succeeded has admitted all uses. -/
theorem Yields.admits (h : Yields category scope es r xs r') (hscope : IsNamed scope) :
    r.Admits (nameUsesAll xs) := by
  have hnil : ∀ r : Reader, r.Admits [] := fun r => ⟨.nil, nofun⟩
  induction h with
  | nil => exact hnil _
  | @cons _ _ _ _ s _ _ _ _ he _ ihe ihes =>
      rw [nameUsesAll, ← nameUsesAll_singleton]
      exact (Admits.append_iff he hscope).mpr ⟨ihe hscope, ihes hscope⟩
  | var hlookup =>
      obtain ⟨sort, rfl⟩ := hscope _ _ hlookup
      exact hnil _
  | const _ hallows =>
      exact ⟨List.pairwise_singleton _ _, fun name hname => by
        obtain rfl : name = _ := by simpa [nameUses] using hname
        exact hallows⟩
  | app _ _ _ ih =>
      rw [nameUsesAll_singleton, nameUses]
      exact Admits.append_function_iff.mpr (ih hscope)
  | atom => exact hnil _
  | pred _ _ _ _ ih => simpa [nameUses] using ih hscope
  | equal _ _ _ ih => simpa [nameUses] using ih hscope
  | connective _ _ hs ih => simpa [Keyword.nameUses_of_connect? hs] using ih hscope
  | quantifier _ hbinds _ hs ih =>
      have hbody := ih (hscope.cons hbinds)
      obtain ⟨sort, rfl⟩ := hbinds.exists_var
      rw [nameUsesAll_singleton] at hbody ⊢
      rw [Keyword.nameUses_of_quantify? hs]
      exact ⟨hbody.inOrder, fun name hname => allowsConstant_enter.mp (hbody.allowed name hname)⟩

/-- What has been read once can be read by any reader that admits its uses of names, if both
have learnt no more than a third reader knows. -/
theorem Yields.of_admits (h : Yields category scope es q xs q') (hscope : IsNamed scope)
    (hq : Lags q' R) (hr : Lags r R) (hadmits : r.Admits (nameUsesAll xs)) :
    ∃ r', Yields category scope es r xs r' ∧ Lags r' R := by
  -- The induction follows the first reading.  Its states and those of `r` need not be
  -- comparable, but both stay behind `R`.
  induction h generalizing r with
  | nil => exact ⟨r, .nil, hr⟩
  | cons _ hes ihe ihes =>
      rw [nameUsesAll, ← nameUsesAll_singleton] at hadmits
      obtain ⟨mid, he, hmid⟩ := ihe hscope (hes.growsTo.lags.trans hq) hr hadmits.left
      obtain ⟨r', hes, hr'⟩ := ihes hscope hq hmid ((Admits.append_iff he hscope).mp hadmits).2
      exact ⟨r', .cons he hes, hr'⟩
  | var hlookup => exact ⟨r, .var hlookup, hr⟩
  | @const scope name sort q hlookup _ hsort =>
      have hknown := ((lags_enter ..).trans hq).constant hsort
      obtain ⟨hsort', hnamed⟩ := hr.named hknown
      have hallows := hadmits.allowed name (by simp [nameUses])
      exact ⟨_, .const hlookup hallows hsort', hnamed.enter _⟩
  | app hargs _ haccepts ih =>
      rw [nameUsesAll_singleton, nameUses] at hadmits
      have hknown := ((lags_enter ..).trans hq).accepts haccepts
      obtain ⟨mid, hxs, hmid⟩ := ih hscope ((lags_used ..).trans ((lags_enter ..).trans hq)) hr
        hadmits.left
      obtain ⟨haccepts', hused⟩ := hmid.used hknown
      exact ⟨_, .app hargs hxs haccepts', hused.enter _⟩
  | atom hatom hlookup haccepts =>
      have hknown := ((lags_enter ..).trans hq).accepts haccepts
      obtain ⟨haccepts', hused⟩ := @Lags.used _ _ _ _ [] _ hr hknown
      exact ⟨_, .atom hatom hlookup haccepts', hused.enter _⟩
  | pred hhead hargs _ haccepts ih =>
      rw [nameUsesAll_singleton, nameUses] at hadmits
      have hknown := ((lags_enter ..).trans hq).accepts haccepts
      obtain ⟨mid, hxs, hmid⟩ :=
        ih hscope ((lags_used ..).trans ((lags_enter ..).trans hq)) hr hadmits
      obtain ⟨haccepts', hused⟩ := hmid.used hknown
      exact ⟨_, .pred hhead hargs hxs haccepts', hused.enter _⟩
  | equal hhead hargs _ ih =>
      rw [nameUsesAll_singleton, nameUses] at hadmits
      obtain ⟨mid, hxs, hmid⟩ := ih hscope ((lags_enter ..).trans hq) hr hadmits
      exact ⟨_, .equal hhead hargs hxs, hmid.enter _⟩
  | connective hhead _ hs ih =>
      rw [nameUsesAll_singleton, Keyword.nameUses_of_connect? hs] at hadmits
      obtain ⟨mid, hxs, hmid⟩ := ih hscope ((lags_enter ..).trans hq) hr hadmits
      exact ⟨_, .connective hhead hxs hs, hmid.enter _⟩
  | @quantifier scope head name keyword b body v x s q mid hhead hbinds hbody hs ih =>
      have hmid : Lags mid R := (lags_enter ..).trans hq
      have hsorts : r.lexicon.sorts = q.lexicon.sorts := by
        rw [← hr.sorts, ((lags_enter q v).trans (hbody.growsTo.lags.trans hmid)).sorts]
      have hvar : v.nameUses = [] := by
        obtain ⟨sort, rfl⟩ := hbinds.exists_var
        rfl
      rw [nameUsesAll_singleton, Keyword.nameUses_of_quantify? hs, hvar] at hadmits
      have hadmits' : (r.enter v).Admits (nameUsesAll [x]) :=
        ⟨by simpa using hadmits.inOrder, by simpa using hadmits.allowed⟩
      obtain ⟨mid', hx, hmid'⟩ := ih (hscope.cons hbinds) hmid (hr.enter v) hadmits'
      exact ⟨_, .quantifier hhead (hsorts ▸ hbinds) hx hs, hmid'.enter _⟩

/-- A reader that knows less reads the same way. -/
theorem Yields.of_lags (h : Yields category scope es R xs R') (hscope : IsNamed scope)
    (hlags : Lags r R) : ∃ r', Yields category scope es r xs r' ∧ Lags r' R' := by
  have hadmits := h.admits hscope
  refine h.of_admits hscope (.refl R') (hlags.trans h.growsTo.lags) ⟨hadmits.inOrder, ?_⟩
  exact fun name hname => hlags.allowsConstant (hadmits.allowed name hname)

/-! Lists of formulas, in any order. -/

theorem yields_cons_iff :
    Yields category scope (e :: es) r xs r' ↔
      ∃ s mid ys, Yields category scope [e] r [s] mid ∧ Yields category scope es mid ys r' ∧
        xs = s :: ys := by
  constructor
  · intro h
    obtain ⟨s, mid, ys, hs, hys, rfl⟩ := succeeds_readAll_cons_iff.mp (yields_iff.mp h)
    have hone := yields_iff.mpr (succeeds_readAll_singleton_iff.mpr ⟨s, rfl, hs⟩)
    exact ⟨s, mid, ys, hone, yields_iff.mpr hys, rfl⟩
  · rintro ⟨s, mid, ys, he, hes, rfl⟩
    exact .cons he hes

/-- What a reader reads an expression as, if it is a formula. -/
def meaning (r : Reader) (e : SExpr) : Sentence :=
  match ((formula [] e).run.run r).1 with
  | .ok s => s
  | .error _ => default

theorem Yields.meaning_eq (h : Yields .formula [] [e] r [s] r') : r.meaning e = s := by
  obtain ⟨_, ⟨⟩, hs⟩ := succeeds_readAll_singleton_iff.mp (yields_iff.mp h)
  have hrun : (formula [] e).run.run r = (.ok s, r') := hs
  rw [meaning, hrun]

/-- An expression has been read as a sentence by someone who had learnt no more than a reader
knows. -/
def Recalls (R : Reader) (e : SExpr) (s : Sentence) : Prop :=
  ∃ q q', Yields .formula [] [e] q [s] q' ∧ Lags q' R

/-- Formulas mean the same at any place of a list as they do at its beginning. -/
theorem Yields.eq_map_meaning (h : Yields .formula [] es r xs R) (hlags : Lags r₀ r) :
    xs = es.map r₀.meaning ∧ ∀ e ∈ es, R.Recalls e (r₀.meaning e) := by
  induction es generalizing r xs with
  | nil =>
      obtain ⟨rfl, -⟩ := succeeds_readAll_nil_iff.mp (yields_iff.mp h)
      simp
  | cons e es ih =>
      obtain ⟨s, mid, ys, he, hes, rfl⟩ := yields_cons_iff.mp h
      obtain ⟨hys, hrecalls⟩ := ih hes (hlags.trans he.growsTo.lags)
      obtain ⟨_, hfirst, -⟩ := he.of_lags isNamed_nil hlags
      have hs := hfirst.meaning_eq
      refine ⟨by rw [List.map_cons, hs, hys], List.forall_mem_cons.mpr ⟨?_, hrecalls⟩⟩
      exact ⟨r, mid, hs.symm ▸ he, hes.growsTo.lags⟩

theorem exists_yields_of_recalls {f : SExpr → Sentence} (hes : ∀ e ∈ es, R.Recalls e (f e))
    (hr : Lags r R) (hadmits : r.Admits (nameUsesAll (es.map f))) :
    ∃ r', Yields .formula [] es r (es.map f) r' := by
  induction es generalizing r with
  | nil => exact ⟨r, .nil⟩
  | cons e es ih =>
      obtain ⟨⟨q, q', hq, hlags⟩, hes⟩ := List.forall_mem_cons.mp hes
      rw [List.map_cons, nameUsesAll, ← nameUsesAll_singleton] at hadmits
      obtain ⟨mid, he, hmid⟩ := hq.of_admits isNamed_nil hlags hr hadmits.left
      obtain ⟨r', hrest⟩ := ih hes hmid ((Admits.append_iff he isNamed_nil).mp hadmits).2
      exact ⟨r', .cons he hrest⟩

/-- If formulas have been read in one order, they can be read in another if and only if it
uses no name for a function and later for a constant. -/
theorem Yields.perm_iff (h : Yields .formula [] es r xs R) (hperm : es.Perm es') :
    (∃ xs' R', Yields .formula [] es' r xs' R') ↔ InOrder (nameUsesAll (es'.map r.meaning)) := by
  obtain ⟨rfl, hrecalls⟩ := h.eq_map_meaning (.refl r)
  constructor
  · rintro ⟨xs', R', h'⟩
    obtain ⟨rfl, -⟩ := h'.eq_map_meaning (.refl r)
    exact (h'.admits isNamed_nil).inOrder
  · intro horder
    have huses := nameUsesAll_perm (hperm.map r.meaning)
    have hadmits : r.Admits (nameUsesAll (es'.map r.meaning)) :=
      ⟨horder, fun name hname => (h.admits isNamed_nil).allowed name (huses.mem_iff.mpr hname)⟩
    obtain ⟨R', h'⟩ := exists_yields_of_recalls (fun e he => hrecalls e (hperm.mem_iff.mpr he))
      h.growsTo.lags hadmits
    exact ⟨_, R', h'⟩

/-- The sections of a text with declarations and then premises. -/
def sections (ds ps : List SExpr) : List SExpr :=
  [.list (.symbol "declarations" :: ds), .list (.symbol "premises" :: ps)]

theorem succeeds_problem_iff {ds ps : List SExpr} {problem : Problem} :
    Succeeds (Reader.problem (sections ds ps)) r problem r' ↔
      ∃ r₀ xs, Succeeds (declarations ds) r () r₀ ∧ Yields .formula [] ps r₀ xs r' ∧
        problem = { premises := xs } := by
  have hdeclarations : Text.lowercase "declarations" = "declarations" := by decide +kernel
  have hpremises : Text.lowercase "premises" = "premises" := by decide +kernel
  have hfirst : (SExpr.list (.symbol "declarations" :: ds)).asSection? =
      some (.declarations, ds) := by
    simp [SExpr.asSection?, SectionKind.ofHead?, hdeclarations]
  have hsecond : (SExpr.list (.symbol "premises" :: ps)).asSection? = some (.premises, ps) := by
    simp [SExpr.asSection?, SectionKind.ofHead?, hpremises]
  simp only [Reader.problem, sections, readSections, readSection_eq_readBody hfirst,
    readSection_eq_readBody hsecond, readBody, Succeeds.bind_iff, Succeeds.pure_iff, yields_iff]
  constructor
  · rintro ⟨_, _, ⟨⟨⟩, mid, hds, rfl, rfl⟩, _, _, ⟨xs, _, hxs, rfl, rfl⟩, rfl, rfl⟩
    exact ⟨_, xs, hds, hxs, rfl⟩
  · rintro ⟨r₀, xs, hds, hxs, rfl⟩
    exact ⟨_, r₀, ⟨(), r₀, hds, rfl, rfl⟩, _, r', ⟨xs, r', hxs, rfl, rfl⟩, rfl, rfl⟩

end Reader

namespace Problem

variable {lexicon lexicon' : Lexicon} {text text' : String} {problem : Problem}
  {ds ps ps' : List SExpr}

/-- After the same declarations, premises are read from the same state. -/
theorem exists_read_iff {r₀ : Reader} (htext : SExpr.read text = .ok (Reader.sections ds ps))
    (hds : Reader.Succeeds (Reader.declarations ds) { lexicon } () r₀) :
    (∃ lexicon', read lexicon text = (.ok problem, lexicon')) ↔
      ∃ xs R, Reader.Yields .formula [] ps r₀ xs R ∧ problem = { premises := xs } := by
  simp only [read_eq_ok_iff htext, Reader.succeeds_problem_iff]
  constructor
  · rintro ⟨_, R, ⟨r₁, xs, hds', hps, rfl⟩, -⟩
    obtain ⟨-, rfl⟩ := Prod.mk.inj (hds.symm.trans hds')
    exact ⟨xs, R, hps, rfl⟩
  · rintro ⟨xs, R, hps, rfl⟩
    exact ⟨_, R, ⟨r₀, xs, hds, hps, rfl⟩, rfl⟩

/-- The order of premises does not matter for what they are read as.  If they can be read in
one order, they can be read in another if and only if it uses no name for a function and
later for a constant; so they can be read in all orders if no name is used for both. -/
theorem read_perm_iff (hperm : ps.Perm ps') (htext : SExpr.read text = .ok (Reader.sections ds ps))
    (htext' : SExpr.read text' = .ok (Reader.sections ds ps'))
    (hread : read lexicon text = (.ok problem, lexicon')) :
    ∃ meaning : SExpr → Sentence, problem = { premises := ps.map meaning } ∧
      (∀ problem' lexicon'', read lexicon text' = (.ok problem', lexicon'') →
        problem' = { premises := ps'.map meaning }) ∧
      ((∃ problem' lexicon'', read lexicon text' = (.ok problem', lexicon'')) ↔
        InOrder (nameUsesAll (ps'.map meaning))) ∧
      (UsesNamesApart (nameUsesAll problem.premises) →
        ∃ lexicon'', read lexicon text' = (.ok { premises := ps'.map meaning }, lexicon'')) := by
  obtain ⟨R, hrun, -⟩ := (read_eq_ok_iff htext).mp hread
  obtain ⟨r₀, xs, hds, hps, rfl⟩ := Reader.succeeds_problem_iff.mp hrun
  obtain ⟨rfl, -⟩ := hps.eq_map_meaning (.refl r₀)
  have hsame : ∀ problem' lexicon'', read lexicon text' = (.ok problem', lexicon'') →
      problem' = { premises := ps'.map r₀.meaning } := by
    intro problem' lexicon'' hread'
    obtain ⟨xs', R', hps', rfl⟩ := (exists_read_iff htext' hds).mp ⟨lexicon'', hread'⟩
    rw [(hps'.eq_map_meaning (.refl r₀)).1]
  have hiff : (∃ problem' lexicon'', read lexicon text' = (.ok problem', lexicon'')) ↔
      InOrder (nameUsesAll (ps'.map r₀.meaning)) := by
    rw [← hps.perm_iff hperm]
    constructor
    · rintro ⟨problem', hread'⟩
      obtain ⟨xs', R', hps', -⟩ := (exists_read_iff htext' hds).mp hread'
      exact ⟨xs', R', hps'⟩
    · rintro ⟨xs', R', hps'⟩
      exact ⟨_, (exists_read_iff htext' hds).mpr ⟨xs', R', hps', rfl⟩⟩
  refine ⟨r₀.meaning, rfl, hsame, hiff, fun hapart => ?_⟩
  have huses : (nameUsesAll (ps.map r₀.meaning)).Perm (nameUsesAll (ps'.map r₀.meaning)) :=
    nameUsesAll_perm (hperm.map _)
  obtain ⟨problem', lexicon'', hread'⟩ := hiff.mpr (hapart.inOrder_of_perm huses)
  exact ⟨lexicon'', hsame problem' lexicon'' hread' ▸ hread'⟩

/-- Three formulas with a constant, functions and a bound variable of the name of a function. -/
def mixedPremises : List SExpr :=
  [.list [.symbol "P", .list [.symbol "f", .list [.symbol "g", .symbol "a"]]],
    .list [.symbol "forall", .symbol "f", .list [.symbol "Q", .symbol "f", .symbol "b"]],
    .list [.symbol "P", .symbol "b"]]

theorem read_perm_iff_reverse :
    let text := "(declarations (constant b)) (premises (P (f (g a))) (forall f (Q f b)) (P b))"
    let text' := "(declarations (constant b)) (premises (P b) (forall f (Q f b)) (P (f (g a))))"
    let ds : List SExpr := [.list [.symbol "constant", .symbol "b"]]
    mixedPremises.Perm mixedPremises.reverse ∧
      SExpr.read text = .ok (Reader.sections ds mixedPremises) ∧
      SExpr.read text' = .ok (Reader.sections ds mixedPremises.reverse) ∧
      ∃ problem lexicon' problem' lexicon'', read {} text = (.ok problem, lexicon') ∧
        UsesNamesApart (nameUsesAll problem.premises) ∧
        read {} text' = (.ok problem', lexicon'') ∧
        ∃ meaning, problem.premises = mixedPremises.map meaning ∧
          problem'.premises = mixedPremises.reverse.map meaning := by
  intro text text' ds
  have hperm : mixedPremises.Perm mixedPremises.reverse := (List.reverse_perm _).symm
  have htext : SExpr.read text = .ok (Reader.sections ds mixedPremises) :=
    SExpr.read_of_tokens (by decide +kernel)
  have htext' : SExpr.read text' = .ok (Reader.sections ds mixedPremises.reverse) :=
    SExpr.read_of_tokens (by decide +kernel)
  obtain ⟨problem, lexicon', hread, htest⟩ := exists_read_of_any {} text
    (fun problem _ => decide (UsesNamesApart (nameUsesAll problem.premises))) (by decide +kernel)
  have hapart := of_decide_eq_true htest
  obtain ⟨meaning, rfl, -, -, hreads⟩ := read_perm_iff hperm htext htext' hread
  obtain ⟨lexicon'', hread'⟩ := hreads hapart
  exact ⟨hperm, htext, htext', _, lexicon', _, lexicon'', hread, hapart, hread', meaning, rfl, rfl⟩

/-- The order of premises may matter for whether they can be read: here a name is used for a
constant in one premise and for a function in the other. -/
theorem not_read_of_swap :
    let text := "(declarations) (premises (P a) (P (a b)))"
    let text' := "(declarations) (premises (P (a b)) (P a))"
    let p : SExpr := .list [.symbol "P", .symbol "a"]
    let p' : SExpr := .list [.symbol "P", .list [.symbol "a", .symbol "b"]]
    SExpr.read text = .ok (Reader.sections [] [p, p']) ∧
      SExpr.read text' = .ok (Reader.sections [] [p', p]) ∧
      (∃ problem lexicon', read {} text = (.ok problem, lexicon')) ∧
      ¬ ∃ problem lexicon', read {} text' = (.ok problem, lexicon') := by
  intro text text' p p'
  refine ⟨SExpr.read_of_tokens (by decide +kernel),
    SExpr.read_of_tokens (by decide +kernel), ?_, ?_⟩
  · obtain ⟨problem, lexicon', hread, -⟩ := exists_read_of_any {} text (fun _ _ => true)
      (by decide +kernel)
    exact ⟨problem, lexicon', hread⟩
  · rintro ⟨problem, lexicon', hread⟩
    have hfails : (read {} text').1.toOption.isSome = false := by decide +kernel
    rw [hread] at hfails
    contradiction

end Problem

end Tableau
