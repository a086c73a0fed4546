/-
What a reader knows.  Reading adds to the tables of a reader what a first use teaches and
changes nothing in them.  A reader that knows less learns the same from the same uses, and
of what has been read, a reader knows all symbols.
-/
import Tableau.Proofs.Derivation
import Tableau.Proofs.Lexicon

namespace Tableau

namespace Reader

/-- An entry of a table against the entry of one that has learnt more: the same, or none
where the other has what a first use teaches. -/
def LagsAt {α : Type} (IsTaught : α → Prop) (entry entry' : Option α) : Prop :=
  entry = entry' ∨ entry = none ∧ ∃ a, entry' = some a ∧ IsTaught a

namespace LagsAt

variable {α : Type} {IsTaught : α → Prop} {entry entry' entry'' : Option α} {a : α}

theorem refl (entry : Option α) : LagsAt IsTaught entry entry := Or.inl rfl

theorem trans (h : LagsAt IsTaught entry entry') (h' : LagsAt IsTaught entry' entry'') :
    LagsAt IsTaught entry entry'' := by
  rcases h with rfl | ⟨rfl, a, rfl, ha⟩
  · exact h'
  · rcases h' with rfl | ⟨hnone, -⟩
    · exact Or.inr ⟨rfl, a, rfl, ha⟩
    · contradiction

theorem eq_some (h : LagsAt IsTaught (some a) entry) : entry = some a := by
  rcases h with rfl | ⟨hnone, -⟩
  · rfl
  · contradiction

end LagsAt

/-- A reader knows the sorts of another, nothing else than the other of symbols and
constants, and lacks only what a first use teaches. -/
structure Lags (r r' : Reader) : Prop where
  sorts : r'.lexicon.sorts = r.lexicon.sorts
  symbols : ∀ kind name, LagsAt (fun sig => ∃ arity, sig = { arity })
    ((r.symbols kind).lookup name) ((r'.symbols kind).lookup name)
  constants : ∀ name, LagsAt (· = SortId.object) (r.constants.lookup name)
    (r'.constants.lookup name)

variable {r r' r'' R R' : Reader} {kind : SymbolKind} {name : String} {args : List Sentence}
  {sig : Signature} {sort : SortId} {s : Sentence}

namespace Lags

theorem refl (r : Reader) : Lags r r := ⟨rfl, fun _ _ => .refl _, fun _ => .refl _⟩

theorem trans (h : Lags r r') (h' : Lags r' r'') : Lags r r'' where
  sorts := h'.sorts.trans h.sorts
  symbols kind name := (h.symbols kind name).trans (h'.symbols kind name)
  constants name := (h.constants name).trans (h'.constants name)

theorem known (h : Lags r r') (hknown : (r.symbols kind).lookup name = some sig) :
    (r'.symbols kind).lookup name = some sig := by
  have hat := h.symbols kind name
  rw [hknown] at hat
  exact hat.eq_some

theorem constant (h : Lags r r') (hknown : r.constants.lookup name = some sort) :
    r'.constants.lookup name = some sort := by
  have hat := h.constants name
  rw [hknown] at hat
  exact hat.eq_some

theorem accepts (h : Lags r r') (haccepts : r.Accepts kind name args sig) :
    r'.Accepts kind name args sig where
  known := h.known haccepts.known
  arity := haccepts.arity
  fits := h.sorts ▸ haccepts.fits

/-- A name that may be used for a constant now could be so used before. -/
theorem allowsConstant (h : Lags r r') (hallows : r'.AllowsConstant name) : r.AllowsConstant name :=
  fun sig hsig => hallows sig (h.known hsig)

end Lags

/-! The steps of reading. -/

theorem lookup_cons_eq {α : Type} (name name' : String) (a : α) (table : List (String × α)) :
    ((name, a) :: table).lookup name' = if name' = name then some a else table.lookup name' := by
  by_cases h : name' = name
  · simp [h]
  · simp [List.lookup_cons, beq_eq_false_iff_ne.mpr h, h]

theorem lookup_addSymbol (r : Reader) (kind kind' : SymbolKind) (name name' : String)
    (sig : Signature) :
    ((r.addSymbol name sig kind).symbols kind').lookup name' =
      if kind' = kind ∧ name' = name then some sig else (r.symbols kind').lookup name' := by
  cases kind <;> cases kind' <;> simp [addSymbol, symbols, lookup_cons_eq]

@[simp]
theorem symbols_enter (r : Reader) (s : Sentence) (kind : SymbolKind) :
    (r.enter s).symbols kind = r.symbols kind := by
  cases kind <;> rfl

@[simp]
theorem symbols_addConstant (r : Reader) (name : String) (sort : SortId) (kind : SymbolKind) :
    (r.addConstant name sort).symbols kind = r.symbols kind := by
  cases kind <;> rfl

@[simp]
theorem constants_addSymbol (r : Reader) (name : String) (sig : Signature) (kind : SymbolKind) :
    (r.addSymbol name sig kind).constants = r.constants := by
  cases kind <;> rfl

theorem lags_enter (r : Reader) (s : Sentence) : Lags r (r.enter s) := by
  refine ⟨Lexicon.sorts_intern r.lexicon s, fun kind name => ?_, fun _ => .refl _⟩
  rw [symbols_enter]
  exact .refl _

theorem lags_used (r : Reader) (kind : SymbolKind) (name : String) (arity : Nat) :
    Lags r (r.used kind name arity) := by
  cases h : (r.symbols kind).lookup name with
  | some sig =>
      rw [used_of_some h]
      exact .refl r
  | none =>
      rw [used_of_none h]
      refine ⟨by simp, fun kind' name' => ?_, fun _ => by simpa using .refl _⟩
      rw [lookup_addSymbol]
      split
      · next heq =>
          obtain ⟨rfl, rfl⟩ := heq
          exact Or.inr ⟨h, _, rfl, arity, rfl⟩
      · exact .refl _

theorem lags_named (r : Reader) (name : String) : Lags r (r.named name) := by
  cases h : r.constants.lookup name with
  | some sort =>
      rw [named_of_some h]
      exact .refl r
  | none =>
      rw [named_of_none h]
      refine ⟨rfl, fun kind name => by simpa using .refl _, fun name' => ?_⟩
      rw [addConstant, lookup_cons_eq]
      split
      · next heq => exact Or.inr ⟨heq ▸ h, _, rfl, rfl⟩
      · exact .refl _

/-! A reader that lags behind another learns from a use what the other knows. -/

theorem Lags.enter (h : Lags r R) (s : Sentence) : Lags (r.enter s) R := by
  refine ⟨h.sorts.trans (Lexicon.sorts_intern ..).symm, fun kind name => ?_, h.constants⟩
  rw [symbols_enter]
  exact h.symbols kind name

theorem Lags.addSymbol (h : Lags r R) (hknown : (R.symbols kind).lookup name = some sig) :
    Lags (r.addSymbol name sig kind) R := by
  refine ⟨by simpa using h.sorts, fun kind' name' => ?_, by simpa using h.constants⟩
  rw [lookup_addSymbol]
  split
  · next heq =>
      obtain ⟨rfl, rfl⟩ := heq
      exact Or.inl hknown.symm
  · exact h.symbols kind' name'

theorem Lags.addConstant (h : Lags r R) (hknown : R.constants.lookup name = some sort) :
    Lags (r.addConstant name sort) R := by
  refine ⟨h.sorts, by simpa using h.symbols, fun name' => ?_⟩
  rw [Reader.addConstant, lookup_cons_eq]
  split
  · next heq => exact Or.inl (heq ▸ hknown.symm)
  · exact h.constants name'

theorem Lags.used (h : Lags r R) (haccepts : R.Accepts kind name args sig) :
    (r.used kind name args.length).Accepts kind name args sig ∧
      Lags (r.used kind name args.length) R := by
  suffices hsuffices : ((r.used kind name args.length).symbols kind).lookup name = some sig ∧
      Lags (r.used kind name args.length) R by
    refine ⟨⟨hsuffices.1, haccepts.arity, ?_⟩, hsuffices.2⟩
    exact hsuffices.2.sorts ▸ haccepts.fits
  cases hr : (r.symbols kind).lookup name with
  | some known =>
      rw [used_of_some hr]
      exact ⟨hr.trans ((h.known hr).symm.trans haccepts.known), h⟩
  | none =>
      have hat := h.symbols kind name
      rw [hr, haccepts.known] at hat
      rcases hat with hnone | ⟨-, _, ⟨⟩, arity, rfl⟩
      · contradiction
      · obtain rfl : arity = args.length := haccepts.arity
        rw [used_of_none hr]
        exact ⟨lookup_addSymbol_self .., h.addSymbol haccepts.known⟩

theorem Lags.named (h : Lags r R) (hsort : R.constants.lookup name = some sort) :
    (r.named name).constants.lookup name = some sort ∧ Lags (r.named name) R := by
  cases hr : r.constants.lookup name with
  | some known =>
      rw [named_of_some hr]
      exact ⟨hr.trans ((h.constant hr).symm.trans hsort), h⟩
  | none =>
      have hat := h.constants name
      rw [hr, hsort] at hat
      rcases hat with hnone | ⟨-, _, ⟨⟩, rfl⟩
      · contradiction
      · rw [named_of_none hr]
        exact ⟨by simp [Reader.addConstant], h.addConstant hsort⟩

variable {category : Category} {scope : Scope} {es : List SExpr} {xs : List Sentence}

/-! A reader learns as it reads. -/

/-- A reader learns, and enters sentences. -/
structure GrowsTo (r r' : Reader) : Prop where
  lags : Lags r r'
  entries : r.lexicon.entries ⊆ r'.lexicon.entries

namespace GrowsTo

theorem refl (r : Reader) : GrowsTo r r := ⟨.refl r, List.Subset.refl _⟩

theorem trans (h : GrowsTo r r') (h' : GrowsTo r' r'') : GrowsTo r r'' :=
  ⟨h.lags.trans h'.lags, List.Subset.trans h.entries h'.entries⟩

end GrowsTo

theorem growsTo_enter (r : Reader) (s : Sentence) : GrowsTo r (r.enter s) :=
  ⟨lags_enter r s, (r.lexicon.extends_intern s).subset⟩

theorem growsTo_used (r : Reader) (kind : SymbolKind) (name : String) (arity : Nat) :
    GrowsTo r (r.used kind name arity) := by
  refine ⟨lags_used r kind name arity, ?_⟩
  rw [lexicon_used]
  exact List.Subset.refl _

theorem growsTo_named (r : Reader) (name : String) : GrowsTo r (r.named name) := by
  refine ⟨lags_named r name, ?_⟩
  unfold named
  split <;> exact List.Subset.refl _

theorem Yields.growsTo (h : Yields category scope es r xs r') : GrowsTo r r' := by
  induction h with
  | nil | var => exact .refl _
  | cons _ _ ihe ihes => exact ihe.trans ihes
  | const => exact (growsTo_named ..).trans (growsTo_enter ..)
  | app _ _ _ ih | pred _ _ _ _ ih => exact ih.trans ((growsTo_used ..).trans (growsTo_enter ..))
  | atom => exact (growsTo_used ..).trans (growsTo_enter ..)
  | equal _ _ _ ih | connective _ _ _ ih => exact ih.trans (growsTo_enter ..)
  | quantifier _ _ _ _ ih => exact (growsTo_enter ..).trans (ih.trans (growsTo_enter ..))

/-- A sentence that has been entered is not entered again. -/
theorem GrowsTo.enter_eq (h : GrowsTo (r.enter s) R) : R.enter s = R := by
  have hmem : s ∈ R.lexicon.entries := h.entries (r.lexicon.mem_entries_intern s)
  rw [enter, Lexicon.intern_of_mem hmem]

/-- A symbol that has been used is known. -/
theorem GrowsTo.accepts (h : GrowsTo (r.used kind name args.length) R)
    (haccepts : (r.used kind name args.length).Accepts kind name args sig) :
    R.used kind name args.length = R ∧ R.Accepts kind name args sig := by
  have hknown := h.lags.accepts haccepts
  exact ⟨used_of_some hknown.known, hknown⟩

theorem GrowsTo.constant (h : GrowsTo (r.named name) R)
    (hsort : (r.named name).constants.lookup name = some sort) :
    R.named name = R ∧ R.constants.lookup name = some sort := by
  have hknown := h.lags.constant hsort
  exact ⟨named_of_some hknown, hknown⟩

/-- What a reader knows of the symbol of a sentence, if it has one: it is applied to arguments
that it takes, and the sentence has the sort that the symbol gives it. -/
def Supports (r : Reader) : Sentence → Prop
  | .atom name => ∃ sig, r.Accepts .predicate name [] sig
  | .pred name xs => ∃ sig, r.Accepts .predicate name xs sig
  | .app name sort xs => ∃ sig, r.Accepts .function name xs sig ∧ sort = sig.result
  | .const name sort => r.constants.lookup name = some sort
  | _ => True

theorem Supports.mono (h : r.Supports s) (hlags : Lags r r') : r'.Supports s := by
  cases s with
  | atom | pred => exact h.imp fun _ haccepts => hlags.accepts haccepts
  | app => exact h.imp fun _ ⟨haccepts, hsort⟩ => ⟨hlags.accepts haccepts, hsort⟩
  | const => exact hlags.constant h
  | _ => trivial

/-- A reader knows all symbols of a sentence. -/
def SupportsAll (r : Reader) (s : Sentence) : Prop := ∀ t ∈ s.subsentences, r.Supports t

theorem SupportsAll.mono (h : r.SupportsAll s) (hlags : Lags r r') : r'.SupportsAll s :=
  fun t ht => (h t ht).mono hlags

theorem SupportsAll.of_parts (h : r.Supports s) (hparts : ∀ x ∈ s.parts, r.SupportsAll x) :
    r.SupportsAll s := by
  intro t ht
  rcases Sentence.mem_subsentences.mp ht with rfl | ⟨x, hx, htx⟩
  · exact h
  · exact hparts x hx t htx

theorem supports_of_connect? {keyword : Keyword} (h : keyword.connect? xs = some s) :
    r.Supports s := by
  unfold Keyword.connect? at h
  split at h <;> cases h <;> trivial

theorem supports_of_quantify? {keyword : Keyword} {v x : Sentence}
    (h : keyword.quantify? v x = some s) :
    r.Supports s := by
  unfold Keyword.quantify? at h
  split at h <;> cases h <;> trivial

/-- The names of a scope are those of the variables that they stand for. -/
def IsNamed (scope : Scope) : Prop :=
  ∀ name v, scope.lookup name = some v → ∃ sort, v = .var name sort

theorem isNamed_nil : IsNamed [] := nofun

theorem Binds.exists_var {sorts : Sorts} {e : SExpr} {v : Sentence} (h : Binds sorts e name v) :
    ∃ sort, v = .var name sort := by
  cases h with
  | plain => exact ⟨_, rfl⟩
  | sorted => exact ⟨_, rfl⟩

theorem IsNamed.cons {sorts : Sorts} {e : SExpr} {v : Sentence} (h : IsNamed scope)
    (hbinds : Binds sorts e name v) : IsNamed ((name, v) :: scope) := by
  intro name' v' hlookup
  rw [lookup_cons_eq] at hlookup
  split at hlookup
  · next heq =>
      cases hlookup
      exact heq ▸ hbinds.exists_var
  · exact h name' v' hlookup

/-- After reading, all symbols of what has been read are known. -/
theorem Yields.supports (h : Yields category scope es r xs r') (hscope : IsNamed scope) :
    ∀ x ∈ xs, r'.SupportsAll x := by
  have hvar : ∀ (r : Reader) name sort, r.SupportsAll (.var name sort) := fun _ _ _ =>
    .of_parts trivial (by simp [Sentence.parts])
  induction h with
  | nil => simp
  | cons _ hes ihe ihes =>
      have hs := ihe hscope _ List.mem_cons_self
      exact List.forall_mem_cons.mpr ⟨hs.mono hes.growsTo.lags, ihes hscope⟩
  | var hlookup =>
      obtain ⟨sort, rfl⟩ := hscope _ _ hlookup
      simpa using hvar _ _ sort
  | const _ _ hsort =>
      refine List.forall_mem_singleton.mpr (.of_parts ?_ (by simp [Sentence.parts]))
      exact (lags_enter ..).constant hsort
  | app _ _ haccepts ih =>
      refine List.forall_mem_singleton.mpr (.of_parts ⟨_, (lags_enter ..).accepts haccepts, rfl⟩ ?_)
      exact fun x hx => (ih hscope x hx).mono ((lags_used ..).trans (lags_enter ..))
  | atom _ _ haccepts =>
      refine List.forall_mem_singleton.mpr (.of_parts ⟨_, (lags_enter ..).accepts haccepts⟩ ?_)
      simp [Sentence.parts]
  | pred _ _ _ haccepts ih =>
      refine List.forall_mem_singleton.mpr (.of_parts ⟨_, (lags_enter ..).accepts haccepts⟩ ?_)
      exact fun x hx => (ih hscope x hx).mono ((lags_used ..).trans (lags_enter ..))
  | equal _ _ _ ih =>
      refine List.forall_mem_singleton.mpr (.of_parts trivial ?_)
      exact fun x hx => (ih hscope x hx).mono (lags_enter ..)
  | connective _ _ hs ih =>
      refine List.forall_mem_singleton.mpr (.of_parts (supports_of_connect? hs) ?_)
      rw [Keyword.parts_of_connect? hs]
      exact fun x hx => (ih hscope x hx).mono (lags_enter ..)
  | quantifier _ hbinds _ hs ih =>
      refine List.forall_mem_singleton.mpr (.of_parts (supports_of_quantify? hs) ?_)
      rw [Keyword.parts_of_quantify? hs]
      obtain ⟨sort, rfl⟩ := hbinds.exists_var
      have hbody := ih (hscope.cons hbinds) _ List.mem_cons_self
      simpa using ⟨hvar _ _ sort, hbody.mono (lags_enter ..)⟩

end Reader

/-- The name of a constant inside a sentence has a property. -/
def Sentence.ConstantsHave (P : String → Prop) (s : Sentence) : Prop :=
  ∀ name sort, Sentence.const name sort ∈ s.subsentences → P name

theorem Sentence.ConstantsHave.of_part {P : String → Prop} {s x : Sentence} (h : s.ConstantsHave P)
    (hx : x ∈ s.parts) : x.ConstantsHave P :=
  fun name sort hmem => h name sort (mem_subsentences_of_part hx hmem)

end Tableau
