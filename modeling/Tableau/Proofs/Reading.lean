/-
Reading step by step.  For each function of the reader there are two accounts: what it does
when it succeeds, and the steps in which it changes the state, even when it fails.  Whatever
else holds of reading follows from these accounts, which alone look into the functions.
-/
import Mathlib.Data.List.Basic
import Mathlib.Logic.Relation
import Tableau.Problem.Basic

namespace Tableau

/-- The sort that a name stands for, the root sort if there is no name. -/
def Sorts.resolve? (sorts : Sorts) : Option String → Option SortId
  | none => some SortId.object
  | some name => sorts.find? name

namespace Reader

variable {α β : Type} {m : ReadM α} {f : α → ReadM β} {r r' : Reader} {a : α} {b : β}

theorem run_bind (m : ReadM α) (f : α → ReadM β) (r : Reader) :
    (m >>= f).run.run r =
      match (m.run.run r).1 with
      | .ok a => (f a).run.run (m.run.run r).2
      | .error e => (.error e, (m.run.run r).2) := by
  rw [ExceptT.run_bind, StateT.run_bind]
  generalize m.run.run r = result
  obtain ⟨outcome, r'⟩ := result
  cases outcome <;> rfl

theorem run_get_bind (f : Reader → ReadM β) (r : Reader) :
    (get >>= f).run.run r = (f r).run.run r := rfl

/-- Reading from one state succeeds and ends in another. -/
def Succeeds (m : ReadM α) (r : Reader) (a : α) (r' : Reader) : Prop :=
  m.run.run r = (.ok a, r')

namespace Succeeds

@[simp]
theorem pure_iff {a' : α} : Succeeds (pure a) r a' r' ↔ a' = a ∧ r' = r := by
  constructor
  · rintro ⟨⟩
    exact ⟨rfl, rfl⟩
  · rintro ⟨rfl, rfl⟩
    rfl

@[simp]
theorem throw_iff {e : ReadError} : Succeeds (throw e : ReadM α) r a r' ↔ False :=
  iff_of_false (fun h => nomatch h) id

@[simp]
theorem bind_iff :
    Succeeds (m >>= f) r b r' ↔ ∃ a mid, Succeeds m r a mid ∧ Succeeds (f a) mid b r' := by
  unfold Succeeds
  rw [run_bind]
  obtain ⟨outcome, mid⟩ := m.run.run r
  cases outcome with
  | error e =>
      refine iff_of_false (fun h => nomatch h) ?_
      rintro ⟨a, mid', h, -⟩
      exact nomatch h
  | ok a =>
      constructor
      · exact fun h => ⟨a, mid, rfl, h⟩
      · rintro ⟨a', mid', ⟨⟩, h⟩
        exact h

@[simp]
theorem map_iff {g : α → β} : Succeeds (g <$> m) r b r' ↔ ∃ a, Succeeds m r a r' ∧ b = g a := by
  rw [← bind_pure_comp, bind_iff]
  simp only [pure_iff]
  constructor
  · rintro ⟨a, mid, hm, rfl, rfl⟩
    exact ⟨a, hm, rfl⟩
  · rintro ⟨a, hm, rfl⟩
    exact ⟨a, r', hm, rfl, rfl⟩

@[simp]
theorem discard_iff {u : Unit} : Succeeds (discard m) r u r' ↔ ∃ a, Succeeds m r a r' := by
  simp [discard, Functor.discard, map_const]

@[simp]
theorem set_iff {q : Reader} {u : Unit} : Succeeds (set q : ReadM Unit) r u r' ↔ r' = q := by
  constructor
  · rintro ⟨⟩
    rfl
  · rintro rfl
    rfl

@[simp]
theorem modify_iff {g : Reader → Reader} {u : Unit} :
    Succeeds (modify g : ReadM Unit) r u r' ↔ r' = g r := by
  constructor
  · rintro ⟨⟩
    rfl
  · rintro rfl
    rfl

end Succeeds

/-- What is done with the current state. -/
theorem succeeds_get_bind {f : Reader → ReadM β} :
    Succeeds (get >>= f) r b r' ↔ Succeeds (f r) r b r' := by
  unfold Succeeds
  rw [run_get_bind]

/-- Evaluation shows that something can be read, and what holds of it and of the state. -/
theorem exists_ok_of_any {α σ : Type} (result : Except ReadError α × σ) (test : α → σ → Bool)
    (h : result.1.toOption.any (test · result.2) = true) :
    ∃ a s, result = (.ok a, s) ∧ test a s = true := by
  obtain ⟨outcome, s⟩ := result
  cases outcome with
  | error e => contradiction
  | ok a => exact ⟨a, s, rfl, h⟩

/-! The steps. -/

/-- The state after a sentence has been entered. -/
def enter (r : Reader) (s : Sentence) : Reader := { r with lexicon := r.lexicon.intern s }

/-- One change of the state.  A sentence is entered, something is learnt of a constant or of a
symbol by use or by declaration, or a sort is declared. -/
inductive Step (r : Reader) : Reader → Prop where
  | enter (s : Sentence) : Step r (r.enter s)
  | addConstant {name : String} (sort : SortId) : r.constants.lookup name = none →
      Step r (r.addConstant name sort)
  | addSymbol {kind : SymbolKind} {name : String} {sig : Signature} :
      (∀ known, (r.symbols kind).lookup name = some known →
        known.arity = sig.arity ∧ known.args = none) →
      Step r (r.addSymbol name sig kind)
  | declareSort {name : String} {parentName : Option String} {parent sort : SortId}
      {sorts : Sorts} : r.lexicon.sorts.resolve? parentName = some parent →
      r.lexicon.sorts.declare name parent = .ok (sort, sorts) →
      Step r { r with lexicon.sorts := sorts }

/-- Any number of changes. -/
abbrev Steps : Reader → Reader → Prop := Relation.ReflTransGen Step

/-- What every change keeps is kept. -/
theorem Steps.keeps {P : Reader → Prop} (hstep : ∀ q q', Step q q' → P q → P q')
    (h : Steps r r') (hr : P r) : P r' := by
  induction h with
  | refl => exact hr
  | tail _ hlast ih => exact hstep _ _ hlast ih

/-- Reading from a state, whether it succeeds or fails, changes the state step by step. -/
def Proceeds (m : ReadM α) (r : Reader) : Prop := Steps r (m.run.run r).2

namespace Proceeds

theorem pure (a : α) : Proceeds (Pure.pure a : ReadM α) r := .refl

theorem throw (e : ReadError) : Proceeds (MonadExcept.throw e : ReadM α) r := .refl

theorem throw_bind (e : ReadError) : Proceeds ((MonadExcept.throw e : ReadM α) >>= f) r := .refl

theorem get_bind {f : Reader → ReadM β} (hf : Proceeds (f r) r) :
    Proceeds (MonadState.get >>= f) r := hf

theorem update {g : Reader → Reader} (h : Step r (g r)) : Proceeds (modify g : ReadM Unit) r :=
  .single h

theorem bind (hm : Proceeds m r) (hf : ∀ a mid, Succeeds m r a mid → Proceeds (f a) mid) :
    Proceeds (m >>= f) r := by
  unfold Proceeds
  rw [run_bind]
  cases hrun : (m.run.run r).1 with
  | error e => exact hm
  | ok a => exact hm.trans (hf a _ (Prod.ext hrun rfl))

theorem discard (hm : Proceeds m r) : Proceeds (Functor.discard m) r := by
  have hrun : Functor.discard m = m >>= fun _ => Pure.pure () := by
    rw [bind_pure_comp, Functor.discard, map_const]
    rfl
  rw [hrun]
  exact hm.bind fun _ _ _ => .pure ()

theorem steps_of_succeeds (hm : Proceeds m r) (h : Succeeds m r a r') : Steps r r' := by
  have hrun : m.run.run r = (.ok a, r') := h
  unfold Proceeds at hm
  rwa [hrun] at hm

end Proceeds

/-! Sentences and sorts. -/

theorem succeeds_intern_iff {s t : Sentence} :
    Succeeds (intern s) r t r' ↔ t = s ∧ r' = r.enter s := by
  simp [intern, enter, and_comm]

theorem proceeds_intern (s : Sentence) : Proceeds (intern s) r := .single (.enter s)

theorem succeeds_sort_iff {name : String} {sort : SortId} :
    Succeeds (Reader.sort name) r sort r' ↔ r.lexicon.sorts.find? name = some sort ∧ r' = r := by
  unfold Reader.sort
  rw [succeeds_get_bind]
  cases r.lexicon.sorts.find? name with
  | none => simp
  | some found => simp [eq_comm]

theorem proceeds_sort (name : String) : Proceeds (Reader.sort name) r := by
  unfold Reader.sort
  refine .get_bind ?_
  split
  · exact .pure _
  · exact .throw _

/-! Symbols. -/

/-- The state after a symbol has been used with a number of arguments. -/
def used (r : Reader) (kind : SymbolKind) (name : String) (arity : Nat) : Reader :=
  match (r.symbols kind).lookup name with
  | some _ => r
  | none => r.addSymbol name { arity } kind

/-- A symbol is known to take the given arguments. -/
structure Accepts (r : Reader) (kind : SymbolKind) (name : String) (args : List Sentence)
    (sig : Signature) : Prop where
  known : (r.symbols kind).lookup name = some sig
  arity : sig.arity = args.length
  fits : misfit? r.lexicon.sorts args (sig.args.getD []) = none

section Symbols

variable {kind : SymbolKind} {name : String} {arity : Nat} {sig : Signature}

theorem used_of_some (h : (r.symbols kind).lookup name = some sig) :
    r.used kind name arity = r := by
  simp [used, h]

theorem used_of_none (h : (r.symbols kind).lookup name = none) :
    r.used kind name arity = r.addSymbol name { arity } kind := by
  simp [used, h]

theorem lookup_addSymbol_self (r : Reader) (kind : SymbolKind) (name : String)
    (sig : Signature) :
    ((r.addSymbol name sig kind).symbols kind).lookup name = some sig := by
  cases kind <;> simp [addSymbol, symbols]

@[simp]
theorem lexicon_addSymbol (r : Reader) (name : String) (sig : Signature) (kind : SymbolKind) :
    (r.addSymbol name sig kind).lexicon = r.lexicon := by
  cases kind <;> rfl

@[simp]
theorem lexicon_used (r : Reader) (kind : SymbolKind) (name : String) (arity : Nat) :
    (r.used kind name arity).lexicon = r.lexicon := by
  unfold used
  split
  · rfl
  · rw [lexicon_addSymbol]

theorem succeeds_signature_iff :
    Succeeds (signature kind name arity) r sig r' ↔
      r' = r.used kind name arity ∧ (r'.symbols kind).lookup name = some sig := by
  unfold signature
  rw [succeeds_get_bind]
  cases h : (r.symbols kind).lookup name with
  | none =>
      rw [used_of_none h]
      simp only [Succeeds.bind_iff, Succeeds.modify_iff, Succeeds.pure_iff, exists_const,
        exists_eq_left]
      constructor
      · rintro ⟨rfl, rfl⟩
        exact ⟨rfl, lookup_addSymbol_self ..⟩
      · rintro ⟨rfl, h⟩
        rw [lookup_addSymbol_self] at h
        exact ⟨(Option.some.inj h).symm, rfl⟩
  | some known =>
      rw [used_of_some h]
      simp only [Succeeds.pure_iff]
      constructor
      · rintro ⟨rfl, rfl⟩
        exact ⟨rfl, h⟩
      · rintro ⟨rfl, h'⟩
        exact ⟨Option.some.inj (h'.symm.trans h), rfl⟩

theorem proceeds_signature : Proceeds (signature kind name arity) r := by
  unfold signature
  refine .get_bind ?_
  split
  · exact .pure _
  · next hnone =>
      have hnew : Step r (r.addSymbol name { arity } kind) :=
        .addSymbol fun known hknown => nomatch hnone.symm.trans hknown
      exact .bind (.update hnew) fun _ _ _ => .pure _

/-- A symbol is applied to arguments that it accepts. -/
theorem succeeds_apply_iff {args : List Sentence} {sort : SortId} :
    Succeeds (apply kind name args) r sort r' ↔
      r' = r.used kind name args.length ∧
        ∃ sig, Accepts r' kind name args sig ∧ sort = sig.result := by
  unfold apply
  rw [Succeeds.bind_iff]
  simp only [succeeds_signature_iff]
  constructor
  · rintro ⟨sig, mid, ⟨rfl, hknown⟩, h⟩
    split at h
    · exact (Succeeds.throw_iff.mp h).elim
    · next harity =>
        rw [succeeds_get_bind] at h
        split at h
        · exact (Succeeds.throw_iff.mp h).elim
        · next hfits =>
            obtain ⟨rfl, rfl⟩ := Succeeds.pure_iff.mp h
            exact ⟨rfl, sig, ⟨hknown, Decidable.not_not.mp harity, hfits⟩, rfl⟩
  · rintro ⟨rfl, sig, haccepts, rfl⟩
    refine ⟨sig, _, ⟨rfl, haccepts.known⟩, ?_⟩
    rw [if_neg (by simp [haccepts.arity]), succeeds_get_bind]
    simp only [haccepts.fits, Succeeds.pure_iff, and_self]

theorem proceeds_apply {args : List Sentence} : Proceeds (apply kind name args) r := by
  unfold apply
  refine .bind proceeds_signature fun sig mid _ => ?_
  split
  · exact .throw _
  · refine .get_bind ?_
    simp only
    split
    · exact .throw _
    · exact .pure _

theorem accepts_nil_iff :
    Accepts r kind name [] sig ↔ (r.symbols kind).lookup name = some sig ∧ sig.arity = 0 :=
  ⟨fun h => ⟨h.known, h.arity⟩, fun ⟨hknown, harity⟩ => ⟨hknown, harity, rfl⟩⟩

end Symbols

/-! Constants. -/

/-- The state after a name has been used for a constant. -/
def named (r : Reader) (name : String) : Reader :=
  match r.constants.lookup name with
  | some _ => r
  | none => r.addConstant name SortId.object

theorem named_of_some {name : String} {sort : SortId} (h : r.constants.lookup name = some sort) :
    r.named name = r := by
  simp [named, h]

theorem named_of_none {name : String} (h : r.constants.lookup name = none) :
    r.named name = r.addConstant name SortId.object := by
  simp [named, h]

theorem succeeds_constantSort_iff {name : String} {sort : SortId} :
    Succeeds (constantSort name) r sort r' ↔
      r' = r.named name ∧ r'.constants.lookup name = some sort := by
  unfold constantSort
  rw [succeeds_get_bind]
  cases h : r.constants.lookup name with
  | none =>
      rw [named_of_none h]
      simp only [Succeeds.bind_iff, Succeeds.modify_iff, Succeeds.pure_iff, exists_const,
        exists_eq_left]
      constructor
      · rintro ⟨rfl, rfl⟩
        exact ⟨rfl, by simp [addConstant]⟩
      · rintro ⟨rfl, h⟩
        simp only [addConstant, List.lookup_cons_self, Option.some.injEq] at h
        exact ⟨h.symm, rfl⟩
  | some known =>
      rw [named_of_some h]
      simp only [Succeeds.pure_iff]
      constructor
      · rintro ⟨rfl, rfl⟩
        exact ⟨rfl, h⟩
      · rintro ⟨rfl, h'⟩
        exact ⟨Option.some.inj (h'.symm.trans h), rfl⟩

theorem proceeds_constantSort (name : String) : Proceeds (constantSort name) r := by
  unfold constantSort
  refine .get_bind ?_
  split
  · exact .pure _
  · next hnone => exact .bind (.update (.addConstant _ hnone)) fun _ _ _ => .pure _

end Reader

end Tableau
