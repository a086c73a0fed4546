/-
Substitution by numbers.  A term is put for a variable part by part, without ever seeing a
whole sentence: parts are replaced first, and a shape is built again only if one of its parts
has changed.  Built shapes may be entered or just looked up, and both ways agree, because
with a sentence all its parts are entered.
-/
import Tableau.Proofs.Shape

namespace Tableau

/-- How many of the parts of a sentence are binders; these come first. -/
def Symbol.bound : Symbol → Nat
  | all | ex => 1
  | atom _ | const .. | var .. | app .. | pred _ | neg | conj | disj | imp | iff | equal => 0

namespace Sentence

variable {s target term : Sentence}

/-- The binder of a quantifier. -/
def binders (s : Sentence) : List Sentence := s.parts.take s.symbol.bound

/-- The parts that are not binders. -/
def operands (s : Sentence) : List Sentence := s.parts.drop s.symbol.bound

theorem binders_append_operands (s : Sentence) : s.binders ++ s.operands = s.parts :=
  List.take_append_drop ..

theorem mem_parts_of_mem_binders {x : Sentence} (hx : x ∈ s.binders) : x ∈ s.parts :=
  List.mem_of_mem_take hx

theorem mem_parts_of_mem_operands {x : Sentence} (hx : x ∈ s.operands) : x ∈ s.parts :=
  List.mem_of_mem_drop hx

theorem subst_of_mem_binders (hs : s ≠ target) (hbinds : target ∈ s.binders) :
    s.subst target term = s := by
  cases s with
  | all v x | ex v x =>
      obtain rfl : target = v := by simpa [binders, parts, symbol, Symbol.bound] using hbinds
      simp [subst, hs]
  | _ => simp [binders, symbol, Symbol.bound] at hbinds

theorem symbol_subst (hs : s ≠ target) : (s.subst target term).symbol = s.symbol := by
  cases s <;> simp [subst, hs, symbol]

theorem parts_subst (hs : s ≠ target) (hbinds : target ∉ s.binders) :
    (s.subst target term).parts = s.binders ++ s.operands.map (·.subst target term) := by
  cases s with
  | all v x | ex v x =>
      have hv : v ≠ target := by
        rintro rfl
        exact hbinds (by simp [binders, parts, symbol, Symbol.bound])
      simp [subst, hs, hv, parts, binders, operands, symbol, Symbol.bound]
  | _ => simp [subst, hs, parts, binders, operands, symbol, Symbol.bound, substAll_eq_map]

end Sentence

/-- Work on a store, which may fail. -/
abbrev BuildM (σ : Type) := StateT σ Option

namespace BuildM

variable {σ : Type}

theorem mapM_congr {f g : Nat → BuildM σ Nat} {ms : List Nat} (h : ∀ m ∈ ms, f m = g m) :
    ms.mapM f = ms.mapM g := by
  induction ms with
  | nil => rfl
  | cons m ms ih =>
      obtain ⟨hm, hms⟩ := List.forall_mem_cons.mp h
      rw [List.mapM_cons, List.mapM_cons, hm, ih hms]

theorem mapM_cons_run (f : Nat → BuildM σ Nat) (m : Nat) (ms : List Nat) (store : σ) :
    (m :: ms).mapM f store = (f m store).bind fun first =>
      (ms.mapM f first.2).map fun rest => (first.1 :: rest.1, rest.2) := by
  rw [List.mapM_cons]
  cases hfirst : f m store with
  | none => simp [bind, StateT.bind, hfirst]
  | some first =>
      cases hrest : ms.mapM f first.2 with
      | none => simp [bind, StateT.bind, hfirst, hrest]
      | some rest =>
          simp only [bind, StateT.bind, hfirst, hrest, Option.bind_some, Option.map_some]
          rfl

end BuildM

namespace Shape

variable {σ : Type}

/-- Puts the number `term` for the number `target` in what has the number `n`.  Binders are
kept, and so is a quantifier that binds `target`. -/
def replace (kind? : σ → Nat → Option Shape) (build : Shape → BuildM σ Nat)
    (target term n : Nat) : BuildM σ Nat := do
  if n = target then
    return term
  let some shape := kind? (← get) n | failure
  let binders := shape.parts.take shape.symbol.bound
  if target ∈ binders then
    return n
  let operands ← (shape.parts.drop shape.symbol.bound).mapM fun m =>
    if m < n then replace kind? build target term m else failure
  if binders ++ operands = shape.parts then
    return n
  build { shape with parts := binders ++ operands }
termination_by n

variable {kind? : σ → Nat → Option Shape} {build : Shape → BuildM σ Nat} {a b n : Nat}
  {store : σ} {shape : Shape}

theorem replace_self : replace kind? build a b a store = some (b, store) := by
  rw [replace, if_pos rfl]
  rfl

theorem replace_of_none (hn : n ≠ a) (hshape : kind? store n = none) :
    replace kind? build a b n store = none := by
  rw [replace, if_neg hn]
  simp only [bind, StateT.bind, get, getThe, MonadStateOf.get, StateT.get, pure,
    Option.bind_some, hshape]
  rfl

/-- One step of replacing, by the shape of the number. -/
theorem replace_of_some (hn : n ≠ a) (hshape : kind? store n = some shape) :
    replace kind? build a b n store =
      if a ∈ shape.parts.take shape.symbol.bound then some (n, store)
      else ((shape.parts.drop shape.symbol.bound).mapM
          (fun m => if m < n then replace kind? build a b m else failure) store).bind fun result =>
        let parts := shape.parts.take shape.symbol.bound ++ result.1
        if parts = shape.parts then some (n, result.2)
        else build { shape with parts } result.2 := by
  rw [replace, if_neg hn]
  simp only [bind, StateT.bind, get, getThe, MonadStateOf.get, StateT.get, pure,
    Option.bind_some, hshape]
  split
  · rfl
  · refine Option.bind_congr fun result _ => ?_
    simp only
    split <;> rfl

end Shape

namespace Lexicon

variable {lex lex' : Lexicon} {s target term : Sentence} {n m a b : Nat}

def entering (shape : Shape) : BuildM Lexicon Nat := fun lex => lex.enter? shape

def lookingUp (shape : Shape) : BuildM Lexicon Nat := fun lex => (lex.find? shape).map (·, lex)

/-- Puts one number for another in a lexicon. -/
def replace (build : Shape → BuildM Lexicon Nat) : (target term n : Nat) → BuildM Lexicon Nat :=
  Shape.replace shape? build

/-- Puts a number for another and enters what is new. -/
def substituteNumber? (lex : Lexicon) (n target term : Nat) : Option (Nat × Lexicon) :=
  replace entering target term n lex

/-- Puts a number for another if all that is built is entered already. -/
def findNumber? (lex : Lexicon) (n target term : Nat) : Option Nat :=
  (replace lookingUp target term n lex).map (·.1)

/-- One step of replacing, in terms of the sentence that a number stands for. -/
theorem IsOrderly.replace_run (h : lex.IsOrderly) (build : Shape → BuildM Lexicon Nat)
    (hn : lex.entries[n]? = some s) (ha : lex.entries[a]? = some target) :
    replace build a b n lex =
      if s = target then some (b, lex)
      else if target ∈ s.binders then some (n, lex)
      else ((s.operands.map (lex.number ·.key)).mapM (replace build a b) lex).bind fun result =>
        let parts := s.binders.map (lex.number ·.key) ++ result.1
        if parts = s.parts.map (lex.number ·.key) then some (n, result.2)
        else build ⟨s.symbol, parts⟩ result.2 := by
  have hshape : lex.shape? n = some ⟨s.symbol, s.parts.map (lex.number ·.key)⟩ := by
    rw [shape?, hn]
    rfl
  have hsame : n = a ↔ s = target := by
    constructor
    · rintro rfl
      exact Option.some.inj (hn.symm.trans ha)
    · rintro rfl
      exact h.eq_of_getElem? hn ha
  have hbinds : a ∈ s.binders.map (lex.number ·.key) ↔ target ∈ s.binders := by
    constructor
    · intro hmem
      obtain ⟨x, hx, hnumber⟩ := List.mem_map.mp hmem
      have hentry := h.hasParts s (List.mem_of_getElem? hn) x (Sentence.mem_parts_of_mem_binders hx)
      have hget := h.getElem?_number hentry
      rw [hnumber, ha] at hget
      exact Option.some.inj hget ▸ hx
    · exact fun hmem => List.mem_map.mpr ⟨target, hmem, h.number_eq ha⟩
  have hsmaller : (s.operands.map (lex.number ·.key)).mapM
      (fun m => if m < n then replace build a b m else failure) =
      (s.operands.map (lex.number ·.key)).mapM (replace build a b) := by
    refine BuildM.mapM_congr fun m hm => if_pos (h.lt_of_mem_parts hshape ?_)
    obtain ⟨x, hx, hnumber⟩ := List.mem_map.mp hm
    exact List.mem_map.mpr ⟨x, Sentence.mem_parts_of_mem_operands hx, hnumber⟩
  by_cases hs : s = target
  · rw [if_pos hs, hsame.mpr hs]
    exact Shape.replace_self
  · rw [if_neg hs, replace, Shape.replace_of_some (mt hsame.mp hs) hshape]
    simp only [← List.map_take, ← List.map_drop]
    rw [← Sentence.binders, ← Sentence.operands, ← replace, hsmaller]
    by_cases hmem : target ∈ s.binders
    · rw [if_pos (hbinds.mpr hmem), if_pos hmem]
    · rw [if_neg (mt hbinds.mp hmem), if_neg hmem]

/-- All parts of a sentence have numbers. -/
theorem IsOrderly.number_parts (h : lex.IsOrderly) (hs : s ∈ lex.entries) {xs : List Sentence}
    (hxs : ∀ x ∈ xs, x ∈ s.parts) : lex.Number (xs.map (lex.number ·.key)) xs :=
  h.number_iff.mpr ⟨rfl, fun x hx => h.hasParts s hs x (hxs x hx)⟩

/-- A shape that is built from the same parts is that of the same sentence. -/
theorem IsOrderly.eq_of_sentence? (h : lex.IsOrderly) (hdevelops : lex.Develops lex')
    (hs : s ∈ lex.entries) {built : Sentence}
    (hbuilt : lex'.sentence? ⟨s.symbol, s.parts.map (lex.number ·.key)⟩ = some built) :
    built = s := by
  have hnumbers := (h.number_parts hs fun _ => id).mono hdevelops.entries_extend
  have hsame : lex'.sentence? ⟨s.symbol, s.parts.map (lex.number ·.key)⟩ = some s :=
    sentence?_eq_some_iff.mpr ⟨rfl, hnumbers⟩
  exact Option.some.inj (hbuilt.symm.trans hsame)

/-! Entering what is built. -/

/-- Replacing by numbers in a sentence enters the sentence with the term. -/
def EntersInstance (a b : Nat) (target term s : Sentence) : Prop :=
  ∀ (lex : Lexicon) (n : Nat), lex.IsOrderly → lex.entries[a]? = some target →
    lex.entries[b]? = some term → lex.entries[n]? = some s →
    replace entering a b n lex = some (lex.entered (s.subst target term))

theorem mapM_entering {xs : List Sentence} {ms : List Nat}
    (ih : ∀ x ∈ xs, EntersInstance a b target term x) (h : lex.IsOrderly)
    (ha : lex.entries[a]? = some target) (hb : lex.entries[b]? = some term)
    (hms : lex.Number ms xs) :
    let ys := xs.map (·.subst target term)
    ms.mapM (replace entering a b) lex =
      some (ys.map ((lex.internAll ys).number ·.key), lex.internAll ys) := by
  intro ys
  induction xs generalizing lex ms with
  | nil =>
      obtain rfl := List.forall₂_nil_right_iff.mp hms
      rfl
  | cons x xs ihxs =>
      obtain ⟨m, ms, hm, hrest, rfl⟩ := List.forall₂_cons_right_iff.mp hms
      obtain ⟨hx, hxs⟩ := List.forall_mem_cons.mp ih
      have hdevelops := lex.develops_intern (x.subst target term)
      have hkept := hdevelops.entries_extend
      have hnext := ihxs hxs (hdevelops.isOrderly h) (getElem?_of_extends hkept ha)
        (getElem?_of_extends hkept hb) (Number.mono hrest hkept)
      have hnumber := (develops_internAll (lex.intern (x.subst target term))
        (xs.map (·.subst target term))).number_eq (hdevelops.isOrderly h)
        (mem_entries_intern lex (x.subst target term))
      rw [BuildM.mapM_cons_run, hx lex m h ha hb hm, Option.bind_some]
      simp only [entered, hnext, Option.map_some, ys, List.map_cons, internAll, hnumber]

/-- The sentence that is built from the binders of a sentence and its operands with the term. -/
theorem sentence?_subst (hs : s ≠ target) (hbinds : target ∉ s.binders)
    {binders operands : List Nat} (hbinders : lex.Number binders s.binders)
    (hoperands : lex.Number operands (s.operands.map (·.subst target term))) :
    lex.sentence? ⟨s.symbol, binders ++ operands⟩ = some (s.subst target term) := by
  refine sentence?_eq_some_iff.mpr ⟨Sentence.symbol_subst hs, ?_⟩
  rw [Sentence.parts_subst hs hbinds]
  exact List.rel_append hbinders hoperands

theorem internAll_parts_subst (h : lex.HasParts) (hentered : s ∈ lex.entries) (hs : s ≠ target)
    (hbinds : target ∉ s.binders) :
    lex.internAll (s.subst target term).parts =
      lex.internAll (s.operands.map (·.subst target term)) := by
  rw [Sentence.parts_subst hs hbinds, internAll_append,
    internAll_of_mem fun x hx => h s hentered x (Sentence.mem_parts_of_mem_binders hx)]

/-- Induction on the sentence, while the lexicon grows from operand to operand. -/
theorem entersInstance (a b : Nat) (target term s : Sentence) :
    EntersInstance a b target term s := by
  induction s using Sentence.partsInduction with
  | step s ih =>
      intro lex n h ha hb hn
      have hs := List.mem_of_getElem? hn
      have hentered : lex.entered s = (n, lex) := by rw [entered, intern_of_mem hs, h.number_eq hn]
      rw [h.replace_run entering hn ha]
      split
      · next hsame =>
          rw [hsame, Sentence.subst_self, entered, intern_of_mem (List.mem_of_getElem? hb),
            h.number_eq hb]
      · next hne =>
          split
          · next hbinds => rw [Sentence.subst_of_mem_binders hne hbinds, hentered]
          · next hfree =>
              have hbinders := h.number_parts hs fun _ => Sentence.mem_parts_of_mem_binders
              have hoperands := h.number_parts hs fun _ => Sentence.mem_parts_of_mem_operands
              rw [mapM_entering (fun x hx => ih x (Sentence.mem_parts_of_mem_operands hx)) h ha
                hb hoperands, Option.bind_some]
              -- With the operands entered, the parts are the numbers of the sentence to be built.
              have hdevelops := lex.develops_internAll (s.operands.map (·.subst target term))
              have horderly := hdevelops.isOrderly h
              have hbuilt := sentence?_subst hne hfree (hbinders.mono hdevelops.entries_extend)
                (horderly.number_iff.mpr ⟨rfl, fun x hx => mem_entries_internAll hx⟩)
              have hintern := h.hasParts.intern_internAll (s.subst target term)
              rw [internAll_parts_subst h.hasParts hs hne hfree] at hintern
              simp only
              split
              · next hsame =>
                  rw [hsame] at hbuilt
                  rw [← internAll_parts_subst h.hasParts hs hne hfree,
                    h.eq_of_sentence? hdevelops hs hbuilt, hentered,
                    internAll_of_mem (h.hasParts s hs)]
              · rw [entering, enter?, hbuilt, Option.map_some, entered, hintern, entered]

/-! Looking up what is built. -/

theorem IsOrderly.mapM_number?_eq_some_iff (h : lex.IsOrderly) {xs : List Sentence}
    {ns : List Nat} :
    xs.mapM (lex.number? ·.key) = some ns ↔ lex.Number ns xs := by
  simp only [mapM_eq_some_iff, h.number?_eq_some_iff]
  exact ⟨List.Forall₂.flip, List.Forall₂.flip⟩

theorem mapM_lookingUp {xs : List Sentence} {ms : List Nat}
    (ih : ∀ x ∈ xs, ∀ n, lex.entries[n]? = some x →
      replace lookingUp a b n lex = (lex.number? (x.subst target term)).map (·, lex))
    (hms : lex.Number ms xs) :
    ms.mapM (replace lookingUp a b) lex =
      ((xs.map (·.subst target term)).mapM (lex.number? ·.key)).map (·, lex) := by
  induction hms with
  | nil => rfl
  | @cons m x ms xs hm _ ihxs =>
      obtain ⟨hx, hxs⟩ := List.forall_mem_cons.mp ih
      rw [BuildM.mapM_cons_run, hx m hm, List.map_cons, List.mapM_cons]
      cases lex.number? (x.subst target term) with
      | none => rfl
      | some first =>
          rw [Option.map_some, Option.bind_some, ihxs hxs]
          cases (xs.map (·.subst target term)).mapM (lex.number? ·.key) <;> rfl

/-- If an operand of the sentence to be built is missing, so is the sentence. -/
theorem IsOrderly.number?_subst_eq_none (h : lex.IsOrderly) (hs : s ≠ target)
    (hbinds : target ∉ s.binders)
    (hoperands : (s.operands.map (·.subst target term)).mapM (lex.number? ·.key) = none) :
    lex.number? (s.subst target term) = none := by
  cases hnumber : lex.number? (s.subst target term) with
  | none => rfl
  | some n =>
      have hentered := List.mem_of_getElem? (h.number?_eq_some_iff.mp hnumber)
      have hmem : ∀ x ∈ s.operands.map (·.subst target term), x ∈ (s.subst target term).parts := by
        intro x hx
        rw [Sentence.parts_subst hs hbinds]
        exact List.mem_append_right _ hx
      rw [h.mapM_number?_eq_some_iff.mpr (h.number_parts hentered hmem)] at hoperands
      contradiction

/-- Looking up all that is built finds the sentence with the term, if it is entered. -/
theorem IsOrderly.replace_lookingUp (h : lex.IsOrderly) (ha : lex.entries[a]? = some target)
    (hb : lex.entries[b]? = some term) (hn : lex.entries[n]? = some s) :
    replace lookingUp a b n lex = (lex.number? (s.subst target term)).map (·, lex) := by
  induction s using Sentence.partsInduction generalizing n with
  | step s ih =>
      have hs := List.mem_of_getElem? hn
      rw [h.replace_run lookingUp hn ha]
      split
      · next hsame => rw [hsame, Sentence.subst_self, h.number?_eq_some_iff.mpr hb, Option.map_some]
      · next hne =>
          split
          · next hbinds =>
              rw [Sentence.subst_of_mem_binders hne hbinds, h.number?_eq_some_iff.mpr hn,
                Option.map_some]
          · next hfree =>
              have hbinders := h.number_parts hs fun _ => Sentence.mem_parts_of_mem_binders
              have hnumbers := h.number_parts hs fun _ => Sentence.mem_parts_of_mem_operands
              rw [mapM_lookingUp (fun x hx n hn => ih x (Sentence.mem_parts_of_mem_operands hx) hn)
                hnumbers]
              cases hoperands : (s.operands.map (·.subst target term)).mapM (lex.number? ·.key) with
              | none =>
                  rw [h.number?_subst_eq_none hne hfree hoperands]
                  rfl
              | some operands =>
                  have hbuilt := sentence?_subst hne hfree hbinders
                    (h.mapM_number?_eq_some_iff.mp hoperands)
                  rw [Option.map_some, Option.bind_some]
                  simp only
                  split
                  · next hsame =>
                      rw [hsame] at hbuilt
                      rw [h.eq_of_sentence? .refl hs hbuilt, h.number?_eq_some_iff.mpr hn,
                        Option.map_some]
                  · rw [lookingUp, find?, hbuilt, Option.bind_some]

/-! The two ways agree. -/

namespace IsOrderly

variable (h : lex.IsOrderly) (hn : lex.entries[n]? = some s) (ha : lex.entries[a]? = some target)
  (hb : lex.entries[b]? = some term)
include h hn ha hb

theorem substituteNumber?_eq :
    lex.substituteNumber? n a b = some (lex.entered (s.subst target term)) :=
  entersInstance a b target term s lex n h ha hb hn

theorem findNumber?_eq : lex.findNumber? n a b = lex.number? (s.subst target term) := by
  rw [findNumber?, h.replace_lookingUp ha hb hn, Option.map_map]
  exact Option.map_id'

theorem findNumber?_eq_some_iff {r : Nat} :
    lex.findNumber? n a b = some r ↔ lex.entries[r]? = some (s.subst target term) := by
  rw [h.findNumber?_eq hn ha hb, h.number?_eq_some_iff]

theorem findNumber?_eq_none_iff :
    lex.findNumber? n a b = none ↔ s.subst target term ∉ lex.entries := by
  rw [h.findNumber?_eq hn ha hb, ← Option.not_isSome_iff_eq_none]
  exact not_congr contains_iff

theorem findNumber?_eq_findSubstitute? :
    lex.findNumber? n a b = (lex.findSubstitute? s target term).map (lex.number ·.key) := by
  unfold findSubstitute?
  by_cases hmem : s.subst target term ∈ lex.entries
  · rw [if_pos (contains_iff.mpr hmem), Option.map_some, h.findNumber?_eq_some_iff hn ha hb]
    exact h.getElem?_number hmem
  · rw [if_neg (mt contains_iff.mp hmem), Option.map_none, h.findNumber?_eq_none_iff hn ha hb]
    exact hmem

end IsOrderly

theorem size_lt_size_intern (hs : s ∉ lex.entries) : lex.size < (lex.intern s).size := by
  obtain ⟨added, hadded⟩ := extends_intern lex s
  have hmem := mem_entries_intern lex s
  rw [← length_entries, ← length_entries, ← hadded, List.length_append]
  rw [← hadded, List.mem_append] at hmem
  have hpos := List.length_pos_of_mem (hmem.resolve_left hs)
  omega

/-- Looking up a substitution gives what entering it gives without entering anything. -/
theorem findNumber?_agrees (h : lex.IsOrderly) (hn : lex.entries[n]? = some s)
    (ha : lex.entries[a]? = some target) (hb : lex.entries[b]? = some term) :
    (∀ r, lex.findNumber? n a b = some r ↔ lex.substituteNumber? n a b = some (r, lex)) ∧
    (∀ r, lex.findNumber? n a b = some r ↔ lex.expand? r = some (s.subst target term)) ∧
    (lex.findNumber? n a b = none → ∃ r lex', lex.substituteNumber? n a b = some (r, lex') ∧
      lex.size < lex'.size ∧ ∀ later, lex'.Develops later → later.findNumber? n a b = some r) ∧
    lex.findNumber? n a b = (lex.findSubstitute? s target term).map (lex.number ·.key) ∧
    lex.substituteNumber? n a b =
      some ((lex.substitute s target term).2.number (lex.substitute s target term).1.key,
        (lex.substitute s target term).2) := by
  have henter := h.substituteNumber?_eq hn ha hb
  refine ⟨fun r => ?_, fun r => ?_, fun hnone => ?_, h.findNumber?_eq_findSubstitute? hn ha hb,
    henter⟩
  · rw [h.findNumber?_eq_some_iff hn ha hb, henter, entered, Option.some.injEq, Prod.mk.injEq]
    constructor
    · intro hr
      rw [intern_of_mem (List.mem_of_getElem? hr)]
      exact ⟨h.number_eq hr, rfl⟩
    · rintro ⟨hnumber, hsame⟩
      have hmem := mem_entries_intern lex (s.subst target term)
      rw [hsame] at hnumber hmem
      rw [← hnumber]
      exact h.getElem?_number hmem
  · rw [h.findNumber?_eq_some_iff hn ha hb, h.expand?_eq]
  · have hnew := (h.findNumber?_eq_none_iff hn ha hb).mp hnone
    refine ⟨_, _, henter, size_lt_size_intern hnew, fun later hlater => ?_⟩
    have hdevelops := lex.develops_intern (s.subst target term)
    have hall := hdevelops.trans hlater
    have hkept := hall.entries_extend
    rw [(hall.isOrderly h).findNumber?_eq_some_iff (getElem?_of_extends hkept hn)
      (getElem?_of_extends hkept ha) (getElem?_of_extends hkept hb)]
    exact getElem?_of_extends hlater.entries_extend
      ((hdevelops.isOrderly h).getElem?_number (mem_entries_intern lex _))

/-- The instance of the first operand is entered, that of the conjunction is not; the
quantifier binds the variable and stays as it is. -/
theorem findNumber?_agrees_instances :
    let x := Sentence.var "x" 0
    let s := Sentence.conj [.pred "P" [x], .all x (.pred "Q" [x])]
    let calls : List Call :=
      [.enter ⟨.var "x" 0, []⟩, .enter ⟨.pred "P", [0]⟩, .enter ⟨.pred "Q", [0]⟩,
        .enter ⟨.all, [0, 2]⟩, .enter ⟨.conj, [1, 3]⟩, .mint 0, .substitute 1 0 5]
    ∃ lex, performAll? {} calls = some lex ∧ lex.entries[4]? = some s ∧ lex.entries[0]? = some x ∧
      lex.entries[5]? = some (.const "c1" 0) ∧ lex.findNumber? 1 0 5 = some 6 ∧
      lex.findNumber? 4 0 5 = none ∧ ∃ r lex', lex.substituteNumber? 4 0 5 = some (r, lex') ∧
        lex.size < lex'.size ∧ ∀ later, lex'.Develops later → later.findNumber? 4 0 5 = some r := by
  intro x s calls
  have heval : (performAll? {} calls).any (fun lex => decide (lex.entries[4]? = some s ∧
      lex.entries[0]? = some x ∧ lex.entries[5]? = some (.const "c1" 0) ∧
      lex.findNumber? 1 0 5 = some 6 ∧ lex.findNumber? 4 0 5 = none)) = true := by
    decide +kernel
  obtain ⟨lex, hcalls, htest⟩ := (Option.any_eq_true _ _).mp heval
  obtain ⟨hs, hx, hc, hfound, hnone⟩ := of_decide_eq_true htest
  have horderly : lex.IsOrderly := (develops_performAll? hcalls).isOrderly (isOrderly_empty {})
  obtain ⟨-, -, hentered, -⟩ := findNumber?_agrees horderly hs hx hc
  exact ⟨lex, hcalls, hs, hx, hc, hfound, hnone, hentered hnone⟩

end Lexicon

end Tableau
