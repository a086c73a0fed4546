/-
Sentences by their numbers.  What a lexicon holds under a number is a shape: the symbol of a
sentence with the numbers of its parts.  A shape has one number, parts have smaller numbers
than wholes, and expanding a number down to the last part gives back the sentence.
-/
import Mathlib.Data.List.Forall2
import Mathlib.Data.List.Nodup
import Tableau.Proofs.Development

namespace Tableau

/-- The outermost symbol of a sentence. -/
inductive Symbol where
  | atom (name : String)
  | const (name : String) (sort : SortId)
  | var (name : String) (sort : SortId)
  | app (name : String) (sort : SortId)
  | pred (name : String)
  | neg
  | conj
  | disj
  | imp
  | iff
  | equal
  | all
  | ex
deriving DecidableEq

def Sentence.symbol : Sentence → Symbol
  | atom name => .atom name
  | const name sort => .const name sort
  | var name sort => .var name sort
  | app name sort _ => .app name sort
  | pred name _ => .pred name
  | neg _ => .neg
  | conj _ => .conj
  | disj _ => .disj
  | imp .. => .imp
  | iff .. => .iff
  | equal _ => .equal
  | all .. => .all
  | ex .. => .ex

namespace Symbol

/-- Whether a sentence with the symbol may have so many parts. -/
def takes : Symbol → Nat → Bool
  | atom _, n | const .., n | var .., n => n == 0
  | neg, n => n == 1
  | imp, n | iff, n | all, n | ex, n => n == 2
  | app .., _ | pred _, _ | conj, _ | disj, _ | equal, _ => true

/-- The sentence with the symbol and the given parts, if there may be so many. -/
def compose? : Symbol → List Sentence → Option Sentence
  | atom name, [] => some (.atom name)
  | const name sort, [] => some (.const name sort)
  | var name sort, [] => some (.var name sort)
  | app name sort, xs => some (.app name sort xs)
  | pred name, xs => some (.pred name xs)
  | neg, [x] => some (.neg x)
  | conj, xs => some (.conj xs)
  | disj, xs => some (.disj xs)
  | imp, [l, r] => some (.imp l r)
  | iff, [l, r] => some (.iff l r)
  | equal, xs => some (.equal xs)
  | all, [v, x] => some (.all v x)
  | ex, [v, x] => some (.ex v x)
  | _, _ => none

theorem compose?_eq_some_iff {symbol : Symbol} {xs : List Sentence} {s : Sentence} :
    symbol.compose? xs = some s ↔ s.symbol = symbol ∧ s.parts = xs := by
  constructor
  · intro h
    unfold compose? at h
    split at h <;> cases h <;> exact ⟨rfl, rfl⟩
  · rintro ⟨rfl, rfl⟩
    cases s <;> rfl

theorem isSome_compose? {symbol : Symbol} {xs : List Sentence} :
    (symbol.compose? xs).isSome = symbol.takes xs.length := by
  rcases xs with _ | ⟨x, _ | ⟨y, _ | ⟨z, zs⟩⟩⟩ <;> cases symbol <;> rfl

theorem takes_length_parts (s : Sentence) : s.symbol.takes s.parts.length = true := by
  rw [← isSome_compose?, compose?_eq_some_iff.mpr ⟨rfl, rfl⟩]
  rfl

end Symbol

/-- A sentence is determined by its symbol and its parts. -/
theorem Sentence.eq_of_symbol_of_parts {s t : Sentence} (hsymbol : s.symbol = t.symbol)
    (hparts : s.parts = t.parts) : s = t :=
  Option.some.inj ((Symbol.compose?_eq_some_iff.mpr ⟨hsymbol, hparts⟩).symm.trans
    (Symbol.compose?_eq_some_iff.mpr ⟨rfl, rfl⟩))

/-- A sentence with numbers in the place of its parts. -/
structure Shape where
  symbol : Symbol
  parts : List Nat
deriving DecidableEq

theorem mapM_eq_some_iff {α β : Type} {f : α → Option β} {xs : List α} {ys : List β} :
    xs.mapM f = some ys ↔ List.Forall₂ (fun x y => f x = some y) xs ys := by
  induction xs generalizing ys with
  | nil => simp [eq_comm]
  | cons x xs ih =>
      simp only [List.mapM_cons, Option.bind_eq_bind, Option.bind_eq_some_iff, ih,
        List.forall₂_cons_left_iff, Option.pure_def, Option.some.injEq]
      constructor
      · rintro ⟨y, hy, ys, hys, rfl⟩
        exact ⟨y, ys, hy, hys, rfl⟩
      · rintro ⟨y, ys, hy, hys, rfl⟩
        exact ⟨y, hy, ys, hys, rfl⟩

namespace Shape

variable {kind? : Nat → Option Shape} {n : Nat} {s : Sentence}

/-- The sentence that a number stands for, put together from the shapes of the numbers in it. -/
def expand? (kind? : Nat → Option Shape) (n : Nat) : Option Sentence := do
  let shape ← kind? n
  let parts ← shape.parts.mapM fun m => if m < n then expand? kind? m else none
  shape.symbol.compose? parts
termination_by n

/-- Numbers and the sentences that they stand for. -/
def Expand (kind? : Nat → Option Shape) : List Nat → List Sentence → Prop :=
  List.Forall₂ fun n s => expand? kind? n = some s

/-- If all parts have smaller numbers, a number stands for the sentence that has its symbol and
what its parts stand for. -/
theorem expand?_eq_some_iff
    (hparts : ∀ shape, kind? n = some shape → ∀ m ∈ shape.parts, m < n) :
    expand? kind? n = some s ↔ ∃ shape, kind? n = some shape ∧ s.symbol = shape.symbol ∧
      Expand kind? shape.parts s.parts := by
  rw [expand?]
  simp only [Option.bind_eq_bind, Option.bind_eq_some_iff, mapM_eq_some_iff,
    Symbol.compose?_eq_some_iff]
  refine exists_congr fun shape => and_congr_right fun hshape => ?_
  have hsmaller : ∀ xs, List.Forall₂
      (fun m x => (if m < n then expand? kind? m else none) = some x) shape.parts xs ↔
      Expand kind? shape.parts xs := by
    refine fun xs => ⟨fun h => ?_, fun h => ?_⟩
    all_goals
      refine List.Forall₂.imp ?_ (List.forall₂_and_left _ _ |>.mpr ⟨hparts shape hshape, h⟩)
      rintro m x ⟨hm, hx⟩
    · rwa [if_pos hm] at hx
    · rwa [if_pos hm]
  constructor
  · rintro ⟨xs, hxs, hsymbol, rfl⟩
    exact ⟨hsymbol, (hsmaller _).mp hxs⟩
  · rintro ⟨hsymbol, hxs⟩
    exact ⟨s.parts, (hsmaller _).mpr hxs, hsymbol, rfl⟩

end Shape

namespace Lexicon

variable {lex lex' : Lexicon} {s x : Sentence} {n m : Nat} {shape : Shape}

/-- The shape of the sentence with a number. -/
def shape? (lex : Lexicon) (n : Nat) : Option Shape :=
  lex.entries[n]?.map fun s => ⟨s.symbol, s.parts.map (lex.number ·.key)⟩

/-- The sentence of a shape, if its parts are numbers of sentences. -/
def sentence? (lex : Lexicon) (shape : Shape) : Option Sentence :=
  (shape.parts.mapM (lex.entries[·]?)).bind shape.symbol.compose?

/-- The number of a shape that is entered. -/
def find? (lex : Lexicon) (shape : Shape) : Option Nat :=
  (lex.sentence? shape).bind fun s => lex.number? s

/-- Enters a sentence that is new, and gives its number. -/
def entered (lex : Lexicon) (s : Sentence) : Nat × Lexicon :=
  ((lex.intern s).number s, lex.intern s)

/-- Enters a shape that is new, and gives its number. -/
def enter? (lex : Lexicon) (shape : Shape) : Option (Nat × Lexicon) :=
  (lex.sentence? shape).map lex.entered

/-- The sentence with a number, put together from the shapes of the numbers in it. -/
def expand? (lex : Lexicon) : Nat → Option Sentence := Shape.expand? lex.shape?

/-- No sentence is entered twice, and every sentence comes after its parts. -/
structure IsOrderly (lex : Lexicon) : Prop where
  nodup : lex.entries.Nodup
  parts : ∀ (n : Nat) (s : Sentence), lex.entries[n]? = some s →
    ∀ x ∈ s.parts, ∃ m < n, lex.entries[m]? = some x

theorem length_entries (lex : Lexicon) : lex.entries.length = lex.size := Array.length_toList

theorem lt_size_iff : n < lex.size ↔ ∃ s, lex.entries[n]? = some s := by
  rw [← length_entries]
  constructor
  · exact fun hn => ⟨_, List.getElem?_eq_getElem hn⟩
  · rintro ⟨s, hs⟩
    exact (List.getElem?_eq_some_iff.mp hs).1

/-! Lexicons stay orderly as they develop. -/

theorem isOrderly_empty (sorts : Sorts) : IsOrderly { sorts } :=
  ⟨List.nodup_nil, fun n s hs => by simp [entries] at hs⟩

theorem getElem?_of_extends (h : lex.entries <+: lex'.entries) (hs : lex.entries[n]? = some s) :
    lex'.entries[n]? = some s := by
  obtain ⟨added, hadded⟩ := h
  rw [← hadded, List.getElem?_append_left (List.getElem?_eq_some_iff.mp hs).1, hs]

theorem IsOrderly.append (h : lex.IsOrderly) (hnew : s ∉ lex.entries)
    (hparts : ∀ x ∈ s.parts, x ∈ lex.entries) : (lex.append s).IsOrderly := by
  have hentries : (lex.append s).entries = lex.entries ++ [s] := entries_append_of_not_mem hnew
  have hkept : ∀ m x, lex.entries[m]? = some x → (lex.append s).entries[m]? = some x :=
    fun m x => getElem?_of_extends (extends_append _ _)
  refine ⟨?_, fun n t ht x hx => ?_⟩
  · rw [hentries]
    exact h.nodup.append (List.nodup_singleton s) (by simpa using hnew)
  · rw [hentries, List.getElem?_append] at ht
    split at ht
    · obtain ⟨m, hm, hmx⟩ := h.parts n t ht x hx
      exact ⟨m, hm, hkept m x hmx⟩
    · next hn =>
        -- The new sentence is the last one, so all its parts come before it.
        obtain rfl : t = s := by
          have hmem := List.mem_of_getElem? ht
          simpa using hmem
        obtain ⟨m, hm, hmx⟩ := List.getElem_of_mem (hparts x hx)
        exact ⟨m, by omega, hkept m x (List.getElem?_eq_some_iff.mpr ⟨hm, hmx⟩)⟩

theorem Develops.isOrderly (h : lex.Develops lex') (horderly : lex.IsOrderly) : lex'.IsOrderly := by
  induction h with
  | refl => exact horderly
  | append s _ hnew hparts ih => exact ih.append hnew hparts
  | declare _ _ ih => exact ⟨ih.nodup, ih.parts⟩
  | count _ _ _ ih => exact ⟨ih.nodup, ih.parts⟩

theorem Develops.hasNames (h : lex.Develops lex') (hnames : lex.HasNames) : lex'.HasNames := by
  induction h with
  | refl => exact hnames
  | append s _ _ _ ih => exact ih.append s
  | declare _ _ ih => exact ih
  | count _ _ _ ih => exact ih

namespace IsOrderly

variable (h : lex.IsOrderly)
include h

theorem hasParts : lex.HasParts := by
  intro s hs x hx
  obtain ⟨n, hn, hget⟩ := List.getElem_of_mem hs
  obtain ⟨m, -, hm⟩ := h.parts n s (List.getElem?_eq_some_iff.mpr ⟨hn, hget⟩) x hx
  exact List.mem_of_getElem? hm

/-- A sentence has one number. -/
theorem number?_eq_some_iff : lex.number? s = some n ↔ lex.entries[n]? = some s := by
  rw [number?_eq, List.idxOf?_eq_some_iff, List.getElem?_eq_some_iff]
  constructor
  · rintro ⟨hn, hget, -⟩
    exact ⟨hn, hget⟩
  · rintro ⟨hn, hget⟩
    refine ⟨hn, hget, fun j hj hsame => ?_⟩
    have heq := h.nodup.getElem_inj_iff.mp (hsame.trans hget.symm)
    omega

theorem number_eq (hs : lex.entries[n]? = some s) : lex.number s = n := by
  rw [number, h.number?_eq_some_iff.mpr hs, Option.getD_some]

theorem eq_of_getElem? (hn : lex.entries[n]? = some s) (hm : lex.entries[m]? = some s) : n = m :=
  (h.number_eq hn).symm.trans (h.number_eq hm)

theorem getElem?_number (hs : s ∈ lex.entries) : lex.entries[lex.number s]? = some s := by
  obtain ⟨n, hn, hget⟩ := List.getElem_of_mem hs
  have hget := List.getElem?_eq_some_iff.mpr ⟨hn, hget⟩
  rwa [h.number_eq hget]

end IsOrderly

/-- What has developed from nothing has all parts and names. -/
theorem Develops.isThorough {sorts : Sorts} (h : Develops { sorts } lex) : lex.IsThorough :=
  ⟨(h.isOrderly (isOrderly_empty sorts)).hasParts, h.hasNames (isThorough_empty sorts).hasNames⟩

/-! Shapes and the sentences that they stand for. -/

/-- Numbers and the sentences that they are the numbers of. -/
def Number (lex : Lexicon) : List Nat → List Sentence → Prop :=
  List.Forall₂ fun n s => lex.entries[n]? = some s

theorem exists_number {ns : List Nat} (h : ∀ n ∈ ns, n < lex.size) : ∃ xs, lex.Number ns xs := by
  induction ns with
  | nil => exact ⟨[], .nil⟩
  | cons n ns ih =>
      obtain ⟨hn, hns⟩ := List.forall_mem_cons.mp h
      obtain ⟨x, hx⟩ := lt_size_iff.mp hn
      obtain ⟨xs, hxs⟩ := ih hns
      exact ⟨x :: xs, .cons hx hxs⟩

theorem sentence?_eq_some_iff :
    lex.sentence? shape = some s ↔ s.symbol = shape.symbol ∧ lex.Number shape.parts s.parts := by
  simp only [sentence?, Option.bind_eq_some_iff, mapM_eq_some_iff, Symbol.compose?_eq_some_iff]
  constructor
  · rintro ⟨xs, hxs, hsymbol, rfl⟩
    exact ⟨hsymbol, hxs⟩
  · rintro ⟨hsymbol, hparts⟩
    exact ⟨_, hparts, hsymbol, rfl⟩

theorem Number.mono {ns : List Nat} {xs : List Sentence} (h : lex.Number ns xs)
    (hextends : lex.entries <+: lex'.entries) : lex'.Number ns xs :=
  List.Forall₂.imp (fun _ _ => getElem?_of_extends hextends) h

theorem sentence?_of_extends (hextends : lex.entries <+: lex'.entries)
    (hs : lex.sentence? shape = some s) : lex'.sentence? shape = some s := by
  obtain ⟨hsymbol, hparts⟩ := sentence?_eq_some_iff.mp hs
  exact sentence?_eq_some_iff.mpr ⟨hsymbol, hparts.mono hextends⟩

namespace IsOrderly

variable (h : lex.IsOrderly)
include h

theorem number_iff {ns : List Nat} {xs : List Sentence} :
    lex.Number ns xs ↔ ns = xs.map (lex.number ·.key) ∧ ∀ x ∈ xs, x ∈ lex.entries := by
  induction xs generalizing ns with
  | nil => simp [Number]
  | cons x xs ih =>
      simp only [Number, List.forall₂_cons_right_iff, List.map_cons, List.forall_mem_cons]
      constructor
      · rintro ⟨n, ns, hn, hns, rfl⟩
        obtain ⟨rfl, hmem⟩ := ih.mp hns
        exact ⟨by rw [h.number_eq hn], List.mem_of_getElem? hn, hmem⟩
      · rintro ⟨rfl, hx, hmem⟩
        exact ⟨_, _, h.getElem?_number hx, ih.mpr ⟨rfl, hmem⟩, rfl⟩

/-- A number has the shape that its sentence is the sentence of. -/
theorem shape?_eq_some_iff :
    lex.shape? n = some shape ↔ ∃ s, lex.entries[n]? = some s ∧ lex.sentence? shape = some s := by
  simp only [shape?, Option.map_eq_some_iff, sentence?_eq_some_iff, h.number_iff]
  refine exists_congr fun s => and_congr_right fun hs => ?_
  constructor
  · rintro rfl
    exact ⟨rfl, rfl, h.hasParts s (List.mem_of_getElem? hs)⟩
  · rintro ⟨hsymbol, hparts, -⟩
    rw [hsymbol, ← hparts]

theorem find?_eq_some_iff :
    lex.find? shape = some n ↔ ∃ s, lex.entries[n]? = some s ∧ lex.sentence? shape = some s := by
  simp only [find?, Option.bind_eq_some_iff, h.number?_eq_some_iff, and_comm]

/-- Parts have smaller numbers. -/
theorem lt_of_mem_parts (hshape : lex.shape? n = some shape) (hm : m ∈ shape.parts) : m < n := by
  obtain ⟨s, hs, hsentence⟩ := h.shape?_eq_some_iff.mp hshape
  obtain ⟨-, hnumbers⟩ := sentence?_eq_some_iff.mp hsentence
  obtain ⟨hparts, -⟩ := h.number_iff.mp hnumbers
  rw [hparts] at hm
  obtain ⟨x, hx, rfl⟩ := List.mem_map.mp hm
  obtain ⟨k, hk, hkx⟩ := h.parts n s hs x hx
  rwa [h.number_eq hkx]

/-- Expanding a number gives the sentence that it is the number of. -/
theorem expand?_eq (n : Nat) : lex.expand? n = lex.entries[n]? := by
  induction n using Nat.strongRecOn with
  | ind n ih =>
      refine Option.ext fun s => ?_
      rw [expand?, Shape.expand?_eq_some_iff fun shape hshape m => h.lt_of_mem_parts hshape]
      -- All parts have smaller numbers, so each of them expands to its sentence.
      have hparts : ∀ shape, lex.shape? n = some shape →
          (Shape.Expand lex.shape? shape.parts s.parts ↔ lex.Number shape.parts s.parts) := by
        intro shape hshape
        have hsmaller := fun m hm => h.lt_of_mem_parts (m := m) hshape hm
        refine ⟨fun hxs => ?_, fun hxs => ?_⟩
        all_goals
          refine List.Forall₂.imp ?_ (List.forall₂_and_left _ _ |>.mpr ⟨hsmaller, hxs⟩)
          rintro m x ⟨hm, hx⟩
        · exact (ih m hm).symm.trans hx
        · exact (ih m hm).trans hx
      constructor
      · rintro ⟨shape, hshape, hsymbol, hexpand⟩
        obtain ⟨t, ht, hsentence⟩ := h.shape?_eq_some_iff.mp hshape
        have hs := sentence?_eq_some_iff.mpr ⟨hsymbol, (hparts shape hshape).mp hexpand⟩
        rw [ht, Option.some.inj (hsentence.symm.trans hs)]
      · intro hs
        obtain ⟨shape, hshape⟩ : ∃ shape, lex.shape? n = some shape := ⟨_, by rw [shape?, hs]; rfl⟩
        obtain ⟨t, ht, hsentence⟩ := h.shape?_eq_some_iff.mp hshape
        obtain rfl := Option.some.inj (ht.symm.trans hs)
        obtain ⟨hsymbol, hnumbers⟩ := sentence?_eq_some_iff.mp hsentence
        exact ⟨shape, hshape, hsymbol, (hparts shape hshape).mpr hnumbers⟩

end IsOrderly

theorem Develops.number_eq (h : lex.Develops lex') (horderly : lex.IsOrderly)
    (hs : s ∈ lex.entries) : lex'.number s = lex.number s :=
  (h.isOrderly horderly).number_eq
    (getElem?_of_extends h.entries_extend (horderly.getElem?_number hs))

/-- Shapes are kept as the lexicon develops. -/
theorem Develops.shape? (h : lex.Develops lex') (horderly : lex.IsOrderly)
    (hshape : lex.shape? n = some shape) : lex'.shape? n = some shape := by
  obtain ⟨s, hs, hsentence⟩ := horderly.shape?_eq_some_iff.mp hshape
  have hextends := h.entries_extend
  exact (h.isOrderly horderly).shape?_eq_some_iff.mpr
    ⟨s, getElem?_of_extends hextends hs, sentence?_of_extends hextends hsentence⟩

/-! Calls. -/

/-- What can be asked of a lexicon, with sentences given by their numbers. -/
inductive Call where
  | enter (shape : Shape)
  | mint (sort : SortId)
  | substitute (s target term : Nat)
  | read (text : String)

namespace Call

def arguments : Call → List Nat
  | enter shape => shape.parts
  | substitute s target term => [s, target, term]
  | mint _ | read _ => []

/-- A shape that is to be entered has as many parts as its symbol takes. -/
def isWellFormed : Call → Bool
  | enter shape => shape.symbol.takes shape.parts.length
  | mint _ | substitute .. | read _ => true

end Call

/-- The lexicon after a call.  Reading may fail and keeps what it has entered. -/
def perform? (lex : Lexicon) : Call → Option Lexicon
  | .enter shape => (lex.enter? shape).map (·.2)
  | .mint sort => some (lex.mint sort).2
  | .substitute s target term => do
      return (lex.substitute (← lex.entries[s]?) (← lex.entries[target]?) (← lex.entries[term]?)).2
  | .read text => some (Problem.read lex text).2

def performAll? (lex : Lexicon) (calls : List Call) : Option Lexicon := calls.foldlM perform? lex

/-- A call mints a constant, or it develops the lexicon without any. -/
theorem absorbs_or_mint_of_perform? {call : Call} (h : lex.perform? call = some lex') :
    lex.Absorbs lex' ∨ ∃ sort, lex' = (lex.mint sort).2 := by
  cases call with
  | enter shape =>
      obtain ⟨_, hentered, rfl⟩ := Option.map_eq_some_iff.mp h
      obtain ⟨s, -, rfl⟩ := Option.map_eq_some_iff.mp hentered
      exact Or.inl (absorbs_intern lex s)
  | mint sort =>
      cases h
      exact Or.inr ⟨sort, rfl⟩
  | substitute a b c =>
      simp only [perform?, Option.bind_eq_bind, Option.bind_eq_some_iff, Option.pure_def,
        Option.some.injEq] at h
      obtain ⟨s, -, target, -, term, -, rfl⟩ := h
      exact Or.inl (absorbs_intern lex _)
  | read text =>
      cases h
      exact Or.inl (absorbs_read lex text)

theorem develops_perform? {call : Call} (h : lex.perform? call = some lex') :
    lex.Develops lex' := by
  rcases absorbs_or_mint_of_perform? h with habsorbs | ⟨sort, rfl⟩
  · exact habsorbs.develops
  · exact develops_mint lex sort

theorem develops_performAll? {calls : List Call} (h : lex.performAll? calls = some lex') :
    lex.Develops lex' := by
  induction calls generalizing lex with
  | nil =>
      cases h
      exact .refl
  | cons call calls ih =>
      rw [performAll?, List.foldlM_cons, Option.bind_eq_bind, Option.bind_eq_some_iff] at h
      obtain ⟨mid, hfirst, hrest⟩ := h
      exact (develops_perform? hfirst).trans (ih hrest)

/-- A call whose arguments are numbers of sentences is performed. -/
theorem exists_perform? {call : Call} (hwell : call.isWellFormed = true)
    (harguments : ∀ n ∈ call.arguments, n < lex.size) : ∃ lex', lex.perform? call = some lex' := by
  cases call with
  | enter shape =>
      obtain ⟨xs, hxs⟩ : ∃ xs, lex.Number shape.parts xs := exists_number harguments
      have hsome : (shape.symbol.compose? xs).isSome = true := by
        rw [Symbol.isSome_compose?, ← hxs.length_eq]
        exact hwell
      obtain ⟨s, hs⟩ := Option.isSome_iff_exists.mp hsome
      have hsentence : lex.sentence? shape = some s := by
        rw [sentence?, mapM_eq_some_iff.mpr hxs, Option.bind_some, hs]
      exact ⟨lex.intern s, by rw [perform?, enter?, hsentence]; rfl⟩
  | mint sort => exact ⟨_, rfl⟩
  | substitute a b c =>
      obtain ⟨s, hs⟩ := lt_size_iff.mp (harguments a (by simp [Call.arguments]))
      obtain ⟨target, htarget⟩ := lt_size_iff.mp (harguments b (by simp [Call.arguments]))
      obtain ⟨term, hterm⟩ := lt_size_iff.mp (harguments c (by simp [Call.arguments]))
      simp [perform?, hs, htarget, hterm]
  | read text => exact ⟨_, rfl⟩

end Lexicon

end Tableau
