/-
Registers.  Where a lexicon holds sentences, a register holds shapes, with numbers in the place
of parts.  It keeps three tables side by side: the shapes in the order of their numbers, an
index from shapes to numbers, and the names of the constants.  What ties the tables together
is kept by all that is asked of a register, and it makes the numbers canonical, however deep
the sentences are that they stand for.
-/
import Tableau.Proofs.Substitution

namespace Tableau

namespace Shape

variable {kind? : Nat → Option Shape} {find? : Shape → Option Nat} {names : List String}
  {n m : Nat} {s : Sentence}

/-- The index is that of the shapes, parts have smaller numbers, every symbol has as many parts as
it takes, and the names are those of the constants. -/
structure IsWellKept (kind? : Nat → Option Shape) (find? : Shape → Option Nat)
    (names : List String) : Prop where
  found : ∀ n shape, kind? n = some shape ↔ find? shape = some n
  parts : ∀ n shape, kind? n = some shape → ∀ m ∈ shape.parts, m < n
  arity : ∀ n shape, kind? n = some shape → shape.symbol.takes shape.parts.length = true
  names : ∀ name, name ∈ names ↔ ∃ n sort, kind? n = some ⟨.const name sort, []⟩

/-- Numbers are canonical: beyond what is kept, each of them stands for a sentence, and two of
them are the same if and only if their sentences are. -/
structure IsCanonical (kind? : Nat → Option Shape) (find? : Shape → Option Nat)
    (names : List String) : Prop extends IsWellKept kind? find? names where
  expands : ∀ n, (kind? n).isSome = true → (expand? kind? n).isSome = true
  unique : ∀ n, (kind? n).isSome = true → ∀ m, n = m ↔ expand? kind? n = expand? kind? m

namespace IsWellKept

theorem expand?_eq_some_iff (h : IsWellKept kind? find? names) :
    expand? kind? n = some s ↔ ∃ shape, kind? n = some shape ∧ s.symbol = shape.symbol ∧
      Expand kind? shape.parts s.parts :=
  Shape.expand?_eq_some_iff (h.parts n)

theorem exists_expand {ns : List Nat} (h : ∀ n ∈ ns, ∃ s, expand? kind? n = some s) :
    ∃ xs, Expand kind? ns xs := by
  induction ns with
  | nil => exact ⟨[], .nil⟩
  | cons n ns ih =>
      obtain ⟨⟨x, hx⟩, hns⟩ := List.forall_mem_cons.mp h
      obtain ⟨xs, hxs⟩ := ih hns
      exact ⟨x :: xs, .cons hx hxs⟩

/-- Every number stands for a sentence, put together from those of its parts, of which there are
as many as there should be. -/
theorem exists_expand? (h : IsWellKept kind? find? names)
    (hkinds : ∀ m < n, (kind? m).isSome = true) (hn : (kind? n).isSome = true) :
    ∃ s, expand? kind? n = some s := by
  induction n using Nat.strongRecOn with
  | ind n ih =>
      obtain ⟨shape, hshape⟩ := Option.isSome_iff_exists.mp hn
      obtain ⟨xs, hxs⟩ : ∃ xs, Expand kind? shape.parts xs := by
        refine exists_expand fun m hm => ?_
        have hmn := h.parts n shape hshape m hm
        exact ih m hmn (fun k hk => hkinds k (Nat.lt_trans hk hmn)) (hkinds m hmn)
      have hsome : (shape.symbol.compose? xs).isSome = true := by
        rw [Symbol.isSome_compose?, ← List.Forall₂.length_eq hxs]
        exact h.arity n shape hshape
      obtain ⟨s, hs⟩ := Option.isSome_iff_exists.mp hsome
      obtain ⟨hsymbol, rfl⟩ := Symbol.compose?_eq_some_iff.mp hs
      exact ⟨s, h.expand?_eq_some_iff.mpr ⟨shape, hshape, hsymbol, hxs⟩⟩

theorem eq_of_expand {ns ms : List Nat} {xs : List Sentence}
    (hunique : ∀ n ∈ ns, ∀ m x, expand? kind? n = some x → expand? kind? m = some x → n = m)
    (hns : Expand kind? ns xs) (hms : Expand kind? ms xs) : ns = ms := by
  induction hns generalizing ms with
  | nil => exact (List.forall₂_nil_right_iff.mp hms).symm
  | @cons n x ns xs hn _ ih =>
      obtain ⟨m, ms, hm, hrest, rfl⟩ := List.forall₂_cons_right_iff.mp hms
      obtain ⟨hfirst, hunique⟩ := List.forall_mem_cons.mp hunique
      rw [hfirst m x hn hm, ih hunique hrest]

/-- Numbers that stand for the same sentence are the same: their shapes have the same symbol and,
by induction on the numbers, the same parts; and the index has one number for a shape. -/
theorem eq_of_expand? (h : IsWellKept kind? find? names) (hn : expand? kind? n = some s)
    (hm : expand? kind? m = some s) : n = m := by
  induction n using Nat.strongRecOn generalizing m s with
  | ind n ih =>
      obtain ⟨shape, hshape, hsymbol, hparts⟩ := h.expand?_eq_some_iff.mp hn
      obtain ⟨other, hother, hsymbol', hparts'⟩ := h.expand?_eq_some_iff.mp hm
      have hsame : shape = other := by
        obtain ⟨symbol, parts⟩ := shape
        obtain ⟨symbol', parts'⟩ := other
        obtain rfl : symbol = symbol' := hsymbol.symm.trans hsymbol'
        obtain rfl : parts = parts' :=
          eq_of_expand (fun k hk m x => ih k (h.parts n _ hshape k hk)) hparts hparts'
        rfl
      have hfind := (h.found n shape).mp hshape
      rw [hsame, (h.found m other).mp hother] at hfind
      exact (Option.some.inj hfind).symm

end IsWellKept

end Shape

/-- The name of a constant. -/
def Symbol.constantName? : Symbol → Option String
  | const name _ => some name
  | _ => none

theorem Symbol.constantName?_symbol (s : Sentence) :
    s.symbol.constantName? = s.constantName? := by
  cases s <;> rfl

structure Register where
  kinds : List Shape := []
  /-- The numbers of the shapes, the last one first. -/
  index : List (Shape × Nat) := []
  /-- The names of the constants among the shapes, of whatever sort. -/
  names : List String := []
  /-- The number in the name of the last minted constant. -/
  fresh : Nat := 0
  /-- How many constants have been minted. -/
  minted : Nat := 0

namespace Register

variable {reg reg' : Register} {shape : Shape} {n : Nat}

def size (reg : Register) : Nat := reg.kinds.length

def kind? (reg : Register) (n : Nat) : Option Shape := reg.kinds[n]?

def find? (reg : Register) (shape : Shape) : Option Nat := reg.index.lookup shape

/-- The sentence that a number stands for. -/
def expand? (reg : Register) : Nat → Option Sentence := Shape.expand? reg.kind?

/-- Adds a shape to all the tables. -/
def push (reg : Register) (shape : Shape) : Register :=
  { reg with
    kinds := reg.kinds ++ [shape]
    index := (shape, reg.size) :: reg.index
    names := Lexicon.insertName reg.names shape.symbol.constantName? }

/-- The number of a shape, which is added if the index does not have it. -/
def intern (reg : Register) (shape : Shape) : Nat × Register :=
  match reg.find? shape with
  | some n => (n, reg)
  | none => (reg.size, reg.push shape)

/-- Counts one more constant and finds its number. -/
def count (reg : Register) : Register :=
  { reg with
    fresh := Lexicon.freeNumber reg.names.contains reg.names.length (reg.fresh + 1)
    minted := reg.minted + 1 }

/-- Interns a new constant of the given sort. -/
def mint (reg : Register) (sort : SortId) : Nat × Register :=
  reg.count.intern ⟨.const (Lexicon.constantName reg.count.fresh) sort, []⟩

def interning (shape : Shape) : BuildM Register Nat := fun reg => some (reg.intern shape)

/-- Puts a number for another and interns what is new. -/
def substitute? (reg : Register) (n target term : Nat) : Option (Nat × Register) :=
  Shape.replace kind? interning target term n reg

/-- What ties the tables of a register together. -/
abbrev IsWellKept (reg : Register) : Prop := Shape.IsWellKept reg.kind? reg.find? reg.names

abbrev IsCanonical (reg : Register) : Prop := Shape.IsCanonical reg.kind? reg.find? reg.names

/-- A shape may be interned: its parts have numbers, and there are as many as there should be. -/
structure Admits (reg : Register) (shape : Shape) : Prop where
  parts : ∀ m ∈ shape.parts, m < reg.size
  arity : shape.symbol.takes shape.parts.length = true

theorem admits_const (reg : Register) (name : String) (sort : SortId) :
    reg.Admits ⟨.const name sort, []⟩ := ⟨by simp, rfl⟩

theorem isSome_kind?_iff : (reg.kind? n).isSome = true ↔ n < reg.size := by
  simp [kind?, size]

theorem lt_size_of_kind? (h : reg.kind? n = some shape) : n < reg.size :=
  isSome_kind?_iff.mp (Option.isSome_of_eq_some h)

theorem kind?_of_extends (h : reg.kinds <+: reg'.kinds) (hkind : reg.kind? n = some shape) :
    reg'.kind? n = some shape := by
  obtain ⟨added, hadded⟩ := h
  rw [kind?, ← hadded, List.getElem?_append_left (lt_size_of_kind? hkind)]
  exact hkind

theorem IsWellKept.isCanonical (h : reg.IsWellKept) : reg.IsCanonical := by
  have hexpands : ∀ n, (reg.kind? n).isSome = true → ∃ s, reg.expand? n = some s := by
    intro n hn
    refine h.exists_expand? (fun m hm => ?_) hn
    exact isSome_kind?_iff.mpr (Nat.lt_trans hm (isSome_kind?_iff.mp hn))
  refine ⟨h, fun n hn => Option.isSome_iff_exists.mpr (hexpands n hn), fun n hn m => ?_⟩
  obtain ⟨s, hs⟩ := hexpands n hn
  exact ⟨congrArg reg.expand?, fun heq => h.eq_of_expand? hs (heq ▸ hs)⟩

/-! The tables stay in agreement. -/

theorem kind?_push (reg : Register) (shape : Shape) (n : Nat) :
    (reg.push shape).kind? n = if n = reg.size then some shape else reg.kind? n := by
  unfold push kind? size
  by_cases hn : n = reg.kinds.length
  · simp [hn]
  · rw [if_neg hn, List.getElem?_append]
    split
    · rfl
    · rw [List.getElem?_eq_none (by simp; omega), List.getElem?_eq_none (by omega)]

theorem eq_or_kind?_of_push {other : Shape} (h : (reg.push shape).kind? n = some other) :
    n = reg.size ∧ other = shape ∨ reg.kind? n = some other := by
  rw [kind?_push] at h
  split at h
  · next hn => exact Or.inl ⟨hn, (Option.some.inj h).symm⟩
  · exact Or.inr h

theorem find?_push (reg : Register) (shape other : Shape) :
    (reg.push shape).find? other = if other = shape then some reg.size else reg.find? other := by
  unfold push find?
  rw [List.lookup_cons]
  by_cases h : other = shape
  · simp [h]
  · simp [h, beq_eq_false_iff_ne.mpr h]

theorem mem_names_push {name : String} (harity : shape.symbol.takes shape.parts.length = true) :
    name ∈ (reg.push shape).names ↔ name ∈ reg.names ∨ ∃ sort, shape = ⟨.const name sort, []⟩ := by
  obtain ⟨symbol, parts⟩ := shape
  cases symbol with
  | const other sort =>
      obtain rfl : parts = [] := by simpa [Symbol.takes] using harity
      simp [push, Symbol.constantName?, Lexicon.insertName, or_comm, eq_comm]
  | _ => simp [push, Symbol.constantName?, Lexicon.insertName]

theorem intern_of_some (h : reg.find? shape = some n) : reg.intern shape = (n, reg) := by
  simp [intern, h]

theorem intern_of_none (h : reg.find? shape = none) :
    reg.intern shape = (reg.size, reg.push shape) := by
  simp [intern, h]

theorem isWellKept_empty : IsWellKept {} where
  found := by simp [kind?, find?]
  parts := by simp [kind?]
  arity := by simp [kind?]
  names := by simp [kind?]

namespace IsWellKept

theorem push (h : reg.IsWellKept) (hadmits : reg.Admits shape) (hnew : reg.find? shape = none) :
    (reg.push shape).IsWellKept where
  found n other := by
    rw [kind?_push, find?_push]
    by_cases hn : n = reg.size
    · -- The last number is that of the new shape and of no other.
      subst hn
      rw [if_pos rfl, Option.some.injEq]
      constructor
      · rintro rfl
        rw [if_pos rfl]
      · split
        · next heq => exact fun _ => heq.symm
        · intro hfind
          exact absurd (lt_size_of_kind? ((h.found _ _).mpr hfind)) (Nat.lt_irrefl _)
    · rw [if_neg hn, h.found]
      split
      · next heq =>
          subst heq
          simp [hnew, Ne.symm hn]
      · rfl
  parts n other hkind m hm := by
    rcases eq_or_kind?_of_push hkind with ⟨rfl, rfl⟩ | hold
    · exact hadmits.parts m hm
    · exact h.parts n other hold m hm
  arity n other hkind := by
    rcases eq_or_kind?_of_push hkind with ⟨-, rfl⟩ | hold
    · exact hadmits.arity
    · exact h.arity n other hold
  names name := by
    rw [mem_names_push hadmits.arity, h.names name]
    constructor
    · rintro (⟨n, sort, hkind⟩ | ⟨sort, rfl⟩)
      · refine ⟨n, sort, ?_⟩
        rw [kind?_push, if_neg (Nat.ne_of_lt (lt_size_of_kind? hkind)), hkind]
      · exact ⟨reg.size, sort, by rw [kind?_push, if_pos rfl]⟩
    · rintro ⟨n, sort, hkind⟩
      rcases eq_or_kind?_of_push hkind with ⟨-, hshape⟩ | hold
      · exact Or.inr ⟨sort, hshape.symm⟩
      · exact Or.inl ⟨n, sort, hold⟩

theorem intern (h : reg.IsWellKept) (hadmits : reg.Admits shape) :
    (reg.intern shape).2.IsWellKept := by
  cases hfind : reg.find? shape with
  | some n => rwa [intern_of_some hfind]
  | none =>
      rw [intern_of_none hfind]
      exact h.push hadmits hfind

theorem count (h : reg.IsWellKept) : reg.count.IsWellKept :=
  ⟨h.found, h.parts, h.arity, h.names⟩

/-- A shape that is interned has the number that is given for it. -/
theorem kind?_intern (h : reg.IsWellKept) (shape : Shape) :
    (reg.intern shape).2.kind? (reg.intern shape).1 = some shape := by
  cases hfind : reg.find? shape with
  | some n =>
      rw [intern_of_some hfind]
      exact (h.found n shape).mpr hfind
  | none => rw [intern_of_none hfind, kind?_push, if_pos rfl]

end IsWellKept

theorem kinds_intern (reg : Register) (shape : Shape) :
    reg.kinds <+: (reg.intern shape).2.kinds := by
  cases hfind : reg.find? shape with
  | some n => simp [intern_of_some hfind]
  | none => simp [intern_of_none hfind, push]

/-- A register becomes another one by interning shapes that it admits. -/
inductive Interns (reg : Register) : Register → Prop where
  | refl : Interns reg reg
  | intern {reg' : Register} {shape : Shape} : Interns reg reg' → reg'.Admits shape →
      Interns reg (reg'.intern shape).2

namespace Interns

theorem trans {reg'' : Register} (h : Interns reg reg') (h' : Interns reg' reg'') :
    Interns reg reg'' := by
  induction h' with
  | refl => exact h
  | intern _ hadmits ih => exact ih.intern hadmits

theorem isWellKept (h : Interns reg reg') (hreg : reg.IsWellKept) : reg'.IsWellKept := by
  induction h with
  | refl => exact hreg
  | intern _ hadmits ih => exact ih.intern hadmits

theorem kinds (h : Interns reg reg') : reg.kinds <+: reg'.kinds := by
  induction h with
  | refl => exact List.prefix_rfl
  | intern _ _ ih => exact ih.trans (kinds_intern ..)

theorem size_le (h : Interns reg reg') : reg.size ≤ reg'.size := h.kinds.length_le

end Interns

/-! Substitution interns shapes and nothing else. -/

/-- Replacing in what has the number `n` succeeds, interns shapes on the way and ends with a
number of the register. -/
def ReplacesIn (a b n : Nat) : Prop :=
  ∀ reg : Register, reg.IsWellKept → b < reg.size → n < reg.size →
    ∃ k reg', Shape.replace kind? interning a b n reg = some (k, reg') ∧ reg.Interns reg' ∧
      k < reg'.size

theorem exists_mapM_replace {a b : Nat} {ms : List Nat} (ih : ∀ m < n, ReplacesIn a b m)
    (hms : ∀ m ∈ ms, m < n) (h : reg.IsWellKept) (hb : b < reg.size) (hn : n < reg.size) :
    ∃ ks reg', ms.mapM
        (fun m => if m < n then Shape.replace kind? interning a b m else failure) reg =
        some (ks, reg') ∧ reg.Interns reg' ∧ ks.length = ms.length ∧ ∀ k ∈ ks, k < reg'.size := by
  induction ms generalizing reg with
  | nil => exact ⟨[], reg, rfl, .refl, rfl, by simp⟩
  | cons m ms ihms =>
      obtain ⟨hm, hms⟩ := List.forall_mem_cons.mp hms
      obtain ⟨k, mid, hfirst, hinterns, hk⟩ := ih m hm reg h hb (Nat.lt_trans hm hn)
      have hsize := hinterns.size_le
      obtain ⟨ks, reg', hrest, hinterns', hlength, hks⟩ := ihms hms (hinterns.isWellKept h)
        (Nat.lt_of_lt_of_le hb hsize) (Nat.lt_of_lt_of_le hn hsize)
      refine ⟨k :: ks, reg', ?_, hinterns.trans hinterns', by simp [hlength],
        List.forall_mem_cons.mpr ⟨Nat.lt_of_lt_of_le hk hinterns'.size_le, hks⟩⟩
      rw [BuildM.mapM_cons_run, if_pos hm, hfirst, Option.bind_some, hrest]
      rfl

/-- A shape is admitted with other operands, if there are as many of them. -/
theorem IsWellKept.admits_operands (h : reg.IsWellKept) (hshape : reg.kind? n = some shape)
    (hinterns : reg.Interns reg') {ks : List Nat}
    (hlength : ks.length = (shape.parts.drop shape.symbol.bound).length)
    (hks : ∀ k ∈ ks, k < reg'.size) :
    reg'.Admits { shape with parts := shape.parts.take shape.symbol.bound ++ ks } := by
  refine ⟨fun m hm => ?_, ?_⟩
  · rcases List.mem_append.mp hm with hbinder | hoperand
    · have hmn := h.parts n shape hshape m (List.mem_of_mem_take hbinder)
      exact Nat.lt_of_lt_of_le (Nat.lt_trans hmn (lt_size_of_kind? hshape)) hinterns.size_le
    · exact hks m hoperand
  · have hsame : (shape.parts.take shape.symbol.bound ++ ks).length = shape.parts.length := by
      rw [List.length_append, hlength, ← List.length_append, List.take_append_drop]
    rw [hsame]
    exact h.arity n shape hshape

/-- Induction on the number, while the register grows from operand to operand. -/
theorem replacesIn (a b n : Nat) : ReplacesIn a b n := by
  induction n using Nat.strongRecOn with
  | ind n ih =>
      intro reg h hb hn
      by_cases hsame : n = a
      · subst hsame
        exact ⟨b, reg, Shape.replace_self, .refl, hb⟩
      · obtain ⟨shape, hshape⟩ := Option.isSome_iff_exists.mp (isSome_kind?_iff.mpr hn)
        rw [Shape.replace_of_some hsame hshape]
        by_cases hbinds : a ∈ shape.parts.take shape.symbol.bound
        · exact ⟨n, reg, if_pos hbinds, .refl, hn⟩
        · obtain ⟨ks, reg', hmapM, hinterns, hlength, hks⟩ := exists_mapM_replace ih
            (fun m hm => h.parts n shape hshape m (List.mem_of_mem_drop hm)) h hb hn
          rw [if_neg hbinds, hmapM, Option.bind_some]
          simp only
          split
          · exact ⟨n, reg', rfl, hinterns, Nat.lt_of_lt_of_le hn hinterns.size_le⟩
          · have hadmits := h.admits_operands hshape hinterns hlength hks
            have hkind := (hinterns.isWellKept h).kind?_intern
              { shape with parts := shape.parts.take shape.symbol.bound ++ ks }
            exact ⟨_, _, rfl, hinterns.intern hadmits, lt_size_of_kind? hkind⟩

/-! Calls. -/

/-- What a call does to a register if its arguments are numbers of the register.  A text makes
it intern shapes, up to the place where reading fails if it does. -/
inductive Performs (reg : Register) : Lexicon.Call → Register → Prop where
  | enter {shape : Shape} : reg.Admits shape → Performs reg (.enter shape) (reg.intern shape).2
  | mint (sort : SortId) : Performs reg (.mint sort) (reg.mint sort).2
  | substitute {s target term n : Nat} {reg' : Register} :
      s < reg.size → target < reg.size → term < reg.size →
      reg.substitute? s target term = some (n, reg') → Performs reg (.substitute s target term) reg'
  | read {reg' : Register} (text : String) : reg.Interns reg' → Performs reg (.read text) reg'

inductive PerformsAll : Register → List Lexicon.Call → Register → Prop where
  | nil {reg : Register} : PerformsAll reg [] reg
  | cons {reg mid reg' : Register} {call : Lexicon.Call} {calls : List Lexicon.Call} :
      reg.Performs call mid → PerformsAll mid calls reg' → PerformsAll reg (call :: calls) reg'

/-- A register is well-kept after what is asked of it, and numbers keep their shapes. -/
def Keeps (reg reg' : Register) : Prop :=
  reg.IsWellKept → reg'.IsWellKept ∧ reg.kinds <+: reg'.kinds

theorem Interns.keeps (h : reg.Interns reg') : reg.Keeps reg' :=
  fun hreg => ⟨h.isWellKept hreg, h.kinds⟩

theorem Performs.keeps {call : Lexicon.Call} (h : reg.Performs call reg') : reg.Keeps reg' := by
  cases h with
  | enter hadmits => exact (Interns.refl.intern hadmits).keeps
  | mint sort =>
      intro hreg
      exact (Interns.refl.intern (admits_const ..)).keeps hreg.count
  | substitute hs _ hterm hrun =>
      intro hreg
      obtain ⟨k, mid, hreplace, hinterns, -⟩ := replacesIn _ _ _ reg hreg hterm hs
      obtain ⟨-, rfl⟩ := Prod.mk.inj (Option.some.inj (hrun.symm.trans hreplace))
      exact hinterns.keeps hreg
  | read _ hinterns => exact hinterns.keeps

theorem PerformsAll.keeps {calls : List Lexicon.Call} (h : reg.PerformsAll calls reg') :
    reg.Keeps reg' := by
  induction h with
  | nil => exact fun hreg => ⟨hreg, List.prefix_rfl⟩
  | cons hfirst _ ih =>
      intro hreg
      obtain ⟨hmid, hkept⟩ := hfirst.keeps hreg
      obtain ⟨hreg', hkept'⟩ := ih hmid
      exact ⟨hreg', hkept.trans hkept'⟩

/-- A call whose arguments are numbers of the register is performed. -/
theorem IsWellKept.exists_performs (h : reg.IsWellKept) {call : Lexicon.Call}
    (hwell : call.isWellFormed = true) (harguments : ∀ n ∈ call.arguments, n < reg.size) :
    ∃ reg', reg.Performs call reg' := by
  cases call with
  | enter shape => exact ⟨_, .enter ⟨harguments, hwell⟩⟩
  | mint sort => exact ⟨_, .mint sort⟩
  | substitute s target term =>
      simp only [Lexicon.Call.arguments, List.forall_mem_cons] at harguments
      obtain ⟨hs, htarget, hterm, -⟩ := harguments
      obtain ⟨k, reg', hreplace, -⟩ := replacesIn target term s reg h hterm hs
      exact ⟨reg', .substitute hs htarget hterm hreplace⟩
  | read text => exact ⟨_, .read text .refl⟩

end Register

end Tableau
