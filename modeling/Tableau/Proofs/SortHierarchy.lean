/-
The order of sorts.  Every declaration adds a sort below one that exists, repeats an earlier
declaration, or is refused.  So the supersorts of a sort are what going up from parent to parent
meets, subsorts are ordered like the nodes of a tree with the root sort on top, every sort is
found by its name, and nothing that has been declared ever changes.
-/
import Tableau.Proofs.Intake

namespace Tableau

namespace Sorts

variable {sorts sorts' : Sorts} {name other : String} {parent sort s : SortId}

/-- The hierarchy after a declaration; if it is refused, all stays as it is. -/
def declared (sorts : Sorts) (name : String) (parent : SortId) : Sorts :=
  match sorts.declare name parent with
  | .ok r => r.2
  | .error _ => sorts

/-- The hierarchies that arise from one by any declarations below sorts that exist. -/
inductive Arises (origin : Sorts) : Sorts → Prop where
  | refl : Arises origin origin
  | declare {sorts : Sorts} (name : String) {parent : SortId} :
      Arises origin sorts → parent < sorts.size → Arises origin (sorts.declared name parent)

/-- The sort that is met after going up so many parents, if there are as many. -/
def climb? (sorts : Sorts) : Nat → SortId → Option SortId
  | 0, s => some s
  | steps + 1, s => (sorts.parent? s).bind (sorts.climb? steps)

/-- Sorts form a tree with the root sort on top, and their names tell them apart.  The
supersorts of a sort are those that are met on the way up to the root. -/
structure IsTreeOrder (sorts : Sorts) : Prop where
  climbs : ∀ s < sorts.size, ∀ steps, (sorts.ancestors s)[steps]? = sorts.climb? steps s
  ends : ∀ s < sorts.size, (sorts.ancestors s).getLast? = some SortId.object
  refl : ∀ s < sorts.size, sorts.isSubsort s s = true
  trans : ∀ a b c, sorts.isSubsort a b = true → sorts.isSubsort b c = true →
    sorts.isSubsort a c = true
  antisymm : ∀ a b, sorts.isSubsort a b = true → sorts.isSubsort b a = true → a = b
  top : ∀ s < sorts.size, sorts.isSubsort s SortId.object = true
  comparable : ∀ s a b, sorts.isSubsort s a = true → sorts.isSubsort s b = true →
    sorts.isSubsort a b = true ∨ sorts.isSubsort b a = true
  named : ∀ s < sorts.size, sorts.find? (sorts.name s) = some s

/-- The sorts of one hierarchy are in the other, with their names, parents and supersorts. -/
structure GrowsTo (sorts sorts' : Sorts) : Prop where
  size_le : sorts.size ≤ sorts'.size
  name : ∀ s < sorts.size, sorts'.name s = sorts.name s
  parent? : ∀ s < sorts.size, sorts'.parent? s = sorts.parent? s
  isSubsort : ∀ a < sorts.size, ∀ b, sorts'.isSubsort a b = sorts.isSubsort a b

/-- What declaring a sort below a parent does.  It returns a sort that exists if and only if this
has the same name and parent, and then changes nothing.  Otherwise it adds a sort, or it is refused
because a sort of that name has another parent.  Where it is refused while a problem is being read,
the state of reading is left as it was. -/
structure DeclareLaws (sorts : Sorts) (name : String) (parent : SortId) : Prop where
  returns : ∀ s < sorts.size, (∃ sorts', sorts.declare name parent = .ok (s, sorts')) ↔
    sorts.name s = name ∧ sorts.parent? s = some parent
  repeats : ∀ s < sorts.size, ∀ sorts', sorts.declare name parent = .ok (s, sorts') → sorts' = sorts
  adds : ∀ s sorts', sorts.declare name parent = .ok (s, sorts') → sorts.size ≤ s →
    s = sorts.size ∧ sorts'.size = sorts.size + 1 ∧ sorts'.name s = name ∧
      sorts'.parent? s = some parent
  refuses : (∃ e, sorts.declare name parent = .error e) ↔
    ∃ s < sorts.size, sorts.name s = name ∧ sorts.parent? s ≠ some parent
  reads : ∀ r : Reader, r.lexicon.sorts = sorts →
    ((Reader.declareSort name parent).run.run r).2.lexicon.sorts = sorts.declared name parent
  keeps : ∀ (r r' : Reader) (e : ReadError), r.lexicon.sorts = sorts →
    (Reader.declareSort name parent).run.run r = (.error e, r') → r' = r

/-! One declaration. -/

/-- The hierarchy with one more sort. -/
def extend (sorts : Sorts) (name : String) (parent : SortId) : Sorts :=
  ⟨sorts.entries ++ [⟨name, sorts.ancestors parent⟩]⟩

theorem declare_of_find?_eq_none (h : sorts.find? name = none) :
    sorts.declare name parent = .ok (sorts.size, sorts.extend name parent) := by
  simp only [declare, h]
  rfl

theorem declare_of_find?_eq_some (h : sorts.find? name = some sort) :
    sorts.declare name parent =
      if sorts.parent? sort = some parent then .ok (sort, sorts) else .error ⟨name⟩ := by
  simp only [declare, h]

/-- A declaration adds a sort of a new name or has no effect. -/
theorem declared_eq (sorts : Sorts) (name : String) (parent : SortId) :
    sorts.declared name parent =
      if sorts.find? name = none then sorts.extend name parent else sorts := by
  cases hfind : sorts.find? name with
  | none => simp [declared, declare_of_find?_eq_none hfind]
  | some sort =>
      rw [if_neg (by simp), declared, declare_of_find?_eq_some hfind]
      by_cases hparent : sorts.parent? sort = some parent
      · rw [if_pos hparent]
      · rw [if_neg hparent]

@[simp]
theorem size_extend : (sorts.extend name parent).size = sorts.size + 1 := by
  simp [extend, size]

theorem entries_extend_of_lt (h : s < sorts.size) :
    (sorts.extend name parent).entries[s]? = sorts.entries[s]? :=
  List.getElem?_append_left h

theorem lineage_extend_of_lt (h : s < sorts.size) :
    (sorts.extend name parent).lineage s = sorts.lineage s := by
  simp only [lineage, entries_extend_of_lt h]

theorem name_extend_of_lt (h : s < sorts.size) :
    (sorts.extend name parent).name s = sorts.name s := by
  simp only [Sorts.name, entries_extend_of_lt h]

theorem lineage_extend_size :
    (sorts.extend name parent).lineage sorts.size = sorts.ancestors parent := by
  simp [lineage, extend, size]

theorem name_extend_size : (sorts.extend name parent).name sorts.size = name := by
  simp [Sorts.name, extend, size]

theorem find?_extend (h : sorts.find? name = none) :
    (sorts.extend name parent).find? other =
      if other = name then some sorts.size else sorts.find? other := by
  have hnew : [SortEntry.mk name (sorts.ancestors parent)].findIdx? (·.name == other) =
      if other = name then some 0 else none := by
    by_cases hname : other = name
    · simp [hname]
    · simp [hname, Ne.symm hname]
  simp only [find?, extend, List.findIdx?_append, hnew]
  split
  · next hname =>
      subst hname
      rw [show sorts.entries.findIdx? (·.name == other) = none from h]
      simp [size]
  · simp

/-! What all declarations keep. -/

/-- A hierarchy where only the root has no parent and every sort is found by its name. -/
structure IsWellDeclared (sorts : Sorts) : Prop extends sorts.IsHierarchy where
  inner : ∀ s < sorts.size, sorts.lineage s = [] → s = SortId.object
  named : ∀ s < sorts.size, sorts.find? (sorts.name s) = some s

theorem isWellDeclared_default : ({} : Sorts).IsWellDeclared where
  rooted := by decide
  ancestral := by
    intro s
    left
    cases s <;> rfl
  inner := by decide
  named := by decide

theorem IsWellDeclared.extend (h : sorts.IsWellDeclared) (hparent : parent < sorts.size)
    (hfind : sorts.find? name = none) : (sorts.extend name parent).IsWellDeclared where
  toIsHierarchy := h.toIsHierarchy.declare hparent (declare_of_find?_eq_none hfind)
  inner := by
    intro s hs hnil
    rcases Nat.lt_succ_iff_lt_or_eq.mp (size_extend ▸ hs) with hold | rfl
    · rw [lineage_extend_of_lt hold] at hnil
      exact h.inner s hold hnil
    · rw [lineage_extend_size] at hnil
      contradiction
  named := by
    intro s hs
    rw [find?_extend hfind]
    rcases Nat.lt_succ_iff_lt_or_eq.mp (size_extend ▸ hs) with hold | rfl
    · have hnamed := h.named s hold
      rw [name_extend_of_lt hold, if_neg, hnamed]
      rintro rfl
      rw [hnamed] at hfind
      contradiction
    · rw [name_extend_size, if_pos rfl]

theorem growsTo_extend (sorts : Sorts) (name : String) (parent : SortId) :
    sorts.GrowsTo (sorts.extend name parent) where
  size_le := by simp
  name _ hs := name_extend_of_lt hs
  parent? _ hs := by rw [Sorts.parent?, lineage_extend_of_lt hs, Sorts.parent?]
  isSubsort a ha b := by
    rw [Sorts.isSubsort, ancestors, lineage_extend_of_lt ha, Sorts.isSubsort, ancestors]

namespace GrowsTo

theorem refl (sorts : Sorts) : sorts.GrowsTo sorts where
  size_le := Nat.le_refl _
  name _ _ := rfl
  parent? _ _ := rfl
  isSubsort _ _ _ := rfl

theorem trans {sorts'' : Sorts} (h : sorts.GrowsTo sorts') (h' : sorts'.GrowsTo sorts'') :
    sorts.GrowsTo sorts'' := by
  have hlt : ∀ s < sorts.size, s < sorts'.size := fun s hs => Nat.lt_of_lt_of_le hs h.size_le
  constructor
  · exact Nat.le_trans h.size_le h'.size_le
  · intro s hs
    rw [h'.name s (hlt s hs), h.name s hs]
  · intro s hs
    rw [h'.parent? s (hlt s hs), h.parent? s hs]
  · intro a ha b
    rw [h'.isSubsort a (hlt a ha), h.isSubsort a ha]

end GrowsTo

theorem growsTo_declared (sorts : Sorts) (name : String) (parent : SortId) :
    sorts.GrowsTo (sorts.declared name parent) := by
  rw [declared_eq]
  split
  · exact growsTo_extend sorts name parent
  · exact .refl sorts

theorem Arises.growsTo (h : sorts.Arises sorts') : sorts.GrowsTo sorts' := by
  induction h with
  | refl => exact .refl sorts
  | declare name _ _ ih => exact ih.trans (growsTo_declared ..)

theorem Arises.isWellDeclared (h : sorts.Arises sorts') (hsorts : sorts.IsWellDeclared) :
    sorts'.IsWellDeclared := by
  induction h with
  | refl => exact hsorts
  | declare name _ hparent ih =>
      rw [declared_eq]
      split
      · next hfind => exact ih.extend hparent hfind
      · exact ih

/-! The order of subsorts. -/

/-- The supersorts of a sort come in the order of going up. -/
theorem IsHierarchy.getElem?_ancestors (h : sorts.IsHierarchy) (s : SortId) (steps : Nat) :
    (sorts.ancestors s)[steps]? = sorts.climb? steps s := by
  induction steps generalizing s with
  | zero => rfl
  | succ steps ih =>
      rw [climb?, Sorts.parent?, ancestors, List.getElem?_cons_succ]
      rcases h.ancestral s with hnil | ⟨above, -, hcons⟩
      · rw [hnil]
        rfl
      · rw [hcons]
        exact ih above

namespace IsWellDeclared

variable (h : sorts.IsWellDeclared)
include h

/-- Going up ends at the root. -/
theorem getLast?_ancestors (hs : s < sorts.size) :
    (sorts.ancestors s).getLast? = some SortId.object := by
  induction s using Nat.strongRecOn with
  | ind s ih =>
      rcases h.ancestral s with hnil | ⟨above, hlt, hcons⟩
      · rw [ancestors, hnil, h.inner s hs hnil]
        rfl
      · have habove : sorts.ancestors s = s :: sorts.ancestors above := congrArg (s :: ·) hcons
        rw [habove, List.getLast?_cons, ih above hlt (Nat.lt_trans hlt hs)]
        rfl

/-- The order of subsorts is that of lineages, which go back to earlier and earlier sorts. -/
theorem isTreeOrder : sorts.IsTreeOrder where
  climbs s _ steps := h.getElem?_ancestors s steps
  ends _ hs := h.getLast?_ancestors hs
  refl s _ := List.contains_iff_mem.mpr List.mem_cons_self
  trans a b c hab hbc := by
    have hmem := h.ancestral.mem_trans (List.contains_iff_mem.mp hab) (List.contains_iff_mem.mp hbc)
    exact List.contains_iff_mem.mpr hmem
  antisymm a b hab hba := by
    rcases List.mem_cons.mp (List.contains_iff_mem.mp hab) with heq | hbelow
    · exact heq.symm
    · rcases List.mem_cons.mp (List.contains_iff_mem.mp hba) with heq | habove
      · exact heq
      · exact absurd (h.ancestral.lt_of_mem hbelow) (Nat.lt_asymm (h.ancestral.lt_of_mem habove))
  top _ hs := List.contains_iff_mem.mpr (List.mem_of_getLast? (h.getLast?_ancestors hs))
  comparable s a b ha hb := by
    have hmem := h.ancestral.mem_or_mem (List.contains_iff_mem.mp ha) (List.contains_iff_mem.mp hb)
    exact hmem.imp List.contains_iff_mem.mpr List.contains_iff_mem.mpr
  named := h.named

/-- What a name finds is the sort that has the name. -/
theorem find?_eq_some_iff : sorts.find? name = some s ↔ s < sorts.size ∧ sorts.name s = name := by
  constructor
  · intro hfind
    have hlt := lt_size_of_find? hfind
    obtain ⟨hentry, hname, -⟩ := List.findIdx?_eq_some_iff_getElem.mp hfind
    refine ⟨hlt, ?_⟩
    rw [Sorts.name, List.getElem?_eq_getElem hentry]
    exact beq_iff_eq.mp hname
  · rintro ⟨hlt, rfl⟩
    exact h.named s hlt

/-- A declaration that is accepted repeats another one or gives a sort to a new name. -/
theorem declare_eq_ok_iff : sorts.declare name parent = .ok (s, sorts') ↔
    (s < sorts.size ∧ sorts.name s = name ∧ sorts.parent? s = some parent ∧ sorts' = sorts) ∨
      (∀ old < sorts.size, sorts.name old ≠ name) ∧ s = sorts.size ∧
        sorts' = sorts.extend name parent := by
  cases hfind : sorts.find? name with
  | none =>
      have hnew : ∀ old < sorts.size, sorts.name old ≠ name := by
        intro old hold hname
        rw [h.find?_eq_some_iff.mpr ⟨hold, hname⟩] at hfind
        contradiction
      rw [declare_of_find?_eq_none hfind, Except.ok.injEq, Prod.mk.injEq]
      constructor
      · rintro ⟨rfl, rfl⟩
        exact .inr ⟨hnew, rfl, rfl⟩
      · rintro (⟨hs, hname, -⟩ | ⟨-, rfl, rfl⟩)
        · exact absurd hname (hnew s hs)
        · exact ⟨rfl, rfl⟩
  | some sort =>
      obtain ⟨hsort, hname⟩ := h.find?_eq_some_iff.mp hfind
      rw [declare_of_find?_eq_some hfind]
      constructor
      · intro hdeclare
        split at hdeclare
        · next hparent =>
            obtain ⟨rfl, rfl⟩ := Prod.mk.inj (Except.ok.inj hdeclare)
            exact .inl ⟨hsort, hname, hparent, rfl⟩
        · contradiction
      · rintro (⟨hs, hsame, hparent, rfl⟩ | ⟨hnew, -⟩)
        · obtain rfl : s = sort :=
            Option.some.inj ((h.find?_eq_some_iff.mpr ⟨hs, hsame⟩).symm.trans hfind)
          rw [if_pos hparent]
        · exact absurd hname (hnew sort hsort)

/-- A declaration is refused if a sort of that name has another parent. -/
theorem declare_eq_error_iff : (∃ e, sorts.declare name parent = .error e) ↔
    ∃ s < sorts.size, sorts.name s = name ∧ sorts.parent? s ≠ some parent := by
  constructor
  · rintro ⟨e, hrefused⟩
    cases hfind : sorts.find? name with
    | none =>
        rw [declare_of_find?_eq_none hfind] at hrefused
        contradiction
    | some sort =>
        obtain ⟨hsort, hname⟩ := h.find?_eq_some_iff.mp hfind
        refine ⟨sort, hsort, hname, fun hparent => ?_⟩
        rw [declare_of_find?_eq_some hfind, if_pos hparent] at hrefused
        contradiction
  · rintro ⟨s, hs, hname, hparent⟩
    exact ⟨⟨name⟩, by
      rw [declare_of_find?_eq_some (h.find?_eq_some_iff.mpr ⟨hs, hname⟩), if_neg hparent]⟩

theorem declareLaws (name : String) (parent : SortId) : sorts.DeclareLaws name parent where
  returns s hs := by
    simp only [h.declare_eq_ok_iff]
    constructor
    · rintro ⟨sorts', ⟨-, hname, hparent, -⟩ | ⟨-, rfl, -⟩⟩
      · exact ⟨hname, hparent⟩
      · exact absurd hs (Nat.lt_irrefl _)
    · rintro ⟨hname, hparent⟩
      exact ⟨sorts, .inl ⟨hs, hname, hparent, rfl⟩⟩
  repeats s hs sorts' hdeclare := by
    rcases h.declare_eq_ok_iff.mp hdeclare with ⟨-, -, -, hsame⟩ | ⟨-, rfl, -⟩
    · exact hsame
    · exact absurd hs (Nat.lt_irrefl _)
  adds s sorts' hdeclare hnew := by
    rcases h.declare_eq_ok_iff.mp hdeclare with ⟨hs, -⟩ | ⟨-, rfl, rfl⟩
    · exact absurd hs (Nat.not_lt.mpr hnew)
    · refine ⟨rfl, size_extend, name_extend_size, ?_⟩
      rw [Sorts.parent?, lineage_extend_size]
      rfl
  refuses := h.declare_eq_error_iff
  reads := by
    rintro r rfl
    unfold declared
    split
    · next hdeclare => rw [Reader.run_declareSort_of_ok hdeclare]
    · next hdeclare => rw [Reader.run_declareSort_of_error hdeclare]
  keeps r r' e _ hrun := by
    cases hdeclare : r.lexicon.sorts.declare name parent with
    | ok found =>
        rw [Reader.run_declareSort_of_ok hdeclare] at hrun
        cases congrArg Prod.fst hrun
    | error redeclared =>
        rw [Reader.run_declareSort_of_error hdeclare] at hrun
        exact (congrArg Prod.snd hrun).symm

end IsWellDeclared

/-- Starting from the root sort, any declarations below sorts that exist lead to a tree of sorts.
Whatever is declared then, it keeps the names, the parents and the order of all these sorts, and
it is repeated, added or refused by its name and parent alone. -/
theorem Arises.isTreeOrder_and_growsTo (h : ({} : Sorts).Arises sorts) :
    sorts.IsTreeOrder ∧ (∀ sorts', sorts.Arises sorts' → sorts.GrowsTo sorts') ∧
      ∀ name parent, sorts.DeclareLaws name parent := by
  have hsorts := h.isWellDeclared isWellDeclared_default
  exact ⟨hsorts.isTreeOrder, fun _ hlater => hlater.growsTo, hsorts.declareLaws⟩

/-- Animals, dogs and plants.  That dogs are animals is repeated, and that they are plants is
refused. -/
theorem isTreeOrder_and_growsTo_of_dogs :
    let sorts := ((({} : Sorts).declared "Animal" 0).declared "Dog" 1).declared "Plant" 0
    let later := ((sorts.declared "Dog" 1).declared "Dog" 3).declared "Poodle" 2
    ({} : Sorts).Arises sorts ∧ sorts.Arises later ∧ sorts.size = 4 ∧ later.size = 5 ∧
      sorts.IsTreeOrder ∧ sorts.GrowsTo later ∧ sorts.DeclareLaws "Dog" 3 ∧
      later.ancestors 4 = [4, 2, 1, 0] ∧ (sorts.declare "Dog" 3).toOption = none := by
  intro sorts later
  have hsorts : ({} : Sorts).Arises sorts :=
    ((Arises.refl.declare "Animal" (by decide)).declare "Dog" (by decide)).declare
      "Plant" (by decide)
  have hlater : sorts.Arises later :=
    ((Arises.refl.declare "Dog" (by decide)).declare "Dog" (by decide)).declare "Poodle" (by decide)
  obtain ⟨horder, hgrows, hlaws⟩ := hsorts.isTreeOrder_and_growsTo
  exact ⟨hsorts, hlater, by decide, by decide, horder, hgrows later hlater,
    hlaws "Dog" 3, by decide, by decide⟩

end Sorts

end Tableau
