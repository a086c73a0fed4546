/-
Tables: what is noted of sentences.  A table is a search tree over fingerprints,
and sentences of one fingerprint share a row.  Whatever the fingerprints are, a
table lists every sentence it has a note of once, with the note that looking it up
finds.
-/
import Tableau.Sentence.Key
import Tableau.Update

namespace Tableau

/-- The rows of a table, by fingerprint. -/
inductive Rows (β : Type) where
  | nil
  | node (left : Rows β) (print : Nat) (row : List (Key × β)) (right : Rows β)

namespace Rows

variable {β : Type}

def find? (k : Key) : Rows β → Option β
  | nil => none
  | node left print row right =>
      if k.print < print then left.find? k
      else if print < k.print then right.find? k
      else row.lookup k

/-- Puts the entries of all rows before a list. -/
def entriesOnto : Rows β → List (Key × β) → List (Key × β)
  | nil, rest => rest
  | node left _ row right, rest => left.entriesOnto (row ++ right.entriesOnto rest)

/-- The entries of all rows, in the order of the fingerprints. -/
def entries (rows : Rows β) : List (Key × β) := rows.entriesOnto []

/-- Whether some entry passes a test. -/
@[specialize]
def any (test : Key → β → Bool) : Rows β → Bool
  | nil => false
  | node left _ row right =>
      row.any (fun entry => test entry.1 entry.2) || left.any test || right.any test

/-- Puts the keys of the entries of a row that pass a test before a list. -/
@[specialize]
def rowKeysOnto (test : Key → β → Bool) : List (Key × β) → List Key → List Key
  | [], rest => rest
  | entry :: row, rest =>
      let keys := rowKeysOnto test row rest
      if test entry.1 entry.2 then entry.1 :: keys else keys

/-- Puts the keys of all entries that pass a test before a list. -/
@[specialize]
def keysOnto (test : Key → β → Bool) : Rows β → List Key → List Key
  | nil, rest => rest
  | node left _ row right, rest =>
      left.keysOnto test (rowKeysOnto test row (right.keysOnto test rest))

/-- Changes the entry of a key in a row; if there is none, the change is made to
`initial`. -/
def alterRow (k : Key) (initial : β) (change : Update β) : Update (List (Key × β))
  | [] =>
      let r := change initial
      ([(k, r.1)], r.2)
  | (other, b) :: rest =>
      if other = k then
        let r := change b
        ((other, r.1) :: rest, r.2)
      else
        let r := alterRow k initial change rest
        ((other, b) :: r.1, r.2)

/-- Changes the entry of a key; if there is none, the change is made to `initial`. -/
def alter (k : Key) (initial : β) (change : Update β) : Update (Rows β)
  | nil =>
      let r := change initial
      (node nil k.print [(k, r.1)] nil, r.2)
  | node left print row right =>
      if k.print < print then
        let r := alter k initial change left
        (node r.1 print row right, r.2)
      else if print < k.print then
        let r := alter k initial change right
        (node left print row r.1, r.2)
      else
        let r := alterRow k initial change row
        (node left print r.1 right, r.2)

/-- Every entry is in the row of its fingerprint, the rows are in order, and no row
has two entries of one key. -/
def IsOrdered : Rows β → Prop
  | nil => True
  | node left print row right =>
      (∀ entry ∈ left.entries, entry.1.print < print) ∧
        (∀ entry ∈ row, entry.1.print = print) ∧
        (∀ entry ∈ right.entries, print < entry.1.print) ∧
        (row.map (·.1)).Nodup ∧ left.IsOrdered ∧ right.IsOrdered

theorem entriesOnto_append (rows : Rows β) (xs ys : List (Key × β)) :
    rows.entriesOnto (xs ++ ys) = rows.entriesOnto xs ++ ys := by
  induction rows generalizing xs with
  | nil => rfl
  | node left print row right ihl ihr => simp only [entriesOnto, ihr, ← List.append_assoc, ihl]

theorem entriesOnto_eq (rows : Rows β) (rest : List (Key × β)) :
    rows.entriesOnto rest = rows.entries ++ rest :=
  entriesOnto_append rows [] rest

@[simp]
theorem entries_nil : (nil : Rows β).entries = [] := rfl

@[simp]
theorem entries_node (left : Rows β) (print : Nat) (row : List (Key × β)) (right : Rows β) :
    (node left print row right).entries = left.entries ++ (row ++ right.entries) := by
  rw [entries, entriesOnto, entriesOnto_eq, entriesOnto_eq, List.append_nil]

theorem any_eq (test : Key → β → Bool) (rows : Rows β) :
    rows.any test = rows.entries.any fun entry => test entry.1 entry.2 := by
  induction rows with
  | nil => rfl
  | node left print row right ihl ihr => grind [any, entries_node]

theorem rowKeysOnto_eq (test : Key → β → Bool) (row : List (Key × β)) (rest : List Key) :
    rowKeysOnto test row rest =
      (row.filter fun entry => test entry.1 entry.2).map (·.1) ++ rest := by
  induction row with
  | nil => rfl
  | cons entry row ih => grind [rowKeysOnto]

theorem keysOnto_eq (test : Key → β → Bool) (rows : Rows β) (rest : List Key) :
    rows.keysOnto test rest =
      (rows.entries.filter fun entry => test entry.1 entry.2).map (·.1) ++ rest := by
  induction rows generalizing rest with
  | nil => rfl
  | node left print row right ihl ihr => simp [keysOnto, rowKeysOnto_eq, ihl, ihr]

theorem lookup_alterRow (k other : Key) (initial : β) (change : Update β)
    (row : List (Key × β)) :
    (alterRow k initial change row).1.lookup other =
      if other = k then some (change ((row.lookup k).getD initial)).1 else row.lookup other := by
  induction row with
  | nil => grind [alterRow]
  | cons entry rest ih => grind [alterRow]

theorem find?_alter (k other : Key) (initial : β) (change : Update β) (rows : Rows β) :
    (alter k initial change rows).1.find? other =
      if other = k then some (change ((rows.find? k).getD initial)).1 else rows.find? other := by
  induction rows with
  | nil => grind [alter, find?]
  | node left print row right ihl ihr => grind [alter, find?, lookup_alterRow]

theorem snd_alterRow (k : Key) (initial : β) (change : Update β) (row : List (Key × β)) :
    (alterRow k initial change row).2 = (change ((row.lookup k).getD initial)).2 := by
  induction row with
  | nil => rfl
  | cons entry rest ih =>
      obtain ⟨other, b⟩ := entry
      rw [List.lookup_cons]
      by_cases hk : other = k
      · subst hk
        rw [beq_self_eq_true]
        exact congrArg Prod.snd (if_pos rfl)
      · rw [beq_eq_false_iff_ne.mpr (Ne.symm hk)]
        exact (congrArg Prod.snd (if_neg hk)).trans ih

/-- What is reported is the effect on the entry of the key. -/
theorem snd_alter (k : Key) (initial : β) (change : Update β) (rows : Rows β) :
    (alter k initial change rows).2 = (change ((rows.find? k).getD initial)).2 := by
  induction rows with
  | nil => rfl
  | node left print row right ihl ihr =>
      by_cases hlt : k.print < print
      · have hfind : (node left print row right).find? k = left.find? k := if_pos hlt
        have halter : alter k initial change (node left print row right) =
            (node (alter k initial change left).1 print row right,
              (alter k initial change left).2) := if_pos hlt
        rw [hfind, halter]
        exact ihl
      · by_cases hgt : print < k.print
        · have hfind : (node left print row right).find? k = right.find? k :=
            (if_neg hlt).trans (if_pos hgt)
          have halter : alter k initial change (node left print row right) =
              (node left print row (alter k initial change right).1,
                (alter k initial change right).2) := (if_neg hlt).trans (if_pos hgt)
          rw [hfind, halter]
          exact ihr
        · have hfind : (node left print row right).find? k = row.lookup k :=
            (if_neg hlt).trans (if_neg hgt)
          have halter : alter k initial change (node left print row right) =
              (node left print (alterRow k initial change row).1 right,
                (alterRow k initial change row).2) := (if_neg hlt).trans (if_neg hgt)
          rw [hfind, halter]
          exact snd_alterRow k initial change row

/-- A change in a row concerns one key. -/
theorem fst_of_mem_alterRow {k : Key} {initial : β} {change : Update β} {row : List (Key × β)}
    {entry : Key × β} (h : entry ∈ (alterRow k initial change row).1) :
    entry.1 = k ∨ entry ∈ row := by
  induction row with
  | nil => grind [alterRow]
  | cons first rest ih => grind [alterRow]

theorem nodup_alterRow {k : Key} {initial : β} {change : Update β} {row : List (Key × β)}
    (h : (row.map (·.1)).Nodup) : ((alterRow k initial change row).1.map (·.1)).Nodup := by
  induction row with
  | nil => simp [alterRow]
  | cons first rest ih =>
      unfold alterRow
      split
      · simpa using h
      · next hne =>
          simp only [List.map_cons, List.nodup_cons, List.mem_map] at h ⊢
          refine ⟨?_, ih h.2⟩
          rintro ⟨entry, hentry, heq⟩
          rcases fst_of_mem_alterRow hentry with hk | hmem
          · exact hne (heq ▸ hk)
          · exact h.1 ⟨entry, hmem, heq⟩

/-- A change concerns one key. -/
theorem fst_of_mem_alter {k : Key} {initial : β} {change : Update β} {rows : Rows β}
    {entry : Key × β} (h : entry ∈ (alter k initial change rows).1.entries) :
    entry.1 = k ∨ entry ∈ rows.entries := by
  induction rows with
  | nil => grind [alter, entries_node, entries_nil]
  | node left print row right ihl ihr =>
      grind [alter, entries_node, fst_of_mem_alterRow]

theorem IsOrdered.alter {rows : Rows β} (h : rows.IsOrdered) (k : Key) (initial : β)
    (change : Update β) : (rows.alter k initial change).1.IsOrdered := by
  induction rows with
  | nil => simp [Rows.alter, IsOrdered]
  | node left print row right ihl ihr =>
      obtain ⟨hleft, hrow, hright, hnodup, hl, hr⟩ := h
      unfold Rows.alter
      split
      · next hlt =>
          refine ⟨fun entry hentry => ?_, hrow, hright, hnodup, ihl hl, hr⟩
          rcases fst_of_mem_alter hentry with hk | hmem
          · exact hk ▸ hlt
          · exact hleft entry hmem
      · split
        · next hlt =>
            refine ⟨hleft, hrow, fun entry hentry => ?_, hnodup, hl, ihr hr⟩
            rcases fst_of_mem_alter hentry with hk | hmem
            · exact hk ▸ hlt
            · exact hright entry hmem
        · next hge hle =>
            refine ⟨hleft, fun entry hentry => ?_, hright, nodup_alterRow hnodup, hl, hr⟩
            rcases fst_of_mem_alterRow hentry with hk | hmem
            · rw [hk]; omega
            · exact hrow entry hmem

theorem mem_iff_lookup {row : List (Key × β)} (h : (row.map (·.1)).Nodup) {k : Key} {b : β} :
    (k, b) ∈ row ↔ row.lookup k = some b := by
  induction row with
  | nil => simp
  | cons entry rest ih =>
      obtain ⟨other, c⟩ := entry
      simp only [List.map_cons, List.nodup_cons, List.mem_map] at h
      rw [List.lookup_cons]
      by_cases hk : k = other
      · subst hk
        have hrest : (k, b) ∉ rest := fun hmem => h.1 ⟨_, hmem, rfl⟩
        simp [hrest, eq_comm]
      · simp [hk, beq_eq_false_iff_ne.mpr hk, ih h.2]

/-- The entries are those that looking up finds. -/
theorem IsOrdered.mem_entries {rows : Rows β} (h : rows.IsOrdered) {k : Key} {b : β} :
    (k, b) ∈ rows.entries ↔ rows.find? k = some b := by
  induction rows with
  | nil => simp [find?]
  | node left print row right ihl ihr =>
      obtain ⟨hleft, hrow, hright, hnodup, hl, hr⟩ := h
      have hleft := hleft (k, b)
      have hrow := hrow (k, b)
      have hright := hright (k, b)
      simp only at hleft hrow hright
      simp only [entries_node, List.mem_append, find?]
      split
      · rw [← ihl hl]
        exact ⟨fun hmem => by grind, Or.inl⟩
      · split
        · rw [← ihr hr]
          exact ⟨fun hmem => by grind, fun hmem => .inr (.inr hmem)⟩
        · rw [← mem_iff_lookup hnodup]
          exact ⟨fun hmem => by grind, fun hmem => .inr (.inl hmem)⟩

/-- No key has two entries. -/
theorem IsOrdered.nodup_entries {rows : Rows β} (h : rows.IsOrdered) :
    (rows.entries.map (·.1)).Nodup := by
  induction rows with
  | nil => simp
  | node left print row right ihl ihr =>
      obtain ⟨hleft, hrow, hright, hnodup, hl, hr⟩ := h
      simp only [entries_node, List.map_append, List.nodup_append, List.mem_append, List.mem_map]
      refine ⟨ihl hl, ⟨hnodup, ihr hr, ?_⟩, ?_⟩
      · rintro _ ⟨x, hx, rfl⟩ _ ⟨y, hy, rfl⟩ heq
        have := hright y hy
        rw [← heq, hrow x hx] at this
        omega
      · rintro _ ⟨x, hx, rfl⟩ _ (⟨y, hy, rfl⟩ | ⟨y, hy, rfl⟩) heq
        · have := hleft x hx
          rw [heq, hrow y hy] at this
          omega
        · have := hleft x hx
          have := hright y hy
          rw [← heq] at this
          omega

end Rows

/-- Notes of sentences. -/
structure Table (β : Type) where
  rows : Rows β := .nil
  ordered : rows.IsOrdered := by trivial

namespace Table

variable {β : Type}

def find? (t : Table β) (k : Key) : Option β := t.rows.find? k

/-- The sentences that something is noted of, with the notes. -/
def toList (t : Table β) : List (Key × β) := t.rows.entries

/-- Whether some note passes a test. -/
@[inline]
def any (t : Table β) (test : Key → β → Bool) : Bool := t.rows.any test

/-- The sentences whose notes pass a test. -/
@[inline]
def keysWhere (t : Table β) (test : Key → β → Bool) : List Key := t.rows.keysOnto test []

/-- Changes the note of a sentence; if there is none, the change is made to
`initial`. -/
def alter (k : Key) (initial : β) (change : Update β) : Update (Table β) := fun t =>
  let r := t.rows.alter k initial change
  (⟨r.1, t.ordered.alter k initial change⟩, r.2)

@[simp]
theorem find?_empty (k : Key) : ({} : Table β).find? k = none := rfl

/-- A change to the note of a sentence concerns no other sentence. -/
theorem find?_alter (k other : Key) (initial : β) (change : Update β) (t : Table β) :
    (alter k initial change t).1.find? other =
      if other = k then some (change ((t.find? k).getD initial)).1 else t.find? other :=
  Rows.find?_alter k other initial change t.rows

theorem snd_alter (k : Key) (initial : β) (change : Update β) (t : Table β) :
    (alter k initial change t).2 = (change ((t.find? k).getD initial)).2 :=
  Rows.snd_alter k initial change t.rows

@[simp]
theorem mem_toList {t : Table β} {k : Key} {b : β} :
    (k, b) ∈ t.toList ↔ t.find? k = some b :=
  t.ordered.mem_entries

theorem nodup_toList (t : Table β) : (t.toList.map (·.1)).Nodup := t.ordered.nodup_entries

theorem any_eq (t : Table β) (test : Key → β → Bool) :
    t.any test = t.toList.any fun entry => test entry.1 entry.2 :=
  Rows.any_eq test t.rows

theorem keysWhere_eq (t : Table β) (test : Key → β → Bool) :
    t.keysWhere test = (t.toList.filter fun entry => test entry.1 entry.2).map (·.1) := by
  simp [keysWhere, toList, Rows.keysOnto_eq]

@[simp]
theorem mem_keysWhere {t : Table β} {test : Key → β → Bool} {k : Key} :
    k ∈ t.keysWhere test ↔ ∃ b, t.find? k = some b ∧ test k b = true := by
  simp [keysWhere_eq]

theorem nodup_keysWhere (t : Table β) (test : Key → β → Bool) : (t.keysWhere test).Nodup := by
  rw [keysWhere_eq]
  exact t.nodup_toList.sublist (List.filter_sublist.map _)

end Table

end Tableau
