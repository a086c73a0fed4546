/-
Growing lexicons.  A lexicon in use is only ever extended.  With every sentence it has
the parts of the sentence, and with every constant its name.  A constant that is minted
occurs in no sentence entered before, because its name is new.
-/
import Tableau.Proofs.Sentence
import Tableau.Rule.Quantifier

namespace Tableau

namespace Lexicon

variable {lex lex' : Lexicon}

/-- Entries are only added behind those that are there, and the sorts are kept. -/
structure GrowsTo (lex lex' : Lexicon) : Prop where
  entries : lex.entries <+: lex'.entries
  sorts : lex'.sorts = lex.sorts

namespace GrowsTo

theorem refl (lex : Lexicon) : lex.GrowsTo lex := ⟨List.prefix_rfl, rfl⟩

theorem trans {lex'' : Lexicon} (h : lex.GrowsTo lex') (h' : lex'.GrowsTo lex'') :
    lex.GrowsTo lex'' :=
  ⟨h.entries.trans h'.entries, h'.sorts.trans h.sorts⟩

theorem mem {s : Sentence} (h : lex.GrowsTo lex') (hs : s ∈ lex.entries) : s ∈ lex'.entries :=
  h.entries.subset hs

end GrowsTo

theorem sorts_append (lex : Lexicon) (k : Key) : (lex.append k).sorts = lex.sorts := by
  unfold append
  split <;> rfl

mutual

/-- Interning keeps what entering a single sentence keeps. -/
theorem intern_keeps {P : Lexicon → Prop} (happend : ∀ lex k, P lex → P (lex.append k))
    {lex : Lexicon} (h : P lex) (s : Sentence) : P (lex.intern s) := by
  unfold intern
  simp only
  split
  · exact h
  · cases s with
    | atom | const | var => exact happend _ _ h
    | app _ _ xs | pred _ xs | conj xs | disj xs | equal xs =>
        exact happend _ _ (internAll_keeps happend h xs)
    | neg x => exact happend _ _ (intern_keeps happend h x)
    | imp l r | iff l r | all l r | ex l r =>
        exact happend _ _ (intern_keeps happend (intern_keeps happend h l) r)

theorem internAll_keeps {P : Lexicon → Prop} (happend : ∀ lex k, P lex → P (lex.append k))
    {lex : Lexicon} (h : P lex) (xs : List Sentence) : P (lex.internAll xs) := by
  cases xs with
  | nil => exact h
  | cons x xs => exact internAll_keeps happend (intern_keeps happend h x) xs

end

theorem sorts_intern (lex : Lexicon) (s : Sentence) : (lex.intern s).sorts = lex.sorts :=
  intern_keeps (P := fun lex' => lex'.sorts = lex.sorts)
    (fun lex' k h => (sorts_append lex' k).trans h) rfl s

theorem fresh_append (lex : Lexicon) (k : Key) : (lex.append k).fresh = lex.fresh := by
  unfold append
  split <;> rfl

theorem minted_append (lex : Lexicon) (k : Key) : (lex.append k).minted = lex.minted := by
  unfold append
  split <;> rfl

/-- Only minting uses up numbers. -/
theorem fresh_intern (lex : Lexicon) (s : Sentence) : (lex.intern s).fresh = lex.fresh :=
  intern_keeps (P := fun lex' => lex'.fresh = lex.fresh)
    (fun lex' k h => (fresh_append lex' k).trans h) rfl s

theorem growsTo_intern (lex : Lexicon) (s : Sentence) : lex.GrowsTo (lex.intern s) :=
  ⟨extends_intern lex s, sorts_intern lex s⟩

/-- A sentence that is entered already is not entered again. -/
theorem intern_of_mem {s : Sentence} (h : s ∈ lex.entries) : lex.intern s = lex := by
  unfold intern
  exact if_pos (contains_iff.mpr h)

theorem growsTo_mint (lex : Lexicon) (sort : SortId) : lex.GrowsTo (lex.mint sort).2 := by
  have h := growsTo_intern lex.count (lex.mint sort).1
  exact ⟨h.entries, h.sorts⟩

/-! With every sentence its parts are entered. -/

/-- The parts of all entered sentences are entered. -/
def HasParts (lex : Lexicon) : Prop := ∀ s ∈ lex.entries, ∀ x ∈ s.parts, x ∈ lex.entries

theorem HasParts.mem_of_mem_subsentences (h : lex.HasParts) {s t : Sentence}
    (hs : s ∈ lex.entries) (ht : t ∈ s.subsentences) : t ∈ lex.entries := by
  induction s using Sentence.partsInduction with
  | step s ih =>
      rcases Sentence.mem_subsentences.mp ht with rfl | ⟨x, hx, htx⟩
      · exact hs
      · exact ih x hx (h s hs x hx) htx

/-- A sentence that is entered already is not entered behind the others. -/
theorem append_of_mem {k : Key} (h : k.sentence ∈ lex.entries) : lex.append k = lex := by
  unfold append
  exact dif_pos (by simpa using h)

theorem entries_append_of_not_mem {k : Key} (h : k.sentence ∉ lex.entries) :
    (lex.append k).entries = lex.entries ++ [k.sentence] := by
  unfold append
  rw [dif_neg (by simpa using h)]
  simp [entries]

theorem HasParts.append (h : lex.HasParts) {s : Sentence}
    (hparts : ∀ x ∈ s.parts, x ∈ lex.entries) : (lex.append s).HasParts := by
  by_cases hmem : s ∈ lex.entries
  · rwa [append_of_mem hmem]
  · intro t ht x hx
    rw [entries_append_of_not_mem hmem, List.mem_append] at ht ⊢
    rcases ht with hold | hnew
    · exact Or.inl (h t hold x hx)
    · obtain rfl : t = s := by simpa using hnew
      exact Or.inl (hparts x hx)

theorem mem_entries_internAll {lex : Lexicon} {xs : List Sentence} {x : Sentence} (h : x ∈ xs) :
    x ∈ (lex.internAll xs).entries := by
  induction xs generalizing lex with
  | nil => simp at h
  | cons y ys ih =>
      rcases List.mem_cons.mp h with rfl | h
      · exact (extends_internAll _ ys).subset (mem_entries_intern lex x)
      · exact ih h

mutual

theorem HasParts.intern {lex : Lexicon} (h : lex.HasParts) (s : Sentence) :
    (lex.intern s).HasParts := by
  unfold Lexicon.intern
  simp only
  split
  · exact h
  · cases s with
    | atom | const | var => exact h.append (by simp [Sentence.parts])
    | app _ _ xs | pred _ xs | conj xs | disj xs | equal xs =>
        exact (h.internAll xs).append fun x hx => mem_entries_internAll hx
    | neg x =>
        refine (h.intern x).append fun y hy => ?_
        obtain rfl : y = x := by simpa [Sentence.parts] using hy
        exact mem_entries_intern lex y
    | imp l r | iff l r | all l r | ex l r =>
        refine ((h.intern l).intern r).append fun y hy => ?_
        have hy : y = l ∨ y = r := by simpa [Sentence.parts] using hy
        rcases hy with rfl | rfl
        · exact (growsTo_intern _ r).mem (mem_entries_intern lex y)
        · exact mem_entries_intern _ y

theorem HasParts.internAll {lex : Lexicon} (h : lex.HasParts) (xs : List Sentence) :
    (lex.internAll xs).HasParts := by
  cases xs with
  | nil => exact h
  | cons x xs => exact (h.intern x).internAll xs

end

/-! With every constant its name is entered. -/

/-- The names are those of the constants that are entered. -/
def HasNames (lex : Lexicon) : Prop :=
  ∀ name, name ∈ lex.names ↔ ∃ sort, .const name sort ∈ lex.entries

theorem mem_insertName {names : List String} {s : Sentence} {name : String} :
    name ∈ insertName names s.constantName? ↔ name ∈ names ∨ ∃ sort, .const name sort = s := by
  cases s with
  | const other sort =>
      simp [Sentence.constantName?, insertName, or_comm]
  | _ => simp [Sentence.constantName?, insertName]

theorem names_append_of_not_mem {k : Key} (h : k.sentence ∉ lex.entries) :
    (lex.append k).names = insertName lex.names k.sentence.constantName? := by
  unfold append
  rw [dif_neg (by simpa using h)]

theorem HasNames.append (h : lex.HasNames) (k : Key) : (lex.append k).HasNames := by
  by_cases hmem : k.sentence ∈ lex.entries
  · rwa [append_of_mem hmem]
  · intro name
    rw [names_append_of_not_mem hmem, entries_append_of_not_mem hmem, mem_insertName, h name]
    simp [exists_or]

theorem HasNames.intern (h : lex.HasNames) (s : Sentence) : (lex.intern s).HasNames :=
  intern_keeps (fun _ k h => h.append k) h s

/-- With every sentence its parts are entered, and with every constant its name. -/
structure IsThorough (lex : Lexicon) : Prop where
  hasParts : lex.HasParts
  hasNames : lex.HasNames

theorem isThorough_empty (sorts : Sorts) : IsThorough { sorts } where
  hasParts := by simp [HasParts, entries]
  hasNames := by simp [HasNames, entries]

theorem IsThorough.intern (h : lex.IsThorough) (s : Sentence) : (lex.intern s).IsThorough :=
  ⟨h.hasParts.intern s, h.hasNames.intern s⟩

theorem IsThorough.mint (h : lex.IsThorough) (sort : SortId) : (lex.mint sort).2.IsThorough := by
  have hcount : lex.count.IsThorough := ⟨h.hasParts, h.hasNames⟩
  exact hcount.intern (lex.mint sort).1

/-! Fresh constants. -/

theorem constantName_injective {m n : Nat} (h : constantName m = constantName n) : m = n := by
  have hdigits : Nat.toDigits 10 m = Nat.toDigits 10 n := by
    rw [← Nat.toList_repr, ← Nat.toList_repr]
    exact congrArg String.toList ((String.append_right_inj "c").mp h)
  have hback := congrArg (Nat.ofDigitChars 10 · 0) hdigits
  simpa using hback

/-- If even the last number tried has a taken name, so have all that were tried. -/
theorem taken_of_taken_freeNumber {taken : String → Bool} {tries n : Nat}
    (h : taken (constantName (freeNumber taken tries n)) = true) :
    ∀ i ≤ tries, taken (constantName (n + i)) = true := by
  induction tries generalizing n with
  | zero =>
      intro i hi
      obtain rfl : i = 0 := Nat.le_zero.mp hi
      exact h
  | succ tries ih =>
      unfold freeNumber at h
      split at h
      · next htaken =>
          intro i hi
          cases i with
          | zero => exact htaken
          | succ i =>
              have := ih h i (Nat.le_of_succ_le_succ hi)
              rwa [Nat.add_right_comm] at this
      · next hfree => exact absurd h hfree

/-- One of the numbers tried is free if there are more of them than names. -/
theorem freeNumber_not_mem (names : List String) (n : Nat) :
    constantName (freeNumber names.contains names.length n) ∉ names := by
  intro hmem
  have hall := taken_of_taken_freeNumber (List.contains_iff_mem.mpr hmem)
  let tried := (List.range (names.length + 1)).map fun i => constantName (n + i)
  have hnodup : tried.Nodup := by
    refine List.Pairwise.map _ ?_ List.nodup_range
    intro i j hne heq
    exact hne (Nat.add_left_cancel (constantName_injective heq))
  have hsubset : tried ⊆ names := by
    intro name hname
    obtain ⟨i, hi, rfl⟩ := List.mem_map.mp hname
    have hi := List.mem_range.mp hi
    exact List.contains_iff_mem.mp (hall i (by omega))
  have hle := hnodup.length_le_of_subset hsubset
  have htried : tried.length = names.length + 1 := by simp [tried]
  omega

theorem isTaken_count (lex : Lexicon) : lex.isTaken (constantName lex.count.fresh) = false := by
  rw [← Bool.not_eq_true, isTaken, List.contains_iff_mem]
  exact freeNumber_not_mem lex.names (lex.fresh + 1)

theorem HasNames.isTaken_iff (h : lex.HasNames) {name : String} :
    lex.isTaken name = true ↔ ∃ sort, .const name sort ∈ lex.entries := by
  rw [isTaken, List.contains_iff_mem, h name]

/-- A minted constant has the given sort and a name that no entered constant has. -/
theorem HasNames.mint_fresh (h : lex.HasNames) (sort : SortId) :
    ∃ name, (lex.mint sort).1 = .const name sort ∧ ∀ other, .const name other ∉ lex.entries := by
  refine ⟨_, rfl, fun other hmem => ?_⟩
  have htaken := h.isTaken_iff.mpr ⟨other, hmem⟩
  rw [isTaken_count] at htaken
  contradiction

theorem mem_entries_mint (lex : Lexicon) (sort : SortId) :
    (lex.mint sort).1 ∈ (lex.mint sort).2.entries :=
  mem_entries_intern _ _

end Lexicon

end Tableau
