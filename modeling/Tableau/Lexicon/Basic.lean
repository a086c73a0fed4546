/-
The lexicon numbers sentences in the order in which they are first mentioned.
A sentence is entered after all its parts, and entries never change, so a number
means the same sentence for ever.
-/
import Tableau.Fact
import Tableau.Order
import Tableau.Sentence.Substitution
import Tableau.Table

namespace Tableau

structure Lexicon where
  sorts : Sorts := {}
  sentences : Array Sentence := #[]
  /-- The positions of the sentences. -/
  index : Table Nat := {}
  /-- The index agrees with the array of sentences. -/
  indexed : ∀ k, index.find? k = sentences.toList.idxOf? k.sentence := by intro _; rfl
  /-- The names of the constants among the sentences, of whatever sort. -/
  names : List String := []
  /-- The number in the name of the last minted constant. -/
  fresh : Nat := 0
  /-- How many constants have been minted. -/
  minted : Nat := 0

namespace Lexicon

/-- The sentences entered, in their order. -/
def entries (lex : Lexicon) : List Sentence := lex.sentences.toList

def size (lex : Lexicon) : Nat := lex.sentences.size

/-- The number of an entered sentence. -/
def number? (lex : Lexicon) (k : Key) : Option Nat := lex.index.find? k

def contains (lex : Lexicon) (k : Key) : Bool := (lex.number? k).isSome

/-- The number of a sentence; one that is not entered comes behind all others. -/
def number (lex : Lexicon) (k : Key) : Nat := (lex.number? k).getD lex.size

theorem number?_eq (lex : Lexicon) (k : Key) : lex.number? k = lex.entries.idxOf? k.sentence :=
  lex.indexed k

/-- The position of a new element at the end of a list. -/
theorem idxOf?_append_new {xs : List Sentence} {s : Sentence} (h : s ∉ xs) (t : Sentence) :
    (xs ++ [s]).idxOf? t = if t = s then some xs.length else xs.idxOf? t := by
  simp only [List.idxOf?, List.findIdx?_append]
  split
  · next hts =>
      subst hts
      have hnone : xs.findIdx? (· == t) = none :=
        List.findIdx?_eq_none_iff.mpr fun x hx => beq_eq_false_iff_ne.mpr fun hxt => h (hxt ▸ hx)
      simp [hnone]
  · next hts => simp [Ne.symm hts]

@[simp]
theorem contains_iff {lex : Lexicon} {k : Key} :
    lex.contains k = true ↔ k.sentence ∈ lex.entries := by
  simp [contains, number?_eq, List.isSome_idxOf?]

/-- The names with that of a sentence, if it is a constant. -/
def insertName (names : List String) : Option String → List String
  | some name => names.insert name
  | none => names

/-- Enters a sentence as the last one, unless it is entered already. -/
def append (lex : Lexicon) (k : Key) : Lexicon :=
  if h : lex.contains k = true then
    lex
  else
    { lex with
      sentences := lex.sentences.push k.sentence
      index := (lex.index.alter k 0 fun _ => (lex.sentences.size, true)).1
      indexed := fun other => by
        have hnew : k.sentence ∉ lex.sentences.toList := fun hmem => h (contains_iff.mpr hmem)
        rw [Table.find?_alter, Array.toList_push, idxOf?_append_new hnew, lex.indexed,
          Array.length_toList]
        simp only [Key.eq_iff]
      names := insertName lex.names k.sentence.constantName? }

mutual

/-- Enters a sentence that is new, after those of its parts that are new. -/
def intern (lex : Lexicon) (s : Sentence) : Lexicon :=
  let k := s.key
  if lex.contains k then
    lex
  else
    match s with
    | .atom _ | .const .. | .var .. => lex.append k
    | .app _ _ xs | .pred _ xs | .conj xs | .disj xs | .equal xs =>
        (internAll lex xs).append k
    | .neg x => (intern lex x).append k
    | .imp l r | .iff l r | .all l r | .ex l r => (intern (intern lex l) r).append k
termination_by structural s

def internAll (lex : Lexicon) (xs : List Sentence) : Lexicon :=
  match xs with
  | [] => lex
  | x :: xs => internAll (intern lex x) xs
termination_by structural xs

end

/-- Puts a term for a variable and enters the result. -/
def substitute (lex : Lexicon) (s target term : Sentence) : Sentence × Lexicon :=
  let result := s.subst target term
  (result, lex.intern result)

/-- Puts a term for a variable if the result is entered already. -/
def findSubstitute? (lex : Lexicon) (s target term : Sentence) : Option Sentence :=
  let result := s.subst target term
  if lex.contains result then some result else none

/-- Facts without repetition, in the order of their numbers; of the two facts
about one sentence, that it is false comes first. -/
def arrange (lex : Lexicon) (facts : List Fact) : List Fact :=
  let numbered := distinct (facts.map fun fact => (lex.number fact.key, fact))
  let before (a b : Nat × Fact) : Bool :=
    a.1 < b.1 || (a.1 == b.1 && (!a.2.value || b.2.value))
  (sortBy before numbered).map (·.2)

/-- Keys in the order of their numbers. -/
def arrangeKeys (lex : Lexicon) (keys : List Key) : List Key :=
  let numbered := keys.map fun k => (lex.number k, k)
  (sortBy (fun a b => a.1 ≤ b.1) numbered).map (·.2)

/-- Sentences in the order of their numbers. -/
def arrangeSentences (lex : Lexicon) (xs : List Sentence) : List Sentence :=
  (lex.arrangeKeys (xs.map Sentence.key)).map (·.sentence)

/-- Whether the terms of a sort are values of a variable. -/
def ranges (lex : Lexicon) (var term : SortId) : Bool := lex.sorts.compatible term var

/-- The sentences of a list that are terms a variable of the given sort ranges
over. -/
def values (lex : Lexicon) (var : SortId) (domain : List Sentence) : List Sentence :=
  domain.filter fun term => term.sort?.any (lex.ranges var)

@[simp]
theorem mem_arrange {lex : Lexicon} {fact : Fact} {facts : List Fact} :
    fact ∈ lex.arrange facts ↔ fact ∈ facts := by
  simp [arrange]

@[simp]
theorem mem_arrangeKeys {lex : Lexicon} {k : Key} {keys : List Key} :
    k ∈ lex.arrangeKeys keys ↔ k ∈ keys := by
  simp [arrangeKeys]

theorem perm_arrangeKeys (lex : Lexicon) (keys : List Key) : (lex.arrangeKeys keys).Perm keys := by
  unfold arrangeKeys
  refine ((perm_sortBy _ _).map _).trans ?_
  rw [List.map_map]
  exact .of_eq (List.map_id keys)

@[simp]
theorem mem_arrangeSentences {lex : Lexicon} {s : Sentence} {xs : List Sentence} :
    s ∈ lex.arrangeSentences xs ↔ s ∈ xs := by
  simp only [arrangeSentences, List.mem_map, mem_arrangeKeys]
  exact ⟨fun ⟨_, ⟨_, hx, hk⟩, hs⟩ => hs ▸ hk ▸ hx, fun hs => ⟨s.key, ⟨s, hs, rfl⟩, rfl⟩⟩

theorem mem_values {lex : Lexicon} {var : SortId} {domain : List Sentence} {term : Sentence} :
    term ∈ lex.values var domain ↔
      term ∈ domain ∧ ∃ sort, term.sort? = some sort ∧ lex.ranges var sort = true := by
  simp [values, Option.any_eq_true]

theorem mem_entries_append (lex : Lexicon) (k : Key) :
    k.sentence ∈ (lex.append k).entries := by
  unfold append
  split
  · next h => simpa using h
  · simp [entries]

/-- A sentence is entered once it has been interned. -/
theorem mem_entries_intern (lex : Lexicon) (s : Sentence) : s ∈ (lex.intern s).entries := by
  unfold intern
  simp only
  split
  · next h => simpa using h
  · cases s <;> exact mem_entries_append _ (Sentence.key _)

theorem extends_append (lex : Lexicon) (k : Key) :
    lex.entries <+: (lex.append k).entries := by
  unfold append
  split
  · exact List.prefix_rfl
  · simp [entries]

mutual

/-- Interning only adds entries behind those that are there. -/
theorem extends_intern (lex : Lexicon) (s : Sentence) :
    lex.entries <+: (lex.intern s).entries := by
  unfold intern
  simp only
  split
  · exact List.prefix_rfl
  · cases s with
    | atom | const | var => exact extends_append ..
    | app _ _ xs | pred _ xs | conj xs | disj xs | equal xs =>
        exact (extends_internAll lex xs).trans (extends_append ..)
    | neg x => exact (extends_intern lex x).trans (extends_append ..)
    | imp l r | iff l r | all l r | ex l r =>
        exact ((extends_intern lex l).trans (extends_intern _ r)).trans (extends_append ..)

theorem extends_internAll (lex : Lexicon) (xs : List Sentence) :
    lex.entries <+: (lex.internAll xs).entries := by
  cases xs with
  | nil => exact List.prefix_rfl
  | cons x xs => exact (extends_intern lex x).trans (extends_internAll _ xs)

end

end Lexicon

end Tableau
