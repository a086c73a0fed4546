/-
Sentences as keys.  A key has the fingerprint of its sentence at hand, which tells
it from nearly all other keys at once.
-/
import Tableau.Sentence.Fingerprint

namespace Tableau

/-- A sentence with its fingerprint. -/
structure Key where
  sentence : Sentence
  print : Nat
  print_eq : print = sentence.fingerprint

def Sentence.key (s : Sentence) : Key := ⟨s, s.fingerprint, rfl⟩

instance : Coe Sentence Key := ⟨Sentence.key⟩

namespace Key

@[simp]
theorem sentence_key (s : Sentence) : s.key.sentence = s := rfl

/-- A key is determined by its sentence. -/
theorem eq_iff {a b : Key} : a = b ↔ a.sentence = b.sentence := by
  constructor
  · rintro rfl
    rfl
  · rcases a with ⟨s, print, hprint⟩
    rcases b with ⟨t, other, hother⟩
    rintro rfl
    simp [hprint, hother]

@[simp]
theorem key_sentence (k : Key) : k.sentence.key = k := eq_iff.mpr rfl

/-- Keys of different fingerprints are told apart without looking at their
sentences. -/
instance : DecidableEq Key := fun a b =>
  if h : a.print = b.print then
    decidable_of_iff (a.sentence = b.sentence) eq_iff.symm
  else
    isFalse fun hab => h (hab ▸ rfl)

end Key

end Tableau
