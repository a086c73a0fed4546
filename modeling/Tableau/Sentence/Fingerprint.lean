/-
Fingerprints of sentences: numbers in which different sentences rarely agree.
-/
import Tableau.Sentence.Basic

namespace Tableau

/-- Combines two numbers so that the results are spread widely. -/
def Fingerprint.mix (h k : Nat) : Nat := (h * 31 + k) * 48271 % 2147483647

def Fingerprint.ofName (name : String) : Nat :=
  name.toUTF8.foldl (fun h byte => mix h byte.toNat) 1

namespace Sentence

open Fingerprint

mutual

def fingerprint : Sentence → Nat
  | atom name => mix 1 (ofName name)
  | const name sort => mix (mix 2 (ofName name)) sort
  | var name sort => mix (mix 3 (ofName name)) sort
  | app name sort xs => mix (mix (mix 4 (ofName name)) sort) (fingerprintAll xs)
  | pred name xs => mix (mix 5 (ofName name)) (fingerprintAll xs)
  | neg x => mix 6 (fingerprint x)
  | conj xs => mix 7 (fingerprintAll xs)
  | disj xs => mix 8 (fingerprintAll xs)
  | imp l r => mix (mix 9 (fingerprint l)) (fingerprint r)
  | iff l r => mix (mix 10 (fingerprint l)) (fingerprint r)
  | equal xs => mix 11 (fingerprintAll xs)
  | all v x => mix (mix 12 (fingerprint v)) (fingerprint x)
  | ex v x => mix (mix 13 (fingerprint v)) (fingerprint x)
termination_by structural s => s

def fingerprintAll : List Sentence → Nat
  | [] => 0
  | x :: xs => mix (fingerprint x) (fingerprintAll xs)
termination_by structural xs => xs

end

end Sentence

end Tableau
