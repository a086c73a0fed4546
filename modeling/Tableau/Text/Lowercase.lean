/-
Lowercase text after the Unicode standard.  Every letter is mapped on its own,
except that a capital sigma at the end of a word takes its final form.
-/
import Tableau.Text.CaseTable

namespace Tableau.Text

def isCased (c : Char) : Bool := CodeRanges.contain casedRanges c.toNat

def isCaseIgnorable (c : Char) : Bool := CodeRanges.contain caseIgnorableRanges c.toNat

/-- The lowercase form of one character.  Only the capital I with a dot has a
form of two characters. -/
def lowercaseChar (c : Char) : List Char :=
  if c.toNat < 128 then
    [c.toLower]
  else if c = 'İ' then
    ['i', Char.ofNat 0x307]
  else
    match lowercaseRuns.findSome? (·.lower? c.toNat) with
    | some code => [Char.ofNat code]
    | none => [c]

/-- Whether the first character that is not passed over is a letter with case. -/
def meetsCased (cs : List Char) : Bool :=
  match cs.find? (fun c => !isCaseIgnorable c) with
  | some c => isCased c
  | none => false

/-- Lowercase of `cs`, which stands behind the reversed text `before`. -/
def lowercaseAfter (before : List Char) : List Char → List Char
  | [] => []
  | c :: cs =>
      let form :=
        if c = 'Σ' then
          if meetsCased before && !meetsCased cs then ['ς'] else ['σ']
        else
          lowercaseChar c
      form ++ lowercaseAfter (c :: before) cs

def lowercase (text : String) : String :=
  String.ofList (lowercaseAfter [] text.toList)

end Tableau.Text
