/-
Text as lines.  A line feed ends a line, so text that ends in one has no further,
empty line; a carriage return in front of a line feed belongs to the end of the
line.
-/
namespace Tableau.Text

/-- The number of lines; `started` tells whether the current line has a
character already. -/
def lineCountFrom (started : Bool) : List Char → Nat
  | [] => if started then 1 else 0
  | c :: cs => if c = '\n' then lineCountFrom false cs + 1 else lineCountFrom true cs

def lineCount (cs : List Char) : Nat := lineCountFrom false cs

/-- A line that is ended by a line feed, given in reverse. -/
def endLine : (reversed : List Char) → List Char
  | '\r' :: cs => cs.reverse
  | cs => cs.reverse

/-- The lines of the text that `reversed` begins and `cs` continues. -/
def linesFrom (reversed : List Char) : (cs : List Char) → List (List Char)
  | [] => if reversed.isEmpty then [] else [reversed.reverse]
  | c :: cs =>
      if c = '\n' then endLine reversed :: linesFrom [] cs else linesFrom (c :: reversed) cs

def lines (text : String) : List String := (linesFrom [] text.toList).map String.ofList

/-- Every line with a line feed behind it. -/
def unlines (lines : List String) : String := String.join (lines.map (· ++ "\n"))

end Tableau.Text
