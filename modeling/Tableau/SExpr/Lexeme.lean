/-
Cutting a text into parentheses and symbols.  Blanks and comments between them
are skipped, and every token keeps the text that it starts.
-/
import Tableau.SExpr.Basic
import Tableau.Text.Blank

namespace Tableau

/-- A token with the text from its first character on. -/
structure Lexeme where
  token : Token
  rest : List Char

namespace Lexeme

/-- A character of a symbol. -/
def isSymbolChar (c : Char) : Bool :=
  !Text.isSpace c && c != '(' && c != ')' && c != ';'

/-- Whether the text behind a semicolon can be a comment: its first line ends
with a line feed, with a carriage return and a line feed, or with the text.  A
carriage return alone makes it no comment at all. -/
def isComment : List Char → Bool
  | [] => true
  | '\n' :: _ => true
  | '\r' :: rest => rest.head? == some '\n'
  | _ :: rest => isComment rest

/-- Skips blanks and comments; `inside` a comment, skips the rest of its line
first. -/
def skipFrom : (inside : Bool) → List Char → List Char
  | _, [] => []
  | true, c :: rest => skipFrom (c != '\r' && c != '\n') rest
  | false, c :: rest =>
      if Text.isBlank c then
        skipFrom false rest
      else if c = ';' && isComment rest then
        skipFrom true rest
      else
        c :: rest

/-- The text behind leading blanks and comments. -/
def skipBlanks (text : List Char) : List Char := skipFrom false text

theorem length_skipFrom (inside : Bool) (text : List Char) :
    (skipFrom inside text).length ≤ text.length := by
  fun_induction skipFrom inside text <;> simp <;> omega

/-- The tokens of a text, and the text that is left where no token starts: all
of it has been read if none is left. -/
def scan (text : List Char) : List Lexeme × List Char :=
  match h : skipBlanks text with
  | [] => ([], [])
  | c :: rest =>
      have : rest.length < text.length := by
        have := length_skipFrom false text
        rw [← skipBlanks, h] at this
        simp at this
        omega
      if c = '(' then
        let (lexemes, stop) := scan rest
        (⟨.opening, c :: rest⟩ :: lexemes, stop)
      else if c = ')' then
        let (lexemes, stop) := scan rest
        (⟨.closing, c :: rest⟩ :: lexemes, stop)
      else if isSymbolChar c then
        let name := String.ofList (c :: rest.takeWhile isSymbolChar)
        let (lexemes, stop) := scan (rest.dropWhile isSymbolChar)
        (⟨.symbol name, c :: rest⟩ :: lexemes, stop)
      else
        ([], c :: rest)
termination_by text.length
decreasing_by
  all_goals
    have := (List.dropWhile_suffix (l := rest) isSymbolChar).length_le
    omega

end Lexeme

end Tableau
