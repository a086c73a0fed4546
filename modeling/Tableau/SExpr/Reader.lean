/-
Reading a text as a sequence of S-expressions.
-/
import Tableau.SExpr.Lexeme

namespace Tableau.SExpr

/-- Builds expressions from lexemes.  `done` holds the finished expressions of
the list that is being read, or of the text outside of all lists; `outer` holds
those of the enclosing lists, the innermost first; both are reversed.  `start`
is the text from the outermost open parenthesis on.  Where reading fails, the
result is the text from the first expression on that is not complete. -/
def build (stop : List Char) (start : List Char) (done : List SExpr) :
    List (List SExpr) → List Lexeme → Except (List Char) (List SExpr)
  | [], [] => if stop = [] then .ok done.reverse else .error stop
  | _ :: _, [] => .error start
  | [], ⟨.opening, text⟩ :: rest => build stop text [] [done] rest
  | outer@(_ :: _), ⟨.opening, _⟩ :: rest => build stop start [] (done :: outer) rest
  | [], ⟨.closing, text⟩ :: _ => .error text
  | siblings :: outer, ⟨.closing, _⟩ :: rest =>
      build stop start (.list done.reverse :: siblings) outer rest
  | outer, ⟨.symbol name, _⟩ :: rest => build stop start (.symbol name :: done) outer rest

/-- All expressions of a text, or the text from the first one on that is not
complete. -/
def readAll (text : List Char) : Except (List Char) (List SExpr) :=
  let (lexemes, stop) := Lexeme.scan text
  build stop [] [] [] lexemes

end Tableau.SExpr
