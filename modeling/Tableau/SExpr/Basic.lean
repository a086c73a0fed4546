/-
S-expressions: symbols and lists of S-expressions.
-/
namespace Tableau

inductive SExpr where
  | symbol (name : String)
  | list (items : List SExpr)

/-- A parenthesis or a symbol. -/
inductive Token where
  | opening
  | closing
  | symbol (name : String)
deriving DecidableEq

namespace SExpr

mutual

/-- The tokens of an expression, in order. -/
def tokens : SExpr → List Token
  | symbol name => [.symbol name]
  | list items => .opening :: tokensAll items ++ [.closing]

def tokensAll : List SExpr → List Token
  | [] => []
  | e :: es => tokens e ++ tokensAll es

end

mutual

/-- An expression on one line, with single spaces between the items of a list. -/
def render : SExpr → String
  | symbol name => name
  | list [] => "()"
  | list (e :: es) => "(" ++ render e ++ renderRest es ++ ")"

/-- Every expression behind a space. -/
def renderRest : List SExpr → String
  | [] => ""
  | e :: es => " " ++ render e ++ renderRest es

end

end SExpr

end Tableau
