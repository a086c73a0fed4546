/-
Reading declarations of sorts and symbols.
-/
import Tableau.Problem.Formula

namespace Tableau.Reader

def declareSort (name : String) (parent : SortId) : ReadM Unit := do
  let r ← get
  match r.lexicon.sorts.declare name parent with
  | .ok (_, sorts) => set { r with lexicon.sorts := sorts }
  | .error redeclared => throw (.sortRedeclared redeclared.name)

def declareConstant (name : String) (sort : SortId) : ReadM Unit := do
  match (← get).constants.lookup name with
  | some known =>
      if known ≠ sort then
        throw (.constantRedeclared name)
  | none => modify (·.addConstant name sort)
  discard (intern (.const name sort))

/-- Declares a symbol, which may have been used before with as many arguments. -/
def declareSymbol (kind : SymbolKind) (name : String) (args : List SortId) (result : SortId) :
    ReadM Unit := do
  match ((← get).symbols kind).lookup name with
  | some known =>
      if known.arity ≠ args.length then
        throw (.declaredArity name args.length known.arity)
      if known.args.isSome then
        throw (.symbolRedeclared name)
  | none => pure ()
  modify (·.addSymbol name { args := some args, arity := args.length, result } kind)

def sorts : List SExpr → ReadM (List SortId)
  | [] => return []
  | .symbol name :: rest => do
      let sort ← sort name
      return sort :: (← sorts rest)
  | e :: _ => throw (.sortExpected e)

/-- The result sort of a function, the root sort unless one is given. -/
def resultSort (e : SExpr) : List SExpr → ReadM SortId
  | [] => return SortId.object
  | [.symbol name] => sort name
  | _ => throw (.malformedDeclaration e)

def declaration (e : SExpr) : ReadM Unit := do
  match e with
  | .list (.symbol head :: rest) =>
      match Text.lowercase head, rest with
      | "sort", [.symbol name] => declareSort name SortId.object
      | "sort", [.symbol name, .symbol parent] => declareSort name (← sort parent)
      | "constant", [.symbol name] => declareConstant name SortId.object
      | "constant", [.symbol name, .symbol sortName] => declareConstant name (← sort sortName)
      | "predicate", .symbol name :: args =>
          declareSymbol .predicate name (← sorts args) SortId.object
      | "function", .symbol name :: .list args :: result => do
          let result ← resultSort e result
          declareSymbol .function name (← sorts args) result
      | _, _ => throw (.malformedDeclaration e)
  | _ => throw (.malformedDeclaration e)

end Tableau.Reader
