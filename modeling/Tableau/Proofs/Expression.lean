/-
Sentences as expressions.  A sentence is written as an expression is, and an expression
that is written is read again.
-/
import Tableau.Proofs.Layout

namespace Tableau

namespace SExpr

open Text

/-- All symbols are of the kind that is found in texts. -/
def IsLexical (e : SExpr) : Prop := ∀ name, Token.symbol name ∈ e.tokens → IsSymbol name.toList

theorem mem_tokensAll {token : Token} {es : List SExpr} :
    token ∈ tokensAll es ↔ ∃ e ∈ es, token ∈ e.tokens := by
  induction es with
  | nil => simp [tokensAll]
  | cons e es ih => simp [tokensAll, ih]

@[simp]
theorem isLexical_symbol {name : String} : (symbol name).IsLexical ↔ IsSymbol name.toList := by
  simp [IsLexical, tokens]

@[simp]
theorem isLexical_list {items : List SExpr} :
    (list items).IsLexical ↔ ∀ e ∈ items, e.IsLexical := by
  simp only [IsLexical, tokens, List.cons_append, List.mem_cons, List.mem_append, mem_tokensAll,
    reduceCtorEq, List.not_mem_nil, or_false, false_or]
  constructor
  · exact fun h e he name hname => h name ⟨e, he, hname⟩
  · rintro h name ⟨e, he, hname⟩
    exact h e he name hname

theorem isSymbol_of_layout {behind : Bool} {tokens : List Token} {text : List Char}
    (h : Layout behind tokens text) :
    ∀ name, Token.symbol name ∈ tokens → IsSymbol name.toList := by
  induction h with
  | nil => simp
  | opening _ _ ih | closing _ _ ih => simpa using ih
  | symbol _ _ hname _ ih => simpa using ⟨hname, ih⟩

/-- Expressions that have been read have the symbols of a text. -/
theorem isLexical_of_read {text : String} {es : List SExpr} (h : read text = .ok es) :
    ∀ e ∈ es, e.IsLexical := by
  have hlayout := readAll_eq_ok_iff.mp (read_eq_ok_iff.mp h)
  exact fun e he name hname => isSymbol_of_layout hlayout name (mem_tokensAll.mpr ⟨e, he, hname⟩)

/-- What may follow a symbol may follow a parenthesis. -/
theorem layout_of_behind {tokens : List Token} {text : List Char} (h : Layout true tokens text) :
    Layout false tokens text := by
  cases h with
  | nil hgap => exact .nil hgap
  | opening hgap hrest => exact .opening hgap hrest
  | closing hgap hrest => exact .closing hgap hrest
  | symbol hgap _ hname hrest => exact .symbol hgap nofun hname hrest

mutual

/-- An expression behind blanks is written as a layout of its tokens. -/
theorem layout_render (e : SExpr) (he : e.IsLexical) {behind : Bool} {gap : List Char}
    {ts : List Token} {text : List Char} (hgap : ∀ rest, Gap rest gap)
    (hsep : behind = true → gap ≠ []) (htext : Layout true ts text) :
    Layout behind (e.tokens ++ ts) (gap ++ (e.render.toList ++ text)) := by
  match e with
  | .symbol name =>
      have hlayout := Layout.symbol (hgap _) hsep (isLexical_symbol.mp he) htext
      rwa [String.ofList_toList] at hlayout
  | .list [] =>
      have hclosing : Layout false (.closing :: ts) ([] ++ ')' :: text) :=
        .closing .nil (layout_of_behind htext)
      exact .opening (hgap _) hclosing
  | .list (e :: es) =>
      obtain ⟨he, hes⟩ := List.forall_mem_cons.mp (isLexical_list.mp he)
      have hclosing : Layout true (.closing :: ts) ([] ++ ')' :: text) :=
        .closing .nil (layout_of_behind htext)
      have hitems : Layout false (e.tokens ++ (tokensAll es ++ .closing :: ts)) _ :=
        layout_render e he (fun _ => .nil) nofun (layout_renderRest es hes hclosing)
      have hlist : Layout behind _ _ := .opening (hgap _) hitems
      simpa [tokens, tokensAll, render] using hlist

theorem layout_renderRest (es : List SExpr) (hes : ∀ e ∈ es, e.IsLexical) {ts : List Token}
    {text : List Char} (htext : Layout true ts text) :
    Layout true (tokensAll es ++ ts) ((renderRest es).toList ++ text) := by
  match es with
  | [] => exact htext
  | e :: es =>
      obtain ⟨he, hes⟩ := List.forall_mem_cons.mp hes
      have hspace : ∀ rest, Gap rest [' '] := fun rest => .cons (.char (by simp)) .nil
      have hitems : Layout true (e.tokens ++ (tokensAll es ++ ts)) _ :=
        layout_render e he hspace (by simp) (layout_renderRest es hes htext)
      simpa [tokensAll, renderRest] using hitems

end

/-- An expression that is written is read again. -/
theorem read_render (e : SExpr) (he : e.IsLexical) : read e.render = .ok [e] := by
  rw [read_eq_ok_iff, readAll_eq_ok_iff]
  have hlayout : Layout false (e.tokens ++ []) _ :=
    layout_render e he (fun _ => .nil) nofun (.nil .nil)
  simpa [tokensAll] using hlayout

end SExpr

namespace Sentence

/-- A binder with its sort unless it is the root sort; `plain` is the binder without. -/
def binderExpr (sorts : Sorts) (binder : Sentence) (plain : SExpr) : SExpr :=
  match binder with
  | var name sort =>
      if sort = SortId.object then plain else .list [.symbol name, .symbol (sorts.name sort)]
  | _ => plain

mutual

/-- A sentence as an expression. -/
def toExpr (sorts : Sorts) : Sentence → SExpr
  | atom name | const name _ | var name _ => .symbol name
  | app name _ xs | pred name xs => .list (.symbol name :: toExprs sorts xs)
  | neg x => .list [.symbol "not", toExpr sorts x]
  | conj xs => .list (.symbol "and" :: toExprs sorts xs)
  | disj xs => .list (.symbol "or" :: toExprs sorts xs)
  | imp l r => .list [.symbol "implies", toExpr sorts l, toExpr sorts r]
  | iff l r => .list [.symbol "iff", toExpr sorts l, toExpr sorts r]
  | equal xs => .list (.symbol "=" :: toExprs sorts xs)
  | all v x => .list [.symbol "forall", binderExpr sorts v (toExpr sorts v), toExpr sorts x]
  | ex v x => .list [.symbol "exists", binderExpr sorts v (toExpr sorts v), toExpr sorts x]
termination_by structural s => s

def toExprs (sorts : Sorts) : List Sentence → List SExpr
  | [] => []
  | x :: xs => toExpr sorts x :: toExprs sorts xs
termination_by structural xs => xs

end

theorem toExprs_eq_map (sorts : Sorts) (xs : List Sentence) :
    toExprs sorts xs = xs.map (toExpr sorts) := by
  induction xs with
  | nil => rfl
  | cons x xs ih => simp [toExprs, ih]

theorem render_binderExpr (sorts : Sorts) (v : Sentence) (plain : SExpr) :
    (binderExpr sorts v plain).render = withSort sorts v plain.render := by
  cases v with
  | var name sort =>
      simp only [binderExpr, withSort]
      split
      · rfl
      · simp [SExpr.render, SExpr.renderRest, String.append_assoc]
  | _ => rfl

mutual

/-- A sentence is written as its expression is. -/
theorem render_toExpr (sorts : Sorts) (s : Sentence) :
    (s.toExpr sorts).render = s.render sorts := by
  cases s with
  | atom | const | var => rfl
  | app _ _ xs | pred _ xs | conj xs | disj xs | equal xs =>
      simp [toExpr, SExpr.render, render, renderRest_toExprs sorts xs]
  | neg x =>
      simp [← String.toList_inj, toExpr, SExpr.render, SExpr.renderRest, render,
        render_toExpr sorts x]
  | imp l r | iff l r =>
      simp [← String.toList_inj, toExpr, SExpr.render, SExpr.renderRest, render,
        render_toExpr sorts l, render_toExpr sorts r]
  | all v x | ex v x =>
      simp [← String.toList_inj, toExpr, SExpr.render, SExpr.renderRest, render, render_binderExpr,
        render_toExpr sorts v, render_toExpr sorts x]

theorem renderRest_toExprs (sorts : Sorts) (xs : List Sentence) :
    SExpr.renderRest (toExprs sorts xs) = renderRest sorts xs := by
  cases xs with
  | nil => rfl
  | cons x xs =>
      simp [toExprs, SExpr.renderRest, renderRest, render_toExpr sorts x,
        renderRest_toExprs sorts xs]

end

end Sentence

end Tableau
