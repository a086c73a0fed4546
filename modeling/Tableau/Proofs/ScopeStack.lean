/-
A reader with a stack for its scope.  A quantifier puts its variable on the stack before its
body is read and takes it off afterwards, whether or not the body could be read.  Such a
reader gives what one with the scope as a parameter gives, and leaves its stack as it was.
-/
import Tableau.Proofs.Reading

namespace Tableau

/-- A reader with the scope that it reads in, the innermost variable first. -/
structure ScopedReader where
  reader : Reader
  scope : Scope

/-- Reading with a stack, which may fail and keeps the state all the same. -/
abbrev ScopedM := ExceptT ReadError (StateM ScopedReader)

namespace ScopedReader

variable {α β : Type}

/-- Reads in the scope that is on the stack. -/
def inScope (m : Scope → ReadM α) : ScopedM α := ExceptT.mk do
  let s ← get
  let (result, reader) := (m s.scope).run.run s.reader
  set { s with reader }
  return result

/-- Reads with a further variable on the stack. -/
def withBound (bound : String × Sentence) (m : ScopedM α) : ScopedM α := ExceptT.mk do
  modify fun s => { s with scope := bound :: s.scope }
  let result ← m.run
  modify fun s => { s with scope := s.scope.tail }
  return result

mutual

def term (e : SExpr) : ScopedM Sentence :=
  match e with
  | .symbol symbol => inScope (Reader.name · symbol)
  | .list (.symbol f :: arg :: args) => do
      let arg ← term arg
      let args ← terms args
      let sort ← inScope fun _ => Reader.apply .function f (arg :: args)
      inScope fun _ => Reader.intern (.app f sort (arg :: args))
  | .list _ => throw (.malformedTerm e)
termination_by structural e

def terms (es : List SExpr) : ScopedM (List Sentence) :=
  match es with
  | [] => return []
  | e :: es => do
      let s ← term e
      return s :: (← terms es)
termination_by structural es

end

mutual

def formula (e : SExpr) : ScopedM Sentence :=
  match e with
  | .symbol symbol => inScope (Reader.atom · symbol)
  | .list (.symbol head :: args) =>
      match Keyword.ofHead? head, args with
      | some .not, [x] => do
          let x ← formula x
          inScope fun _ => Reader.intern (.neg x)
      | some .not, _ => throw (.argumentsExpected 1 e)
      | some .and, args => do
          let xs ← formulas args
          inScope fun _ => Reader.intern (.conj xs)
      | some .or, args => do
          let xs ← formulas args
          inScope fun _ => Reader.intern (.disj xs)
      | some .implies, [l, r] => do
          let left ← formula l
          let right ← formula r
          inScope fun _ => Reader.intern (.imp left right)
      | some .iff, [l, r] => do
          let left ← formula l
          let right ← formula r
          inScope fun _ => Reader.intern (.iff left right)
      | some .implies, _ | some .iff, _ => throw (.argumentsExpected 2 e)
      | some .equals, args => inScope (Reader.equality · e args)
      | some .all, [b, x] => do
          let bound ← inScope fun _ => Reader.binder b
          let body ← withBound bound (formula x)
          inScope fun _ => Reader.intern (.all bound.2 body)
      | some .ex, [b, x] => do
          let bound ← inScope fun _ => Reader.binder b
          let body ← withBound bound (formula x)
          inScope fun _ => Reader.intern (.ex bound.2 body)
      | some .all, _ | some .ex, _ => throw (.argumentsExpected 2 e)
      | none, args => inScope (Reader.predicate · head args)
  | .list _ => throw (.malformedFormula e)
termination_by structural e

def formulas (es : List SExpr) : ScopedM (List Sentence) :=
  match es with
  | [] => return []
  | e :: es => do
      let s ← formula e
      return s :: (← formulas es)
termination_by structural es

end

/-- Reading with a scope on the stack gives what reading in that scope gives, and keeps the
stack. -/
def Keeps (scope : Scope) (m : ScopedM α) (f : ReadM α) : Prop :=
  ∀ r : Reader, m.run.run ⟨r, scope⟩ = ((f.run.run r).1, ⟨(f.run.run r).2, scope⟩)

namespace Keeps

variable {scope : Scope} {m : ScopedM α} {f : ReadM α}

theorem pure (a : α) : Keeps scope (Pure.pure a) (Pure.pure a) := fun _ => rfl

theorem throw (e : ReadError) :
    Keeps scope (MonadExcept.throw e : ScopedM α) (MonadExcept.throw e) := fun _ => rfl

theorem inScope (f : Scope → ReadM α) : Keeps scope (ScopedReader.inScope f) (f scope) :=
  fun _ => rfl

theorem bind {m' : α → ScopedM β} {f' : α → ReadM β} (h : Keeps scope m f)
    (h' : ∀ a, Keeps scope (m' a) (f' a)) : Keeps scope (m >>= m') (f >>= f') := by
  intro r
  rw [ExceptT.run_bind, ExceptT.run_bind, StateT.run_bind, StateT.run_bind, h r]
  cases hrun : f.run.run r with
  | mk result r' =>
      cases result with
      | ok a => exact h' a r'
      | error e => rfl

/-- A variable that is put on the stack is taken off again. -/
theorem withBound {bound : String × Sentence} (h : Keeps (bound :: scope) m f) :
    Keeps scope (ScopedReader.withBound bound m) f := by
  intro r
  have hrun : (ScopedReader.withBound bound m).run.run ⟨r, scope⟩ =
      ((m.run.run ⟨r, bound :: scope⟩).1,
        { (m.run.run ⟨r, bound :: scope⟩).2 with
          scope := (m.run.run ⟨r, bound :: scope⟩).2.scope.tail }) := rfl
  rw [hrun, h r]
  rfl

end Keeps

variable {scope : Scope}

mutual

theorem keeps_term (e : SExpr) : Keeps scope (term e) (Reader.term scope e) := by
  match e with
  | .symbol symbol =>
      rw [term, Reader.term]
      exact .inScope _
  | .list (.symbol f :: arg :: args) =>
      rw [term, Reader.term]
      refine .bind (keeps_term arg) fun x => .bind (keeps_terms args) fun xs => ?_
      exact .bind (.inScope _) fun sort => .inScope _
  | .list [] | .list [.symbol _] | .list (.list _ :: _) =>
      unfold term Reader.term
      exact .throw _

theorem keeps_terms (es : List SExpr) : Keeps scope (terms es) (Reader.terms scope es) := by
  unfold terms Reader.terms
  split
  · exact .pure _
  · next e es =>
      exact .bind (keeps_term e) fun x => .bind (keeps_terms es) fun xs => .pure _

end

mutual

theorem keeps_formula {scope : Scope} (e : SExpr) :
    Keeps scope (formula e) (Reader.formula scope e) := by
  unfold formula Reader.formula
  match e with
  | .symbol symbol => exact .inScope _
  | .list [] | .list (.list _ :: _) => exact .throw _
  | .list (.symbol head :: args) =>
      -- Both readers decide by the keyword and the number of arguments.
      match hhead : Keyword.ofHead? head, args with
      | some .not, [x] =>
          simp only [hhead]
          exact .bind (keeps_formula x) fun s => .inScope _
      | some .and, args | some .or, args =>
          simp only [hhead]
          exact .bind (keeps_formulas args) fun xs => .inScope _
      | some .implies, [l, r] | some .iff, [l, r] =>
          simp only [hhead]
          exact .bind (keeps_formula l) fun left => .bind (keeps_formula r) fun right => .inScope _
      | some .equals, args | none, args =>
          simp only [hhead]
          exact .inScope _
      | some .all, [b, x] | some .ex, [b, x] =>
          simp only [hhead]
          refine .bind (.inScope _) fun bound => ?_
          exact .bind (.withBound (keeps_formula x)) fun body => .inScope _
      | some .not, [] | some .not, _ :: _ :: _ | some .implies, [] | some .implies, [_]
      | some .implies, _ :: _ :: _ :: _
      | some .iff, [] | some .iff, [_] | some .iff, _ :: _ :: _ :: _
      | some .all, [] | some .all, [_] | some .all, _ :: _ :: _ :: _
      | some .ex, [] | some .ex, [_] | some .ex, _ :: _ :: _ :: _ =>
          simp only [hhead]
          exact .throw _

theorem keeps_formulas {scope : Scope} (es : List SExpr) :
    Keeps scope (formulas es) (Reader.formulas scope es) := by
  unfold formulas Reader.formulas
  split
  · exact .pure _
  · next e es =>
      exact .bind (keeps_formula e) fun x => .bind (keeps_formulas es) fun xs => .pure _

end

end ScopedReader

end Tableau
