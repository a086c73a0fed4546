/-
The sort hierarchy.  Every sort but the root has one parent, which was declared
before it, so the supersorts of a sort form a chain up to the root.
-/
namespace Tableau

/-- The position of a sort in the order of declaration. -/
abbrev SortId := Nat

/-- The root of every hierarchy. -/
def SortId.object : SortId := 0

def SortId.render (sort : SortId) : String := "sort" ++ toString sort

structure SortEntry where
  name : String
  /-- The proper supersorts, the parent first. -/
  lineage : List SortId
deriving DecidableEq

structure Sorts where
  entries : List SortEntry := [⟨"OBJECT", []⟩]
deriving DecidableEq

namespace Sorts

def size (sorts : Sorts) : Nat := sorts.entries.length

def find? (sorts : Sorts) (name : String) : Option SortId :=
  sorts.entries.findIdx? (·.name == name)

def name (sorts : Sorts) (sort : SortId) : String :=
  match sorts.entries[sort]? with
  | some entry => entry.name
  | none => ""

/-- The proper supersorts of a sort, nearest first. -/
def lineage (sorts : Sorts) (sort : SortId) : List SortId :=
  match sorts.entries[sort]? with
  | some entry => entry.lineage
  | none => []

def parent? (sorts : Sorts) (sort : SortId) : Option SortId :=
  (sorts.lineage sort).head?

/-- A sort and its supersorts, nearest first. -/
def ancestors (sorts : Sorts) (sort : SortId) : List SortId :=
  sort :: sorts.lineage sort

def isSubsort (sorts : Sorts) (sub sup : SortId) : Bool :=
  (sorts.ancestors sub).contains sup

def isSupersort (sorts : Sorts) (sup sub : SortId) : Bool :=
  sorts.isSubsort sub sup

/-- Whether a variable ranges over the values of a term. -/
def compatible (sorts : Sorts) (term var : SortId) : Bool :=
  sorts.isSubsort term var

/-- The name of a sort that is declared a second time, with another parent. -/
structure Redeclared where
  name : String

/-- Declares a sort below a parent.  A declaration may be repeated. -/
def declare (sorts : Sorts) (name : String) (parent : SortId) :
    Except Redeclared (SortId × Sorts) :=
  match sorts.find? name with
  | some sort =>
      if sorts.parent? sort = some parent then .ok (sort, sorts) else .error ⟨name⟩
  | none => .ok (sorts.size, ⟨sorts.entries ++ [⟨name, sorts.ancestors parent⟩]⟩)

end Sorts

end Tableau
