import ModelExpansion.Element

/-! # Tables: the domains of sorts
A table is a set of elements, or the domain that contains everything. Where the elements of a table
are enumerated, they come in ascending order. -/

namespace ModelExpansion

/-- The domain of a sort. -/
inductive Table where
  | finite (elements : Std.ExtTreeSet Element)
  /-- A domain that contains everything and can never be enumerated. -/
  | infinite
  deriving DecidableEq

namespace Table

def empty : Table := finite ∅

instance : Inhabited Table := ⟨empty⟩

/-- The table of some elements, in any order. -/
def ofList (elements : List Element) : Table := finite (.ofList elements)

def integers (lo : Int) (count : Nat) : List Element :=
  (List.range count).map fun (i : Nat) => .int (lo + i)

/-- The integers from `lo` to `hi`, both included. -/
def range (lo hi : Int) : Table := ofList (integers lo (hi + 1 - lo).toNat)

/-- The elements in ascending order, unless there are infinitely many. -/
def elements? : Table → Option (List Element)
  | finite elements => some elements.toList
  | infinite => none

def size? : Table → Option Nat
  | finite elements => some elements.size
  | infinite => none

def isEmpty (t : Table) : Bool := t.size? == some 0

def isFinite : Table → Bool
  | finite _ => true
  | infinite => false

def contains : Table → Element → Bool
  | finite elements, e => elements.contains e
  | infinite, _ => true

def index? : Table → Element → Option Nat
  | finite elements, e => elements.toList.idxOf? e
  | infinite, _ => none

theorem mem_elements {t : Table} {es : List Element} (h : t.elements? = some es) (e : Element) :
    e ∈ es ↔ t.contains e := by
  cases t with
  | finite elements =>
    cases h
    exact Std.ExtTreeSet.mem_toList
  | infinite => cases h

theorem sorted_elements {t : Table} {es : List Element} (h : t.elements? = some es) :
    es.Pairwise fun a b => compare a b = .lt := by
  cases t with
  | finite elements =>
    cases h
    exact Std.ExtTreeSet.ordered_toList
  | infinite => cases h

end Table

end ModelExpansion
