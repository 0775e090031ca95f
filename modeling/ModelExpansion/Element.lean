import Std.Data.ExtTreeMap
import Std.Data.ExtTreeSet

/-! # Domain elements, tuples and atoms
All three are totally ordered, so that sets of atoms and maps on atoms are equal as soon as they
have the same members. -/

namespace ModelExpansion

/-- An element of a domain: an integer or a name. -/
inductive Element where
  | int (n : Int)
  | name (s : String)
  deriving DecidableEq

namespace Element

/-- Integers come before names; names are ordered by code points. -/
protected def compare : Element → Element → Ordering
  | int a, int b => compare a b
  | int _, name _ => .lt
  | name _, int _ => .gt
  | name a, name b => compare a b

instance : Ord Element := ⟨Element.compare⟩

instance : Inhabited Element := ⟨int 0⟩

instance : Std.OrientedOrd Element where
  eq_swap {a b} := by
    cases a <;> cases b
    · exact Std.OrientedOrd.eq_swap (α := Int)
    · rfl
    · rfl
    · exact Std.OrientedOrd.eq_swap (α := String)

instance : Std.TransOrd Element where
  isLE_trans {a b c} h₁ h₂ := by
    cases a <;> cases b <;> cases c
    · exact Std.TransOrd.isLE_trans (α := Int) h₁ h₂
    · rfl
    · cases h₂
    · rfl
    · cases h₁
    · cases h₁
    · cases h₂
    · exact Std.TransOrd.isLE_trans (α := String) h₁ h₂

instance : Std.LawfulEqOrd Element where
  eq_of_compare {a b} h := by
    cases a <;> cases b
    · exact congrArg int (Std.LawfulEqOrd.eq_of_compare (α := Int) h)
    · cases h
    · cases h
    · exact congrArg name (Std.LawfulEqOrd.eq_of_compare (α := String) h)

def toInt? : Element → Option Int
  | int n => some n
  | name _ => none

def isInt (e : Element) : Bool := e.toInt?.isSome

def text : Element → String
  | int n => toString n
  | name s => s

end Element

/-- Arguments of an atom; for a function the arguments and then the value. -/
abbrev Tuple := List Element

/-- A tuple as it is written in messages: `(a,b,c)`. -/
def Tuple.text (t : Tuple) : String := "(" ++ ",".intercalate (t.map Element.text) ++ ")"

/-- Symbols are numbered in the order of their declaration. -/
abbrev SymbolId := Nat

/-- A symbol with a tuple it may hold of. -/
structure Atom where
  symbol : SymbolId
  tuple : Tuple
  deriving DecidableEq

namespace Atom

/-- By symbol, then by tuple. -/
instance : Ord Atom := ⟨compareLex (compareOn symbol) (compareOn tuple)⟩

instance : Inhabited Atom := ⟨⟨0, []⟩⟩

instance : Std.TransOrd Atom :=
  inferInstanceAs (Std.TransCmp (compareLex (compareOn symbol) (compareOn tuple)))

instance : Std.LawfulEqOrd Atom where
  eq_of_compare {a b} h := by
    cases a; cases b
    obtain ⟨hs, ht⟩ := compareLex_eq_eq.mp h
    cases Std.LawfulEqOrd.eq_of_compare (α := SymbolId) hs
    cases Std.LawfulEqOrd.eq_of_compare (α := Tuple) ht
    rfl

end Atom

abbrev AtomSet := Std.ExtTreeSet Atom

abbrev Facts := Std.ExtTreeMap Atom Bool

end ModelExpansion
