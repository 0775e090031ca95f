import ModelExpansion.Formula.Basic
import ModelExpansion.SortedList

/-! # What occurs in terms, sets and formulas
Free variables, symbols and elements, with repetitions and in the order of reading; whether a node
is ground; and the number of nodes of a formula. -/

namespace ModelExpansion

mutual

/-- Occurrences of variables that no enclosing binder inside the term binds. -/
def Term.freeVars : Term → List Var
  | .var x => [x]
  | .element _ => []
  | .apply _ args => Term.freeVarsList args
  | .aggregate _ s => s.freeVars

def SetExpr.freeVars : SetExpr → List Var
  | .enumerated ms => SetExpr.freeVarsMembers ms
  | .comprehension vars c w => (c.freeVars ++ w.freeVars).filter fun x => !vars.contains x

def Formula.freeVars : Formula → List Var
  | .atom _ _ args => Term.freeVarsList args
  | .junction _ _ fs => Formula.freeVarsList fs
  | .quantified _ _ vars f => f.freeVars.filter fun x => !vars.contains x
  | .equivalence _ l r => l.freeVars ++ r.freeVars
  | .comparison _ ts _ => Term.freeVarsList ts

def Term.freeVarsList : List Term → List Var
  | [] => []
  | t :: ts => t.freeVars ++ Term.freeVarsList ts

def Formula.freeVarsList : List Formula → List Var
  | [] => []
  | f :: fs => f.freeVars ++ Formula.freeVarsList fs

def SetExpr.freeVarsMembers : List Member → List Var
  | [] => []
  | (c, w) :: ms => c.freeVars ++ w.freeVars ++ SetExpr.freeVarsMembers ms

end

mutual

/-- Whether there is no variable and no quantified set. -/
def Term.isGround : Term → Bool
  | .var _ => false
  | .element _ => true
  | .apply _ args => Term.areGround args
  | .aggregate _ s => s.isGround

def SetExpr.isGround : SetExpr → Bool
  | .enumerated ms => SetExpr.areGround ms
  | .comprehension _ _ _ => false

/-- Whether there is no variable and no quantifier. -/
def Formula.isGround : Formula → Bool
  | .atom _ _ args => Term.areGround args
  | .junction _ _ fs => Formula.areGround fs
  | .quantified _ _ _ _ => false
  | .equivalence _ l r => l.isGround && r.isGround
  | .comparison _ ts _ => Term.areGround ts

def Term.areGround : List Term → Bool
  | [] => true
  | t :: ts => t.isGround && Term.areGround ts

def Formula.areGround : List Formula → Bool
  | [] => true
  | f :: fs => f.isGround && Formula.areGround fs

def SetExpr.areGround : List Member → Bool
  | [] => true
  | (c, w) :: ms => c.isGround && w.isGround && SetExpr.areGround ms

end

mutual

def Term.symbols : Term → List SymbolId
  | .var _ | .element _ => []
  | .apply f args => f :: Term.symbolsList args
  | .aggregate _ s => s.symbols

def SetExpr.symbols : SetExpr → List SymbolId
  | .enumerated ms => SetExpr.symbolsMembers ms
  | .comprehension _ c w => c.symbols ++ w.symbols

def Formula.symbols : Formula → List SymbolId
  | .atom _ p args => p :: Term.symbolsList args
  | .junction _ _ fs => Formula.symbolsList fs
  | .quantified _ _ _ f => f.symbols
  | .equivalence _ l r => l.symbols ++ r.symbols
  | .comparison _ ts _ => Term.symbolsList ts

def Term.symbolsList : List Term → List SymbolId
  | [] => []
  | t :: ts => t.symbols ++ Term.symbolsList ts

def Formula.symbolsList : List Formula → List SymbolId
  | [] => []
  | f :: fs => f.symbols ++ Formula.symbolsList fs

def SetExpr.symbolsMembers : List Member → List SymbolId
  | [] => []
  | (c, w) :: ms => c.symbols ++ w.symbols ++ SetExpr.symbolsMembers ms

end

mutual

def Term.elements : Term → List Element
  | .var _ => []
  | .element e => [e]
  | .apply _ args => Term.elementsList args
  | .aggregate _ s => s.elements

def SetExpr.elements : SetExpr → List Element
  | .enumerated ms => SetExpr.elementsMembers ms
  | .comprehension _ c w => c.elements ++ w.elements

def Formula.elements : Formula → List Element
  | .atom _ _ args => Term.elementsList args
  | .junction _ _ fs => Formula.elementsList fs
  | .quantified _ _ _ f => f.elements
  | .equivalence _ l r => l.elements ++ r.elements
  | .comparison _ ts _ => Term.elementsList ts

def Term.elementsList : List Term → List Element
  | [] => []
  | t :: ts => t.elements ++ Term.elementsList ts

def Formula.elementsList : List Formula → List Element
  | [] => []
  | f :: fs => f.elements ++ Formula.elementsList fs

def SetExpr.elementsMembers : List Member → List Element
  | [] => []
  | (c, w) :: ms => c.elements ++ w.elements ++ SetExpr.elementsMembers ms

end

mutual

def Formula.size : Formula → Nat
  | .atom _ _ _ | .comparison _ _ _ => 1
  | .junction _ _ fs => 1 + Formula.sizeList fs
  | .quantified _ _ _ f => 1 + f.size
  | .equivalence _ l r => 1 + l.size + r.size

def Formula.sizeList : List Formula → Nat
  | [] => 0
  | f :: fs => f.size + Formula.sizeList fs

end

/-- By number, then by name, then by sort. -/
instance : Ord Var :=
  ⟨compareLex (compareOn Var.id) (compareLex (compareOn Var.name) (compareOn Var.sort))⟩

end ModelExpansion
