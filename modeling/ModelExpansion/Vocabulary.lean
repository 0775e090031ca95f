import ModelExpansion.Element
import ModelExpansion.Failure
import ModelExpansion.Reachability

/-! # Vocabularies
Sorts with their parents, and predicate and function symbols with the sorts of their arguments. -/

namespace ModelExpansion

/-- Sorts are numbered in the order of their declaration. -/
abbrev SortId := Nat

abbrev SortSet := Std.ExtTreeSet SortId

abbrev SymbolSet := Std.ExtTreeSet SymbolId

/-- A declared sort, a subsort of each of its parents. -/
structure SortDecl where
  name : String
  parents : List SortId
  deriving DecidableEq

/-- A declared symbol: a predicate, or a function when it has a result sort. -/
structure Symbol where
  name : String
  args : List SortId
  result : Option SortId
  deriving DecidableEq

namespace Symbol

def arity (s : Symbol) : Nat := s.args.length

def isFunction (s : Symbol) : Bool := s.result.isSome

/-- Sorts of the stored tuples: a function is stored as its graph. -/
def graphSorts (s : Symbol) : List SortId := s.args ++ s.result.toList

def touches (s : Symbol) (sorts : SortSet) : Bool := s.graphSorts.any sorts.contains

end Symbol

structure Vocabulary where
  sorts : List SortDecl
  symbols : List Symbol
  deriving DecidableEq

namespace Vocabulary

def empty : Vocabulary := ⟨[], []⟩

instance : Inhabited Vocabulary := ⟨empty⟩

def addSort (V : Vocabulary) (name : String) (parents : List SortId) : Vocabulary :=
  { V with sorts := V.sorts ++ [⟨name, parents⟩] }

/-- Declares a predicate, or a function when there is a result sort; its number is the previous
number of symbols. -/
def addSymbol (V : Vocabulary) (name : String) (args : List SortId) (result : Option SortId) :
    Vocabulary :=
  { V with symbols := V.symbols ++ [⟨name, args, result⟩] }

def numSorts (V : Vocabulary) : Nat := V.sorts.length

def numSymbols (V : Vocabulary) : Nat := V.symbols.length

/-- How a number that no sort has is written. -/
def sortIdText (id : SortId) : String := "sort#" ++ toString id

/-- How a number that no symbol has is written. -/
def symbolIdText (id : SymbolId) : String := "sym#" ++ toString id

def sort (V : Vocabulary) (id : SortId) : Except Failure SortDecl :=
  match V.sorts[id]? with
  | some s => .ok s
  | none => .error (.unknownSort (sortIdText id))

def symbol (V : Vocabulary) (id : SymbolId) : Except Failure Symbol :=
  match V.symbols[id]? with
  | some s => .ok s
  | none => .error (.unknownSymbol (symbolIdText id))

def sortName (V : Vocabulary) (id : SortId) : String :=
  match V.sorts[id]? with
  | some s => s.name
  | none => sortIdText id

def symbolName (V : Vocabulary) (id : SymbolId) : String :=
  match V.symbols[id]? with
  | some s => s.name
  | none => symbolIdText id

/-- Sort of the values of a function; a predicate is not known as a function. -/
def resultSort (V : Vocabulary) (f : SymbolId) : Except Failure SortId := do
  match (← V.symbol f).result with
  | some sort => return sort
  | none => throw (.unknownSymbol (V.symbolName f))

def lastIndex? (name : String) (names : List String) : Option Nat :=
  (names.reverse.idxOf? name).map fun i => names.length - 1 - i

def findSort? (V : Vocabulary) (name : String) : Option SortId :=
  lastIndex? name (V.sorts.map SortDecl.name)

def findSymbol? (V : Vocabulary) (name : String) : Option SymbolId :=
  lastIndex? name (V.symbols.map Symbol.name)

def sortIds (V : Vocabulary) : List SortId := List.range V.numSorts

def symbolIds (V : Vocabulary) : List SymbolId := List.range V.numSymbols

/-- Parents of a sort; an undeclared sort has none. -/
def parents (V : Vocabulary) (id : SortId) : List SortId :=
  match V.sorts[id]? with
  | some s => s.parents
  | none => []

/-- A sort with all sorts above it. -/
def ancestors (V : Vocabulary) (s : SortId) : SortSet := .ofList (reach V.sortIds V.parents [] [s])

/-- A sort, if it is declared, with all declared sorts below it. -/
def descendants (V : Vocabulary) (s : SortId) : SortSet :=
  .ofList (V.sortIds.filter fun t => (V.ancestors t).contains s)

end Vocabulary

end ModelExpansion
