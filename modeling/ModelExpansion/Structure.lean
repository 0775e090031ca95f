import ModelExpansion.Product
import ModelExpansion.Table
import ModelExpansion.Truth
import ModelExpansion.Vocabulary

/-! # Three-valued structures
A structure gives each sort a table and records which atoms are certainly true and which certainly
false. A function is recorded by its graph: the atoms of its arguments followed by the value. -/

namespace ModelExpansion

structure Structure where
  vocabulary : Vocabulary
  /-- One table per declared sort. -/
  tables : List Table
  /-- The certain atoms; no atom can be both true and false. -/
  facts : Facts
  deriving DecidableEq

/-- The value that the truth of a function's graph determines: the first one that is certainly true,
or else the only one that is not certainly false. -/
def determined? (values : List Element) (truth : Element → Truth) : Option Element :=
  match values.find? fun v => truth v == .yes with
  | some v => some v
  | none =>
    match values.filter fun v => truth v == .unknown with
    | [v] => some v
    | _ => none

namespace Structure

def empty (V : Vocabulary) : Structure := ⟨V, V.sorts.map fun _ => .empty, ∅⟩

instance : Inhabited Structure := ⟨empty .empty⟩

def setTable (S : Structure) (sort : SortId) (t : Table) : Structure :=
  { S with tables := S.tables.set sort t }

def table (S : Structure) (sort : SortId) : Except Failure Table :=
  match S.tables[sort]? with
  | some t => .ok t
  | none => .error (.unknownSort (Vocabulary.sortIdText sort))

/-- The elements of a sort, in ascending order. -/
def domain (S : Structure) (sort : SortId) : Except Failure (List Element) := do
  match (← S.table sort).elements? with
  | some elements => return elements
  | none => throw (.infiniteDomain (S.vocabulary.sortName sort))

def domains (S : Structure) (sorts : List SortId) : Except Failure (List (List Element)) :=
  sorts.mapM S.domain

def graphDomains (S : Structure) (symbol : SymbolId) : Except Failure (List (List Element)) := do
  S.domains (← S.vocabulary.symbol symbol).graphSorts

/-- Every tuple a symbol may hold of, in lexicographic order. -/
def tuples (S : Structure) (symbol : SymbolId) : Except Failure (List Tuple) :=
  return product (← S.graphDomains symbol)

def stored (S : Structure) (symbol : SymbolId) (tuple : Tuple) : Truth :=
  .ofOption S.facts[(⟨symbol, tuple⟩ : Atom)]?

def lookup (S : Structure) (symbol : SymbolId) (tuple : Tuple) : Except Failure Truth := do
  let _ ← S.vocabulary.symbol symbol
  return S.stored symbol tuple

def resultDomain (S : Structure) (f : SymbolId) : Except Failure (List Element) := do
  S.domain (← S.vocabulary.resultSort f)

/-- Value of a function, if determined by what is recorded. -/
def functionValue (S : Structure) (f : SymbolId) (args : Tuple) :
    Except Failure (Option Element) := do
  return determined? (← S.resultDomain f) fun v => S.stored f (args ++ [v])

/-- Truth of a graph tuple of a function about which nothing is recorded: it is decided by a known
value at the same arguments. -/
def graphValue (S : Structure) (f : SymbolId) (tuple : Tuple) : Truth :=
  match tuple.getLast? with
  | none => .unknown
  | some value =>
    match S.functionValue f tuple.dropLast with
    | .ok (some known) => .ofBool (known == value)
    | _ => .unknown

def isFunction (S : Structure) (symbol : SymbolId) : Bool :=
  match S.vocabulary.symbol symbol with
  | .ok s => s.isFunction
  | .error _ => false

def value (S : Structure) (symbol : SymbolId) (tuple : Tuple) : Truth :=
  match S.stored symbol tuple with
  | .unknown => if S.isFunction symbol then S.graphValue symbol tuple else .unknown
  | known => known

def checkPositions (S : Structure) (symbol : SymbolId) :
    (position : Nat) → List SortId → Tuple → Except Failure Unit
  | position, sort :: sorts, e :: es => do
    if (← S.table sort).contains e then S.checkPositions symbol (position + 1) sorts es
    else
      throw (.outOfDomain (S.vocabulary.symbolName symbol) position (S.vocabulary.sortName sort)
        e.text)
  | _, _, _ => return ()

/-- Checks that a symbol may hold of a tuple. -/
def checkTuple (S : Structure) (symbol : SymbolId) (tuple : Tuple) : Except Failure Unit := do
  let sorts := (← S.vocabulary.symbol symbol).graphSorts
  if sorts.length = tuple.length then S.checkPositions symbol 0 sorts tuple
  else throw (.arityMismatch (S.vocabulary.symbolName symbol) sorts.length tuple.length)

/-- Records an atom as certainly true or certainly false; the Boolean says whether that is new. -/
def setValue (S : Structure) (symbol : SymbolId) (tuple : Tuple) (value : Bool) :
    Except Failure (Structure × Bool) := do
  S.checkTuple symbol tuple
  match S.facts[(⟨symbol, tuple⟩ : Atom)]? with
  | none => return ({ S with facts := S.facts.insert ⟨symbol, tuple⟩ value }, true)
  | some known =>
    if known = value then return (S, false)
    else throw (.inconsistent (S.vocabulary.symbolName symbol) tuple.text)

/-- Records the atoms of a function at some arguments: true for one value and false for the others.
What was recorded before a failure stays. -/
def setGraph (S : Structure) (f : SymbolId) (args : Tuple) (value : Element) :
    List Element → Structure × Except Failure Unit
  | [] => (S, .ok ())
  | candidate :: rest =>
    match S.setValue f (args ++ [candidate]) (candidate == value) with
    | .ok (S, _) => S.setGraph f args value rest
    | .error e => (S, .error e)

/-- Fixes the value of a function at some arguments. -/
def setFunction (S : Structure) (f : SymbolId) (args : Tuple) (value : Element) :
    Structure × Except Failure Unit :=
  match S.resultDomain f with
  | .ok values => S.setGraph f args value values
  | .error e => (S, .error e)

def clear (S : Structure) (symbol : SymbolId) : Structure :=
  { S with facts := S.facts.filter fun a _ => a.symbol != symbol }

/-- Whether every application of a symbol is decided. -/
def isTwoValued (S : Structure) (symbol : SymbolId) : Except Failure Bool := do
  let s ← S.vocabulary.symbol symbol
  if s.isFunction then
    allTuplesM (fun args => return (← S.functionValue symbol args).isSome) (← S.domains s.args)
  else allTuplesM (fun t => return (S.stored symbol t).isKnown) (← S.graphDomains symbol)

def isTotal (S : Structure) : Except Failure Bool := S.vocabulary.symbolIds.allM S.isTwoValued

def certainFacts (S : Structure) : List (Atom × Bool) := S.facts.toList

def recorded (S : Structure) (symbol : SymbolId) (value : Bool) : List Tuple :=
  (S.certainFacts.filter fun f => f.1.symbol == symbol && f.2 == value).map fun f => f.1.tuple

def trueTuples (S : Structure) (symbol : SymbolId) : Except Failure (List Tuple) := do
  let _ ← S.vocabulary.symbol symbol
  return S.recorded symbol true

def falseTuples (S : Structure) (symbol : SymbolId) : Except Failure (List Tuple) := do
  let _ ← S.vocabulary.symbol symbol
  return S.recorded symbol false

def sortLine (S : Structure) (sort : SortId) : String :=
  S.vocabulary.sortName sort ++ " = " ++
    (match (S.tables.getD sort .empty).elements? with
    | some elements => "\x7b" ++ ", ".intercalate (elements.map Element.text) ++ "\x7d"
    | none => "<infinite>") ++ "\n"

def symbolLine (S : Structure) (symbol : SymbolId) : String :=
  S.vocabulary.symbolName symbol ++ " = \x7b"
    ++ ", ".intercalate ((S.recorded symbol true).map Tuple.text) ++ "\x7d\n"

def text (S : Structure) : String :=
  String.join (S.vocabulary.sortIds.map S.sortLine ++ S.vocabulary.symbolIds.map S.symbolLine)

end Structure

end ModelExpansion
