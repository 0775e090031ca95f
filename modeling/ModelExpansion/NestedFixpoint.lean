import ModelExpansion.WellFounded

/-! # Values of nested fixpoint definitions
A level applies its rules again and again, a least one from nothing on and a greatest one from all
its heads. The levels inside are solved anew in each round. -/

namespace ModelExpansion

/-- Value of a nested fixpoint definition. -/
inductive FixpointValue where
  /-- The iteration settled on these atoms. -/
  | converged (atoms : AtomSet)
  /-- The iteration of a level with this head did not settle. -/
  | oscillating (a : Atom)

/-- Iteration of one level. `inner` solves the levels inside on top of the atoms around them;
`derive` gives the heads of the rules whose body is true. The value of a level leaves out the atoms
around it. -/
def iterateLevel (inner : AtomSet → Except Failure FixpointValue)
    (derive : AtomSet → Except Failure AtomSet) (outer heads : AtomSet) :
    Nat → AtomSet → Except Failure FixpointValue
  | 0, _ =>
    match heads.toList with
    | a :: _ => return .oscillating a
    | [] => return .converged ∅
  | n + 1, own => do
    match ← inner (outer.insertMany own.toList) with
    | .oscillating a => return .oscillating a
    | .converged context =>
      let next ← derive context
      if next = own then return .converged (context.filter fun a => !outer.contains a)
      else iterateLevel inner derive outer heads n next

/-- The heads of the rules whose body is true when all defined atoms are read from one set. -/
def trueHeads (v : Valuation) : List Rule → Except Failure (List Atom)
  | [] => return []
  | r :: rs => do
    if (← evalFormula v true r.body) = .yes then
      let head ← r.headAtom
      return head :: (← trueHeads v rs)
    else trueHeads v rs

def levelHeads (rules : List Rule) : Except Failure AtomSet :=
  return .ofList (← rules.mapM Rule.headAtom)

def applyRules (base : Structure) (defined : List SymbolId) (rules : List Rule)
    (context : AtomSet) :
    Except Failure AtomSet :=
  return .ofList (← trueHeads (stage base defined context context) rules)

mutual

/-- Value of a level inside a set of atoms. A monotone level settles within one round for each head,
so two rounds more than heads are tried. -/
def solveLevel (base : Structure) (defined : List SymbolId) :
    Fixpoint → AtomSet → Except Failure FixpointValue
  | .level least rules nested, outer => do
    let heads ← levelHeads rules
    iterateLevel (fun context => solveLevels base defined nested context)
      (applyRules base defined rules) outer heads (heads.size + 2) (if least then ∅ else heads)

/-- Solves levels one after the other, each on top of the values of those before; converges to the
atoms given together with all values. -/
def solveLevels (base : Structure) (defined : List SymbolId) :
    List Fixpoint → AtomSet → Except Failure FixpointValue
  | [], context => return .converged context
  | l :: ls, context => do
    match ← solveLevel base defined l context with
    | .oscillating a => return .oscillating a
    | .converged value => solveLevels base defined ls (context.insertMany value.toList)

end

/-- Value of a ground nested fixpoint definition over a structure. -/
def fixpointModel (base : Structure) (F : Fixpoint) : Except Failure FixpointValue :=
  solveLevel base F.defined F ∅

/-! ## Whether a total structure is a model of a ground definition -/

namespace Structure

/-- Whether the tuples of some symbols are true exactly if they are in a set of atoms. -/
def agreesOn (M : Structure) (defined : List SymbolId) (atoms : AtomSet) : Except Failure Bool :=
  defined.allM fun p => do
    allTuplesM (fun t => return M.value p t == atoms.truth p t) (← M.graphDomains p)

/-- The well-founded model of the definition is two-valued and agrees with the structure. -/
def satisfiesDefinition (M : Structure) (D : Definition) : Except Failure Bool := do
  let w ← wellFoundedModel M D.defined D.rules
  if w.isTotal then M.agreesOn D.defined w.certain else return false

/-- The value of the fixpoint definition agrees with the structure. -/
def satisfiesFixpoint (M : Structure) (F : Fixpoint) : Except Failure Bool := do
  match ← fixpointModel M F with
  | .converged atoms => M.agreesOn F.defined atoms
  | .oscillating _ => return false

end Structure

end ModelExpansion
