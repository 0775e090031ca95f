import ModelExpansion.Failure
import ModelExpansion.Sat.Enumeration
import ModelExpansion.Theory
import ModelExpansion.Structure

/-! # State of an encoding
Every atom over the tables has a variable, numbered by symbol and then by tuple; a further variable
is always true; all others stand for gates. -/

namespace ModelExpansion

open ModelExpansion.Sat

/-- Possible values of a term, each with a literal that says the term has it. -/
abbrev Cases := List (Element × Lit)

structure EncodingStats where
  /-- Atom variables. -/
  atoms : Nat := 0
  /-- Atoms already certain in the structure. -/
  inputs : Nat := 0
  gates : Nat := 0
  /-- Clauses handed to the solver. -/
  clauses : Nat := 0
  /-- Gates that existed already when they were asked for. -/
  hits : Nat := 0
  deriving DecidableEq

structure Encoder where
  /-- The structure to be expanded. -/
  base : Structure
  solver : Solver
  /-- The atom of each atom variable. -/
  atoms : Array Atom
  /-- The variable of each atom. -/
  index : Std.ExtTreeMap Atom Nat
  /-- For each atom variable, whether the atom is certain in the structure. -/
  inputs : Array Bool
  /-- A literal that is always true. -/
  truth : Lit
  /-- The literals of conjunctions, by their sorted members. -/
  gates : Std.ExtTreeMap (List Lit) Lit
  /-- Recursive definitions, whose completion admits too much. -/
  definitions : List Definition
  fixpoints : List Fixpoint
  stats : EncodingStats

/-- A computation on an encoder. What it did before a failure stays. -/
abbrev Encoding := ExceptT Failure (StateM Encoder)

namespace Encoder

def falsity (e : Encoder) : Lit := e.truth.negate

/-- Literal of an atom, if its tuple is in the tables. -/
def atomLit? (e : Encoder) (p : SymbolId) (t : Tuple) : Option Lit :=
  e.index[(⟨p, t⟩ : Atom)]?.map Lit.pos

def isInput (e : Encoder) (v : Nat) : Bool := e.inputs.getD v false

def clause (e : Encoder) (lits : List Lit) : Encoder × Bool :=
  match e.solver.addClause lits with
  | (s, ok) =>
    ({ e with solver := s, stats := { e.stats with clauses := e.stats.clauses + 1 } }, ok)

def clauses (e : Encoder) (cs : List (List Lit)) : Encoder := cs.foldl (fun e c => (e.clause c).1) e

def pairs {α : Type} : List α → List (α × α)
  | [] => []
  | a :: as => as.map (fun b => (a, b)) ++ pairs as

/-- Clauses that make exactly one of some literals true. -/
def exactlyOne (lits : List Lit) : List (List Lit) :=
  lits :: (pairs lits).map fun ab => [ab.1.negate, ab.2.negate]

def constrainFunction (e : Encoder) (f : SymbolId) (args : List Tuple)
    (values : List Element) : Encoder :=
  args.foldl
    (fun e t => e.clauses (exactlyOne (values.filterMap fun v => e.atomLit? f (t ++ [v])))) e

def constrainFunctions (e : Encoder) : List SymbolId → Except Failure Encoder
  | [] => return e
  | f :: fs => do
    let s ← e.base.vocabulary.symbol f
    match s.result with
    | none => constrainFunctions e fs
    | some result =>
      let args ← e.base.domains s.args
      let values ← e.base.domain result
      constrainFunctions (e.constrainFunction f (product args) values) fs

/-- All atoms over the tables, by symbol and then by tuple. -/
def atomsOf (S : Structure) : Except Failure (List Atom) := do
  let domains ← S.vocabulary.symbolIds.mapM fun p => return (p, ← S.graphDomains p)
  return domains.flatMap fun pd => (product pd.2).map (Atom.mk pd.1)

/-- An encoder with a variable for each atom and the constant, which is asserted. -/
def ofAtoms (S : Structure) (s : Solver) (atoms : List Atom) : Encoder :=
  let first := s.numVars
  let inputs := atoms.map fun a => (S.value a.symbol a.tuple).isKnown
  let count := atoms.length
  let e : Encoder :=
    { base := S
      solver := Nat.repeat Solver.newVar (count + 1) s
      atoms := atoms.toArray
      index := .ofList (atoms.zipIdx first)
      inputs := inputs.toArray
      truth := .pos (first + count)
      gates := ∅
      definitions := []
      fixpoints := []
      stats := { atoms := count, inputs := inputs.count true } }
  (e.clause [e.truth]).1

def start (S : Structure) (s : Solver) : Except Failure Encoder := do
  (ofAtoms S s (← atomsOf S)).constrainFunctions S.vocabulary.symbolIds

end Encoder

end ModelExpansion
