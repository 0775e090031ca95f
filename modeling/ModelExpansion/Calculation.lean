import ModelExpansion.Grounding
import ModelExpansion.NestedFixpoint

/-! # Calculation of definitions in a structure
A definition can be calculated when its open symbols are two-valued and its domains are finite. Its
model is then recorded in the structure, where later stages find it as facts. -/

namespace ModelExpansion

/-- Treats an infinite domain as a mere obstacle. -/
def unlessInfinite {α : Type} : Except Failure α → Except Failure (Option α)
  | .ok a => .ok (some a)
  | .error (.infiniteDomain _) => .ok none
  | .error e => .error e

/-- Whether the open symbols are two-valued and the defined ones have finite domains. -/
def isCalculable (S : Structure) (rules : List Rule) : Except Failure Bool := do
  let isOpenReady ← (openSymbols rules).toList.allM fun p =>
    return (← unlessInfinite (S.isTwoValued p)) == some true
  if isOpenReady then
    (headSymbols rules).allM fun p => return (← unlessInfinite (S.graphDomains p)).isSome
  else return false

/-- Records for each tuple of a symbol whether it is in a set of atoms, up to the first one whose
recorded value is the opposite; that one is returned. -/
def recordTuples (S : Structure) (p : SymbolId) (atoms : AtomSet) :
    List Tuple → Structure × Except Failure (Option Atom)
  | [] => (S, .ok none)
  | t :: ts =>
    match S.setValue p t (atoms.contains ⟨p, t⟩) with
    | .ok (S, _) => recordTuples S p atoms ts
    | .error (.inconsistent _ _) => (S, .ok (some ⟨p, t⟩))
    | .error e => (S, .error e)

def recordAtoms (S : Structure) (atoms : AtomSet) :
    List SymbolId → Structure × Except Failure (Option Atom)
  | [] => (S, .ok none)
  | p :: ps =>
    match S.tuples p with
    | .error e => (S, .error e)
    | .ok tuples =>
      match recordTuples S p atoms tuples with
      | (S, .ok none) => recordAtoms S atoms ps
      | stopped => stopped

/-- What became of one definition. -/
inductive CalculationStep where
  | skipped
  | calculated
  /-- There is no two-valued model, or it contradicts the structure at this atom. -/
  | inconsistent (a : Atom)

/-- The true atoms of a definition or the atom at which it has no two-valued model. -/
abbrev Solution := AtomSet ⊕ Atom

/-- Calculates a definition with the given rules, whose ground version is solved by `solve`. -/
def calculateWith (S : Structure) (rules : List Rule)
    (solve : Structure → Except Failure (Option Solution)) :
    Structure × Except Failure CalculationStep :=
  match isCalculable S rules with
  | .error e => (S, .error e)
  | .ok false => (S, .ok .skipped)
  | .ok true =>
    match solve S with
    | .error e => (S, .error e)
    | .ok none => (S, .ok .skipped)
    | .ok (some (.inr a)) => (S, .ok (.inconsistent a))
    | .ok (some (.inl atoms)) =>
      match recordAtoms S atoms (headSymbols rules) with
      | (S, .ok none) => (S, .ok .calculated)
      | (S, .ok (some a)) => (S, .ok (.inconsistent a))
      | (S, .error e) => (S, .error e)

/-- The well-founded model of a definition, if its domains are finite. -/
def solveDefinition (D : Definition) (S : Structure) : Except Failure (Option Solution) := do
  match ← unlessInfinite (groundDefinition S D) with
  | none => return none
  | some ground =>
    let w ← wellFoundedModel S D.defined ground.rules
    match w.undefined with
    | a :: _ => return some (.inr a)
    | [] => return some (.inl w.certain)

/-- The value of a fixpoint definition, if its domains are finite. -/
def solveFixpoint (F : Fixpoint) (S : Structure) : Except Failure (Option Solution) := do
  match ← unlessInfinite (groundFixpoint S F) with
  | none => return none
  | some ground =>
    match ← fixpointModel S ground with
    | .converged atoms => return some (.inl atoms)
    | .oscillating a => return some (.inr a)

def calculateDefinition (S : Structure) (D : Definition) :
    Structure × Except Failure CalculationStep :=
  calculateWith S D.rules (solveDefinition D)

def calculateFixpoint (S : Structure) (F : Fixpoint) : Structure × Except Failure CalculationStep :=
  calculateWith S F.allRules (solveFixpoint F)

/-- Positions of the calculated definitions and fixpoint definitions, in the order of
calculation. -/
structure Calculated where
  definitions : List Nat
  fixpoints : List Nat
  deriving DecidableEq

namespace Calculated

def none : Calculated := ⟨[], []⟩

def size (c : Calculated) : Nat := c.definitions.length + c.fixpoints.length

def isEmpty (c : Calculated) : Bool := c.size == 0

end Calculated

/-- Outcome of a calculation. -/
inductive Calculation where
  | consistent (calculated : Calculated)
  /-- Some definition gives no consistent value to this atom. -/
  | inconsistent (a : Atom)
  deriving DecidableEq

/-- One pass over numbered definitions. Those done are left alone; the ones calculated are added to
them. -/
def calculatePass {α : Type} (calculate :
    Structure → α → Structure × Except Failure CalculationStep)
    (S : Structure) (done : List Nat) :
    List (α × Nat) → Structure × Except Failure (List Nat ⊕ Atom)
  | [] => (S, .ok (.inl done))
  | (D, i) :: rest =>
    if done.contains i then calculatePass calculate S done rest
    else
      match calculate S D with
      | (S, .error e) => (S, .error e)
      | (S, .ok .skipped) => calculatePass calculate S done rest
      | (S, .ok .calculated) => calculatePass calculate S (done ++ [i]) rest
      | (S, .ok (.inconsistent a)) => (S, .ok (.inr a))

def calculateOnce (T : Theory) (S : Structure) (c : Calculated) :
    Structure × Except Failure Calculation :=
  match calculatePass calculateDefinition S c.definitions T.definitions.zipIdx with
  | (S, .error e) => (S, .error e)
  | (S, .ok (.inr a)) => (S, .ok (.inconsistent a))
  | (S, .ok (.inl definitions)) =>
    match calculatePass calculateFixpoint S c.fixpoints T.fixpoints.zipIdx with
    | (S, .error e) => (S, .error e)
    | (S, .ok (.inr a)) => (S, .ok (.inconsistent a))
    | (S, .ok (.inl fixpoints)) => (S, .ok (.consistent ⟨definitions, fixpoints⟩))

/-- Passes until one of them calculates nothing, at most so many. -/
def calculateUpTo (T : Theory) :
    Nat → Structure → Calculated → Structure × Except Failure Calculation
  | 0, S, c => (S, .ok (.consistent c))
  | n + 1, S, c =>
    match calculateOnce T S c with
    | (S, .ok (.consistent c')) =>
      if c'.size = c.size then (S, .ok (.consistent c')) else calculateUpTo T n S c'
    | stopped => stopped

/-- Calculates every definition that can be calculated, also those that can be only after others
have been. Every pass but the last calculates one. The structure also holds what was recorded before
a failure or an inconsistency. -/
def calculate (T : Theory) (S : Structure) : Structure × Except Failure Calculation :=
  calculateUpTo T (T.definitions.length + T.fixpoints.length + 1) S .none

end ModelExpansion
