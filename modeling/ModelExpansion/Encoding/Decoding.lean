import ModelExpansion.Encoding.Encoder
import ModelExpansion.NestedFixpoint

/-! # From models of the clauses to structures
A model is decoded, checked against the definitions that their completion does not capture, and
excluded before the next search. -/

namespace ModelExpansion

open ModelExpansion.Sat

/-- Records the truth of the atoms of predicates; the true atoms of functions are returned. -/
def decodePredicates (m : Model) (S : Structure) :
    List (Atom × Nat) → Except Failure (Structure × List Atom)
  | [] => return (S, [])
  | (a, v) :: rest => do
    if (← S.vocabulary.symbol a.symbol).isFunction then
      let (S, functions) ← decodePredicates m S rest
      return (S, if m.value v then a :: functions else functions)
    else decodePredicates m (← S.setValue a.symbol a.tuple (m.value v)).1 rest

def decodeFunctions (S : Structure) : List Atom → Except Failure Structure
  | [] => return S
  | a :: rest =>
    match a.tuple.getLast? with
    | none => decodeFunctions S rest
    | some value =>
      match S.setFunction a.symbol a.tuple.dropLast value with
      | (S, .ok ()) => decodeFunctions S rest
      | (_, .error e) => throw e

namespace Encoder

/-- The structure that a model of the clauses describes. Predicates are recorded before
functions. -/
def decode (e : Encoder) (m : Model) : Except Failure Structure := do
  let (S, functions) ← decodePredicates m e.base e.atoms.toList.zipIdx
  decodeFunctions S functions

/-- The clause that excludes the values of a model on the atoms that are not certain. -/
def blockingClause (e : Encoder) (m : Model) : List Lit :=
  ((List.range e.atoms.size).filter fun v => !e.isInput v).map fun v => .signed v !m.value v

/-- Excludes a model. The Boolean is false when no other is left. -/
def block (e : Encoder) (m : Model) : Encoder × Bool := e.clause (e.blockingClause m)

def needsCheck (e : Encoder) : Bool := !e.definitions.isEmpty || !e.fixpoints.isEmpty

def accepts (e : Encoder) (M : Structure) : Except Failure Bool := do
  if ← e.definitions.allM M.satisfiesDefinition then e.fixpoints.allM M.satisfiesFixpoint
  else return false

/-- Searches for a model of everything added so far. -/
def solve (halt : Stats → Bool) (e : Encoder) : Encoder × Verdict :=
  match e.solver.solve halt with
  | (s, verdict) => ({ e with solver := s }, verdict)

/-- An entry of a list of models. -/
inductive Listed where
  /-- A decoded model and whether the definitions accept it. -/
  | model (M : Structure) (accepted : Except Failure Bool)
  | undecodable (failure : Failure)
  /-- The last search found no model. -/
  | ended (verdict : Verdict)
  /-- Excluding the last model left no other. -/
  | blocked

def listed (e : Encoder) (m : Model) : Listed :=
  match e.decode m with
  | .ok M => .model M (e.accepts M)
  | .error failure => .undecodable failure

/-- Lists the models of everything added so far, at most so many, excluding each one that is
found. -/
def listModels (halt : Stats → Bool) : Nat → Encoder → Encoder × List Listed
  | 0, e => (e, [])
  | count + 1, e =>
    match e.solve halt with
    | (e, .sat) =>
      let m := e.solver.model.getD ⟨#[]⟩
      let entry := e.listed m
      match e.block m with
      | (e, false) => (e, [entry, .blocked])
      | (e, true) =>
        match listModels halt count e with
        | (e, rest) => (e, entry :: rest)
    | (e, verdict) => (e, [.ended verdict])

end Encoder

end ModelExpansion
