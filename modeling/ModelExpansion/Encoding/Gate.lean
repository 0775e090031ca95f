import ModelExpansion.Encoding.Encoder

/-! # Gates
A gate is a variable with clauses that make it equivalent to a conjunction or an equivalence.
Constants are folded, and a conjunction is built only once. -/

namespace ModelExpansion

open ModelExpansion.Sat

namespace Encoder

def newGate (e : Encoder) : Encoder × Lit :=
  let g := Lit.pos e.solver.numVars
  ({ e with
    solver := e.solver.newVar
    stats := { e.stats with gates := e.stats.gates + 1 } }, g)

/-- The clauses that make `g` equivalent to a conjunction. -/
def andClauses (g : Lit) (lits : List Lit) : List (List Lit) :=
  lits.map (fun l => [g.negate, l]) ++ [g :: lits.map Lit.negate]

/-- The clauses that make `g` equivalent to an equivalence. -/
def iffClauses (g a b : Lit) : List (List Lit) :=
  [[g.negate, a.negate, b], [g.negate, a, b.negate], [g, a, b], [g, a.negate, b.negate]]

def andGate (e : Encoder) (lits : List Lit) : Encoder × Lit :=
  match e.gates[lits]? with
  | some g => ({ e with stats := { e.stats with hits := e.stats.hits + 1 } }, g)
  | none =>
    match e.newGate with
    | (e, g) =>
      let e := e.clauses (andClauses g lits)
      ({ e with gates := e.gates.insert lits g }, g)

def and (e : Encoder) (lits : List Lit) : Encoder × Lit :=
  if lits.contains e.falsity then (e, e.falsity)
  else
    match ascending (lits.filter (· != e.truth)) with
    | [] => (e, e.truth)
    | [l] => (e, l)
    | sorted => if hasComplement sorted then (e, e.falsity) else e.andGate sorted

def or (e : Encoder) (lits : List Lit) : Encoder × Lit :=
  match e.and (lits.map Lit.negate) with
  | (e, l) => (e, l.negate)

def iff (e : Encoder) (a b : Lit) : Encoder × Lit :=
  if a = e.truth then (e, b)
  else if a = e.falsity then (e, b.negate)
  else if b = e.truth then (e, a)
  else if b = e.falsity then (e, a.negate)
  else if a = b then (e, e.truth)
  else if a = b.negate then (e, e.falsity)
  else
    match e.newGate with
    | (e, g) => (e.clauses (iffClauses g a b), g)

end Encoder

namespace Encoding

def step {α : Type} (f : Encoder → Encoder × α) : Encoding α :=
  fun e => match f e with
    | (e, a) => (.ok a, e)

def and (lits : List Lit) : Encoding Lit := step (·.and lits)

def or (lits : List Lit) : Encoding Lit := step (·.or lits)

def iff (a b : Lit) : Encoding Lit := step (·.iff a b)

def clause (lits : List Lit) : Encoding Unit := step fun e => ((e.clause lits).1, ())

def read {α : Type} (f : Encoder → α) : Encoding α := fun e => (.ok (f e), e)

def lift {α : Type} (x : Except Failure α) : Encoding α := fun e => (x, e)

end Encoding

end ModelExpansion
