import ModelExpansion.Sat.Solver

/-! # Unit propagation over watched literals
Only the clauses that watch a literal are visited when it becomes false. -/

namespace ModelExpansion.Sat.Solver

/-- Visits the clauses that watch a literal which has just become false. A clause whose first
literal is true stays; one with another literal that is not false moves its watch there; otherwise
it stays and is either unit, and its first literal is assigned, or in conflict, and the visit ends.
Returns the clauses that stay, in order, and the conflicting clause. -/
def visit (falsified : Lit) : List Nat → Array Nat → Solver → Solver × Array Nat × Option Nat
  | [], kept, s => (s, kept, none)
  | index :: rest, kept, s =>
    let s := s.modifyClause index (Clause.orient falsified)
    let c := s.clause index
    let first := c.first
    if (s.value first).isYes then visit falsified rest (kept.push index) s
    else
      match c.position? (fun l => !(s.value l).isNo) with
      | some i =>
        let l := c.unwatched i
        visit falsified rest kept ((s.modifyClause index (Clause.rewatch i)).watch l index)
      | none =>
        if (s.value first).isNo then (s, kept.push index ++ rest, some index)
        else visit falsified rest (kept.push index) (s.assign first (some index))

/-- Takes the next literal from the queue, together with the clauses to visit. -/
@[inline] def dequeue? (s : Solver) : Option (Lit × Array Nat × Solver) :=
  match s.trail[s.queueHead]? with
  | none => none
  | some p =>
    some (p, s.watches.getD p.code #[],
      { s with
        queueHead := s.queueHead + 1
        watches := s.watches.setIfInBounds p.code #[]
        stats := { s.stats with propagations := s.stats.propagations + 1 } })

/-- Propagates at most so many literals of the queue. -/
def propagateUpTo : Nat → Solver → Solver × Option Nat
  | 0, s => (s, none)
  | count + 1, s =>
    match s.dequeue? with
    | none => (s, none)
    | some (p, watchers, s) =>
      match visit p.negate watchers.toList #[] s with
      | (s, kept, conflict) =>
        let s := { s with watches := s.watches.setIfInBounds p.code kept }
        match conflict with
        | none => propagateUpTo count s
        | some index => ({ s with queueHead := s.trail.size }, some index)

/-- Propagates the queue to its end or to a conflict. The trail holds a variable at most once, so
there are no more literals to take than variables. -/
def propagate (s : Solver) : Solver × Option Nat := propagateUpTo (s.numVars + 1) s

end ModelExpansion.Sat.Solver
