import ModelExpansion.Sat.Analysis
import ModelExpansion.Sat.Propagation

/-! # Conflict-driven search
The search is a sequence of steps; each propagates and then learns from a conflict, gives up,
restarts, answers or decides. -/

namespace ModelExpansion.Sat

/-! ## The Luby sequence
The lengths 1, 1, 2, 1, 1, 2, 4, … between restarts, computed in words of 64 bits. -/

namespace Luby

def wordBound : Nat := 18446744073709551616

/-- The smallest block length `2 ^ (k + 1) - 1` above the index, with its exponent `k`. Starts from
the block `size` with exponent `exponent`; `none` when a length does not fit in a word. -/
def block? : Nat → (index size exponent : Nat) → Option (Nat × Nat)
  | 0, _, _, _ => none
  | fuel + 1, index, size, exponent =>
    if size < index + 1 then
      if 2 * size + 1 < wordBound then block? fuel index (2 * size + 1) (exponent + 1) else none
    else some (size, exponent)

/-- Descends into the half of the block that repeats the sequence until the index is the last one of
its block; `none` when the exponent would fall below zero or a remainder by zero would be taken. -/
def descend? (index size : Nat) : (exponent : Nat) → Option Nat
  | 0 => if size - 1 = index then some 1 else none
  | exponent + 1 =>
    if size - 1 = index then some (Nat.pow 2 (exponent + 1))
    else
      let half := (size - 1) / 2
      if half = 0 then none else descend? (index % half) half exponent

end Luby

/-- The value at an index, when all intermediate values fit in a word. -/
def luby? (index : Nat) : Option Nat :=
  match Luby.block? 65 index 1 0 with
  | none => none
  | some (size, exponent) => Luby.descend? index size exponent

/-- The value at an index. -/
def luby (index : Nat) : Nat := (luby? index).getD 1

/-! ## Steps and runs -/

/-- Answer of a search. -/
inductive Verdict where
  | sat
  | unsat
  /-- The search was stopped before it had an answer. -/
  | unknown
  deriving DecidableEq

/-- State of a search between two steps. -/
structure Search where
  solver : Solver
  /-- Conflicts of this call. -/
  conflicts : Nat
  sinceRestart : Nat
  restartLimit : Nat

namespace Solver

@[inline] def isAssigned (s : Solver) (v : Nat) : Bool := (s.var v).value.isKnown

@[inline] def better (s : Solver) (best : Option Nat) (v : Nat) : Option Nat :=
  match best with
  | none => if s.isAssigned v then none else some v
  | some b => if s.activityOf v > s.activityOf b && !s.isAssigned v then some v else some b

/-- The unassigned variable of greatest activity, the first of several. -/
def branchVar? (s : Solver) : Option Nat := s.numVars.fold (fun v _ best => s.better best v) none

def branch? (s : Solver) : Option Lit := s.branchVar?.map fun v => .signed v (s.var v).phase

/-- Whether the search has to stop: the interrupt flag is raised, the conflict budget is used up, or
`halt`, which stands for everything outside such as the clock, says so. -/
def mustStop (s : Solver) (halt : Stats → Bool) (conflicts : Nat) : Bool :=
  s.monitor.raised
    || (s.config.maxConflicts != 0 && s.config.maxConflicts ≤ conflicts)
    || halt s.stats

def restartLimit (s : Solver) : Nat := max s.config.restartBase 1 * luby s.stats.restarts

/-- Returns to the level of the lesson and makes its asserting literal true. -/
def learn (s : Solver) (lesson : Lesson) : Solver :=
  let s := s.cancelUntil lesson.backjump
  let s :=
    match lesson.others with
    | [] => s.assign lesson.asserting none
    | l :: rest =>
      let index := s.numClauses
      (s.attach ⟨lesson.asserting, l, rest.toArray⟩).assign lesson.asserting (some index)
  { s with
    stats := { s.stats with learned := s.stats.learned + 1 }
    increment := s.increment / s.config.varDecay }

end Solver

namespace Search

/-- One step, with the answer if it is the last one. -/
def step (halt : Stats → Bool) : Search → Search × Option Verdict
  | ⟨s, conflicts, sinceRestart, restartLimit⟩ =>
    match s.propagate with
    | (s, some conflict) =>
      let s := { s with stats := { s.stats with conflicts := s.stats.conflicts + 1 } }
      if s.level = 0 then
        (⟨{ s with inconsistent := true }, conflicts + 1, sinceRestart + 1, restartLimit⟩,
          some .unsat)
      else
        match s.analyze conflict with
        | (s, lesson) => (⟨s.learn lesson, conflicts + 1, sinceRestart + 1, restartLimit⟩, none)
    | (s, none) =>
      if s.mustStop halt conflicts then
        (⟨s.cancelUntil 0, conflicts, sinceRestart, restartLimit⟩, some .unknown)
      else if restartLimit ≤ sinceRestart then
        let s := { s with stats := { s.stats with restarts := s.stats.restarts + 1 } }
        let limit := s.restartLimit
        (⟨s.cancelUntil 0, conflicts, 0, limit⟩, none)
      else
        match s.branch? with
        | some l => (⟨s.decide l, conflicts, sinceRestart, restartLimit⟩, none)
        | none =>
          let model := ⟨s.vars.map fun x => x.value == .yes⟩
          (⟨{ s with model := some model }, conflicts, sinceRestart, restartLimit⟩, some .sat)

/-- At most so many steps; a search that has not ended by then is given up. -/
def run (halt : Stats → Bool) : Nat → Search → Solver × Verdict
  | 0, ⟨s, _, _, _⟩ => (s, .unknown)
  | count + 1, t =>
    match t.step halt with
    | (⟨s, _, _, _⟩, some verdict) => (s, verdict)
    | (t, none) => run halt count t

/-- A number of steps that is never used up. A learned clause is a set of literals over distinct
variables that no stored clause is equal to, so there are at most `3 ^ n` of them; a restart needs a
conflict, and at most `n` decisions lie between two other steps. -/
def stepBound (n : Nat) : Nat := 2 * (n + 2) * (Nat.pow 3 n + 2)

end Search

namespace Solver

/-- The search of a call, once it has been counted. -/
def search (halt : Stats → Bool) (s : Solver) : Solver × Verdict :=
  if s.inconsistent then (s, .unsat)
  else
    match (s.cancelUntil 0).propagate with
    | (s, some _) => ({ s with inconsistent := true }, .unsat)
    | (s, none) =>
      let bound := Search.stepBound s.numVars
      let limit := s.restartLimit
      Search.run halt bound ⟨s, 0, 0, limit⟩

/-- Searches for an assignment that satisfies every clause added so far. -/
def solve (halt : Stats → Bool) (s : Solver) : Solver × Verdict :=
  search halt { s with model := none, stats := { s.stats with solves := s.stats.solves + 1 } }

end Solver

end ModelExpansion.Sat
