import ModelExpansion.Sat.Clause
import ModelExpansion.Sat.Monitor

/-! # State of the satisfiability search
Variables with their current values, the clause database with its watch lists, the trail of
assignments in the order in which they were made, and the counters that answers show. -/

namespace ModelExpansion.Sat

structure Config where
  /-- Time per call in milliseconds; zero is no limit. -/
  timeoutMs : Nat := 0
  /-- Conflicts per call after which the search gives up; zero is no limit. -/
  maxConflicts : Nat := 0
  /-- Restarts are this many conflicts times a Luby number apart. -/
  restartBase : Nat := 100
  /-- The activity increment is divided by this after each conflict. -/
  varDecay : Float := 0.95
  verbosity : Nat := 0

def Config.withRestartBase (c : Config) (n : Nat) : Config := { c with restartBase := max n 1 }

/-- Counters over all calls. -/
structure Stats where
  solves : Nat := 0
  decisions : Nat := 0
  propagations : Nat := 0
  conflicts : Nat := 0
  learned : Nat := 0
  restarts : Nat := 0
  deriving DecidableEq

/-- What the search knows about a variable. -/
structure Variable where
  /-- Current value; an unassigned variable is unknown. -/
  value : Truth := .unknown
  /-- Decision level of the current or last assignment. -/
  level : Nat := 0
  /-- The clause that implied the value. -/
  reason : Option Nat := none
  /-- Last value undone, tried first by the next decision. -/
  phase : Bool := false
  /-- Mark of conflict analysis. -/
  seen : Bool := false

instance : Inhabited Variable := ⟨{}⟩

/-- Values of all variables; a variable outside has the value false. -/
structure Model where
  values : Array Bool
  deriving DecidableEq

namespace Model

def value (m : Model) (v : Nat) : Bool := m.values.getD v false

def litValue (m : Model) (l : Lit) : Bool := m.value l.var == l.positive

end Model

structure Solver where
  config : Config := {}
  vars : Array Variable := #[]
  clauses : Array Clause := #[]
  /-- Per literal number, the clauses to visit when that literal becomes true. -/
  watches : Array (Array Nat) := #[]
  /-- True literals in the order of assignment. -/
  trail : Array Lit := #[]
  /-- Length of the trail at the moment each decision level was opened. -/
  levelStarts : Array Nat := #[]
  /-- Position in the trail of the first literal not yet propagated. -/
  queueHead : Nat := 0
  /-- Per variable, how much it had to do with the conflicts so far. -/
  activity : FloatArray := .empty
  /-- Amount by which an activity is bumped. -/
  increment : Float := 1
  /-- A conflict was derived at level zero. -/
  inconsistent : Bool := false
  /-- Model of the last satisfiable call. -/
  model : Option Model := none
  monitor : Monitor := {}
  stats : Stats := {}

namespace Solver

instance : Inhabited Solver := ⟨{}⟩

def numVars (s : Solver) : Nat := s.vars.size

/-- Number of stored clauses, learned ones included; unit clauses are not stored. -/
def numClauses (s : Solver) : Nat := s.clauses.size

@[inline] def var (s : Solver) (v : Nat) : Variable := s.vars.getD v default

@[inline] def activityOf (s : Solver) (v : Nat) : Float :=
  if h : v < s.activity.size then s.activity.get v h else 0

@[inline] def clause (s : Solver) (index : Nat) : Clause := s.clauses.getD index default

@[inline] def value (s : Solver) (l : Lit) : Truth := l.under (s.var l.var).value

def levelOf (s : Solver) (l : Lit) : Nat := (s.var l.var).level

def level (s : Solver) : Nat := s.levelStarts.size

def newVar (s : Solver) : Solver :=
  { s with
    vars := s.vars.push {}
    watches := (s.watches.push #[]).push #[]
    activity := s.activity.push 0 }

/-- Adds variables until `v` is one of them. -/
def ensureVar (s : Solver) (v : Nat) : Solver := Nat.repeat newVar (v + 1 - s.numVars) s

@[inline] def modifyClause (s : Solver) (index : Nat) (f : Clause → Clause) : Solver :=
  { s with clauses := s.clauses.modify index f }

def watch (s : Solver) (l : Lit) (index : Nat) : Solver :=
  { s with watches := s.watches.modify l.negate.code (·.push index) }

/-- Stores a clause and watches its first two literals. -/
def attach (s : Solver) (c : Clause) : Solver :=
  let index := s.numClauses
  let s := (s.watch c.first index).watch c.second index
  { s with clauses := s.clauses.push c }

def assign (s : Solver) (l : Lit) (reason : Option Nat) : Solver :=
  let level := s.level
  { s with
    vars := s.vars.modify l.var fun x =>
      { x with value := .ofBool l.positive, level := level, reason := reason }
    trail := s.trail.push l
    monitor := s.monitor.record (.assign l level) }

def unassign (vars : Array Variable) (l : Lit) : Array Variable :=
  vars.modify l.var fun x => { x with value := .unknown, reason := none, phase := l.positive }

/-- Undoes every assignment above a level. -/
def cancelUntil (s : Solver) (level : Nat) : Solver :=
  if s.level ≤ level then s
  else
    let start := s.levelStarts.getD level 0
    let undone := s.trail.drop start
    let trail := s.trail.shrink start
    { s with
      vars := undone.foldl unassign s.vars
      trail := trail
      levelStarts := s.levelStarts.shrink level
      queueHead := trail.size
      monitor := s.monitor.record (.backtrack level) }

def decide (s : Solver) (l : Lit) : Solver :=
  let start := s.trail.size
  assign { s with
    levelStarts := s.levelStarts.push start
    stats := { s.stats with decisions := s.stats.decisions + 1 } } l none

end Solver

end ModelExpansion.Sat
