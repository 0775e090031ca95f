import ModelExpansion.Sat.Solver

/-! # Conflict analysis
Walks back over the trail and resolves the conflicting clause with the reasons of its literals until
one literal of the current level is left, the first unique implication point. -/

namespace ModelExpansion.Sat

/-- What a conflict teaches: the first literal becomes true after the search has returned to the
level. -/
structure Lesson where
  asserting : Lit
  /-- Literals of lower levels, one of the highest level first. -/
  others : List Lit
  /-- Highest level among the others. -/
  backjump : Nat
  deriving DecidableEq

/-- How the walk over the trail ended. -/
inductive Analysis.End where
  /-- One literal of the current level is left. -/
  | implicationPoint
  /-- Other marked literals are pending and the literal has no reason. -/
  | noReason
  /-- A marked literal was found while none was pending. -/
  | nonePending
  /-- The beginning of the trail was reached. -/
  | trailStart
  deriving DecidableEq

/-- State of the walk. -/
structure Analysis where
  solver : Solver
  /-- Marked literals below the current level, in the order in which they were found. -/
  lower : Array Lit
  /-- Number of marked literals of the current level not yet reached. -/
  pending : Nat

namespace Solver

def rescale (s : Solver) : Solver :=
  { s with
    activity := ⟨s.activity.data.map (· * 1e-100)⟩
    increment := s.increment * 1e-100 }

/-- Raises the activity of a variable; all activities are scaled down when it grows too large. -/
def bump (s : Solver) (v : Nat) : Solver :=
  if h : v < s.activity.size then
    let raised := s.activity.get v h + s.increment
    let s := { s with activity := s.activity.set v raised h }
    if raised > 1e100 then s.rescale else s
  else s

def setSeen (s : Solver) (v : Nat) (seen : Bool) : Solver :=
  { s with vars := s.vars.modify v fun x => { x with seen := seen } }

end Solver

namespace Analysis

/-- Marks a false literal unless it is marked already or false at level zero. -/
def mark : Analysis → Lit → Analysis
  | ⟨s, lower, pending⟩, l =>
    let x := s.var l.var
    if x.seen || x.level == 0 then ⟨s, lower, pending⟩
    else
      let current := s.level
      let s := (s.bump l.var).setSeen l.var true
      if current ≤ x.level then ⟨s, lower, pending + 1⟩ else ⟨s, lower.push l, pending⟩

def markAll (a : Analysis) (lits : List Lit) : Analysis := lits.foldl mark a

/-- Walks down from a position of the trail, which is not itself looked at. Returns the literal at
which the walk ended. -/
def walk : Nat → Analysis → Analysis × Lit × End
  | 0, a => (a, default, .trailStart)
  | index + 1, ⟨s, lower, pending⟩ =>
    let p := s.trail.getD index default
    let x := s.var p.var
    if x.seen then
      let s := s.setSeen p.var false
      match pending with
      | 0 => (⟨s, lower, 0⟩, p, .nonePending)
      | 1 => (⟨s, lower, 0⟩, p, .implicationPoint)
      | pending + 2 =>
        match x.reason with
        | none => (⟨s, lower, pending + 1⟩, p, .noReason)
        | some r =>
          let lits := (s.clause r).tail
          walk index (markAll ⟨s, lower, pending + 1⟩ lits)
    else walk index ⟨s, lower, pending⟩

/-- Index below `n` with the greatest key, the first of several. -/
def argmax (key : Nat → Nat) (n : Nat) : Nat :=
  (List.range n).foldl (fun best i => if key best < key i then i else best) 0

/-- The lesson of a finished walk: a literal of the highest level moves to the front of the
others. -/
def lesson (s : Solver) (p : Lit) (lower : Array Lit) : Lesson :=
  let best := argmax (fun i => s.levelOf (lower.getD i default)) lower.size
  match (lower.swapIfInBounds 0 best).toList with
  | [] => ⟨p.negate, [], 0⟩
  | l :: rest => ⟨p.negate, l :: rest, s.levelOf l⟩

end Analysis

namespace Solver

def trace (s : Solver) (conflict : Nat) : Analysis × Lit × Analysis.End :=
  let lits := (s.clause conflict).lits
  let length := s.trail.size
  Analysis.walk length (Analysis.markAll ⟨s, #[], 0⟩ lits)

/-- Learns from a conflict; all marks are removed. -/
def analyze (s : Solver) (conflict : Nat) : Solver × Lesson :=
  match s.trace conflict with
  | (⟨s, lower, _⟩, p, _) =>
    let s := lower.foldl (fun s l => s.setSeen l.var false) s
    (s, Analysis.lesson s p lower)

end Solver

end ModelExpansion.Sat
