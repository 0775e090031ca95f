import ModelExpansion.Sat.Literal

/-! # Events of a search and their monitor
The monitor records every assignment and every backtrack. It also holds the interrupt flag that a
search polls, and may be told to raise the flag while a certain event is being recorded. -/

namespace ModelExpansion.Sat

/-- An event of the search. -/
inductive Event where
  /-- A literal became true at a decision level, by decision or by implication. -/
  | assign (lit : Lit) (level : Nat)
  /-- The search returned to a level. -/
  | backtrack (level : Nat)
  deriving DecidableEq

/-- The two kinds of events. -/
inductive Event.Kind where
  | assign
  | backtrack
  deriving DecidableEq

def Event.kind : Event → Event.Kind
  | .assign _ _ => .assign
  | .backtrack _ => .backtrack

/-- Raises the interrupt flag at the event of a kind that makes the count reach zero; a count that
is zero from the start never fires. -/
structure Alarm where
  kind : Event.Kind
  count : Nat

structure Monitor where
  /-- Events since the log was last cleared; an event's number is its index. -/
  log : Array Event := #[]
  /-- The interrupt flag. -/
  raised : Bool := false
  alarm : Option Alarm := none

namespace Monitor

instance : Inhabited Monitor := ⟨{}⟩

/-- What the alarm does at an event: whether it fires, and what remains of it. -/
def tick (e : Event) : Option Alarm → Bool × Option Alarm
  | none => (false, none)
  | some a =>
    if a.kind = e.kind then (a.count == 1, some { a with count := a.count - 1 })
      else (false, some a)

def record (m : Monitor) (e : Event) : Monitor :=
  let t := tick e m.alarm
  { m with log := m.log.push e, raised := m.raised || t.1, alarm := t.2 }

def clear (m : Monitor) : Monitor := { m with log := #[] }

def assignments (m : Monitor) : Nat := m.log.countP fun e => e.kind == .assign

end Monitor

end ModelExpansion.Sat
