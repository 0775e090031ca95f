import ModelExpansion.Calculation
import ModelExpansion.Encoding.Decoding
import ModelExpansion.Encoding.Theory
import ModelExpansion.Interchange

/-! # Model expansion
Definitions are calculated, symmetries broken, the theory is grounded and encoded, and models are
enumerated, decoded and checked. -/

namespace ModelExpansion

open ModelExpansion.Sat

/-! ## Options -/

structure Options where
  /-- Whether definitions that can be calculated are calculated before grounding. -/
  calculateDefinitions : Bool := true
  /-- Whether constraints are added that leave out interchangeable models. -/
  breakSymmetry : Bool := false
  /-- Length of the constraints that break symmetry; zero is no limit. -/
  chainLength : Nat := 20
  /-- Number of models wanted; zero is all of them. -/
  models : Nat := 1
  verbosity : Nat := 0
  /-- Time for the whole expansion in milliseconds; zero is no limit. -/
  timeoutMs : Nat := 0
  /-- Conflicts per search; zero is no limit. -/
  maxConflicts : Nat := 0
  /-- Base interval of the restarts. -/
  restartBase : Nat := 100
  deriving DecidableEq

namespace Options

/-- Definitions are calculated and one model is wanted. -/
def balanced : Options := {}

/-- Plain search for one model. -/
def fast : Options := { calculateDefinitions := false }

/-- Calculates definitions and breaks symmetries. -/
def thorough : Options := { breakSymmetry := true }

/-- Everything is off. -/
def minimal : Options := { fast with chainLength := 0 }

def validate (o : Options) : Except Failure Unit :=
  if o.restartBase = 0 then .error (.invalidConfig "restart_base must be positive") else .ok ()

def wantsAll (o : Options) : Bool := o.models == 0

end Options

/-! ## Outcomes -/

/-- How an expansion ended. -/
inductive Status where
  /-- Models were found and the search ended normally. -/
  | satisfiable
  /-- There is no model. -/
  | unsatisfiable
  /-- A definition has no consistent value; nothing was searched. -/
  | inconsistentDefinition
  /-- The search was stopped; the models found before are kept. -/
  | interrupted
  deriving DecidableEq

structure ExpansionStats where
  /-- Definitions calculated before grounding. -/
  calculated : Nat := 0
  /-- Sets of interchangeable elements. -/
  interchanges : Nat := 0
  /-- Formulas that break symmetry. -/
  breaking : Nat := 0
  /-- Ground sentences, facts included. -/
  sentences : Nat := 0
  /-- Ground rules. -/
  rules : Nat := 0
  atoms : Nat := 0
  gates : Nat := 0
  clauses : Nat := 0
  /-- Models of the clauses that were decoded. -/
  candidates : Nat := 0
  /-- Candidates that a definition rejected. -/
  rejected : Nat := 0
  solver : Stats := {}

structure Expansion where
  /-- In the order in which they were found. -/
  models : List Structure
  status : Status
  stats : ExpansionStats

/-- What an enumeration of models found. -/
structure Found where
  models : List Structure
  candidates : Nat
  rejected : Nat
  /-- Whether the search was stopped. -/
  stopped : Bool

namespace Found

def nothing : Found := ⟨[], 0, 0, false⟩

def accept (M : Structure) (f : Found) : Found :=
  { f with models := M :: f.models, candidates := f.candidates + 1 }

def reject (f : Found) : Found :=
  { f with candidates := f.candidates + 1, rejected := f.rejected + 1 }

def add (M : Structure) (accepted : Bool) (f : Found) : Found :=
  if accepted then f.accept M else f.reject

end Found

namespace Encoder

def candidate (e : Encoder) (m : Model) : Except Failure (Structure × Bool) := do
  let M ← e.decode m
  if e.needsCheck then return (M, ← e.accepts M) else return (M, true)

/-- Enumerates models until as many as wanted have been found; zero wants all. `found` is the number
found before. At most so many searches are made. -/
def enumerateModels (halt : Stats → Bool) (wanted : Nat) :
    Nat → (found : Nat) → Encoder → Encoder × Except Failure Found
  | 0, _, e => (e, .ok { Found.nothing with stopped := true })
  | count + 1, found, e =>
    if wanted ≠ 0 ∧ wanted ≤ found then (e, .ok .nothing)
    else
      match e.solve halt with
      | (e, .unsat) => (e, .ok .nothing)
      | (e, .unknown) => (e, .ok { Found.nothing with stopped := true })
      | (e, .sat) =>
        match e.solver.model with
        | none => (e, .error (.solver "satisfiable without a model"))
        | some m =>
          match e.candidate m with
          | .error failure => (e, .error failure)
          | .ok (M, accepted) =>
            match e.block m with
            | (e, false) => (e, .ok (Found.nothing.add M accepted))
            | (e, true) =>
              let found := if accepted then found + 1 else found
              match enumerateModels halt wanted count found e with
              | (e, .ok rest) => (e, .ok (rest.add M accepted))
              | (e, .error failure) => (e, .error failure)

/-- Models differ on the atoms, so no more searches than this can be needed. -/
def searchBound (e : Encoder) : Nat := Nat.pow 2 e.atoms.size + 1

end Encoder

def Theory.residual (T : Theory) (c : Calculated) : Theory where
  definitions := (T.definitions.zipIdx.filter fun D => !c.definitions.contains D.2).map Prod.fst
  fixpoints := (T.fixpoints.zipIdx.filter fun F => !c.fixpoints.contains F.2).map Prod.fst
  sentences := T.sentences

/-- A theory and a structure made ready for encoding. -/
structure Prepared where
  base : Structure
  /-- Ground, with facts and breaking formulas among the sentences. -/
  theory : Theory
  stats : ExpansionStats

def breakSymmetry (o : Options) (S : Structure) (T : Theory) :
    Except Failure (List Interchange × List Formula) := do
  if o.breakSymmetry then
    let sets := interchanges S T
    return (sets, (← sets.mapM fun I => I.breakingFormulas S o.chainLength).flatten)
  else return ([], [])

def refine (o : Options) (T : Theory) (S : Structure) :
    Except Failure (Option (Structure × Calculated)) :=
  if o.calculateDefinitions then
    match calculate T S with
    | (_, .error e) => .error e
    | (_, .ok (.inconsistent _)) => .ok none
    | (S, .ok (.consistent c)) => .ok (some (S, c))
  else .ok (some (S, .none))

/-- Everything before encoding; nothing when a definition is inconsistent with the structure. -/
def prepare (o : Options) (T : Theory) (S : Structure) : Except Failure (Option Prepared) := do
  o.validate
  match ← refine o T S with
  | none => return none
  | some (S, calculated) =>
    let residual := T.residual calculated
    let (sets, breaking) ← breakSymmetry o S residual
    let ground ← groundTheory S residual
    let ground := { ground with sentences := ground.sentences ++ breaking }
    return some {
      base := S
      theory := ground
      stats := {
        calculated := calculated.size
        interchanges := sets.length
        breaking := breaking.length
        sentences := ground.sentences.length
        rules := ground.rules.length } }

/-- Options of the solver for an expansion. -/
def Options.solverConfig (o : Options) : Config :=
  Config.withRestartBase { maxConflicts := o.maxConflicts, verbosity := o.verbosity } o.restartBase

/-- The result of an enumeration over a prepared problem. -/
def Found.expansion (f : Found) (stats : ExpansionStats) (e : Encoder) : Expansion where
  models := f.models
  status :=
    if f.stopped then .interrupted else if f.models.isEmpty then .unsatisfiable else .satisfiable
  stats := { stats with
    atoms := e.stats.atoms
    gates := e.stats.gates
    clauses := e.stats.clauses
    candidates := f.candidates
    rejected := f.rejected
    solver := e.solver.stats }

/-- Encodes a prepared problem and enumerates its models. -/
def search (halt : Stats → Bool) (o : Options) (P : Prepared) (monitor : Monitor) :
    Monitor × Except Failure Expansion :=
  match Encoder.start P.base { config := o.solverConfig, monitor := monitor } with
  | .error failure => (monitor, .error failure)
  | .ok e =>
    match (addTheory P.theory).run e with
    | (.error failure, e) => (e.solver.monitor, .error failure)
    | (.ok (), e) =>
      match e.enumerateModels halt o.models e.searchBound 0 with
      | (e, .error failure) => (e.solver.monitor, .error failure)
      | (e, .ok found) => (e.solver.monitor, .ok (found.expansion P.stats e))

/-- Expands a structure to models of a theory. The monitor records the events of the search and
holds the interrupt flag; `halt` stands for the clock. -/
def expand (halt : Stats → Bool) (o : Options) (T : Theory) (S : Structure) (monitor : Monitor) :
    Monitor × Except Failure Expansion :=
  match prepare o T S with
  | .error failure => (monitor, .error failure)
  | .ok none => (monitor, .ok ⟨[], .inconsistentDefinition, {}⟩)
  | .ok (some P) =>
    if monitor.raised || halt {} then (monitor, .ok ⟨[], .interrupted, P.stats⟩)
    else search halt o P monitor

end ModelExpansion
