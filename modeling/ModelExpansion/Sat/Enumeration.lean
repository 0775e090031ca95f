import ModelExpansion.Sat.Search

/-! # Adding clauses and enumerating models
Clauses may be added between two searches; they are simplified by what holds at level zero. An
enumeration adds a clause after each model that excludes its values on the variables of interest. -/

namespace ModelExpansion.Sat

namespace Solver

/-- Adds a clause and says whether the clause set may still be satisfiable. The search returns to
level zero first. A clause that is true there, or always, is dropped; false literals are left out; a
unit clause is assigned and propagated at once. -/
def addClause (s : Solver) (lits : List Lit) : Solver × Bool :=
  if s.inconsistent then (s, false)
  else
    let sorted := ascending lits
    let s := sorted.foldl (fun s l => s.ensureVar l.var) (s.cancelUntil 0)
    if hasComplement sorted || sorted.any (fun l => s.value l == .yes) then (s, true)
    else
      match sorted.filter fun l => s.value l != .no with
      | [] => ({ s with inconsistent := true }, false)
      | [l] =>
        match (s.assign l none).propagate with
        | (s, none) => (s, true)
        | (s, some _) => ({ s with inconsistent := true }, false)
      | a :: b :: rest => (s.attach ⟨a, b, rest.toArray⟩, true)

/-- Adds clauses in order, with the answer to each. -/
def addClauses (s : Solver) : List (List Lit) → Solver × List Bool
  | [] => (s, [])
  | lits :: rest =>
    match s.addClause lits with
    | (s, ok) =>
      match addClauses s rest with
      | (s, oks) => (s, ok :: oks)

end Solver

/-- The clause that excludes the values of a model on the first `n` variables. -/
def Model.blockingClause (m : Model) (n : Nat) : List Lit :=
  (List.range n).map fun v => .signed v !m.value v

/-- How a call of an enumeration ended. -/
inductive Enumeration.End where
  /-- The answer of a call after which nothing was excluded, or after which another model may
  remain. -/
  | verdict (v : Verdict)
  /-- Excluding the model left no other. -/
  | blocked
  deriving DecidableEq

structure Enumeration where
  solver : Solver
  models : List Model
  /-- How the last call ended, if there was one. -/
  ending : Option Enumeration.End

namespace Solver

/-- Solves at most `count` times, excluding the values of each model on the first `n` variables.
`last` is the end of the call before, if there was one. -/
def enumerateFrom (halt : Stats → Bool) (n : Nat) (last : Option Enumeration.End) :
    Nat → Solver → Enumeration
  | 0, s => ⟨s, [], last⟩
  | count + 1, s =>
    match s.solve halt with
    | (s, .sat) =>
      let m := s.model.getD ⟨#[]⟩
      match s.addClause (m.blockingClause n) with
      | (s, false) => ⟨s, [m], some .blocked⟩
      | (s, true) =>
        match enumerateFrom halt n (some (.verdict .sat)) count s with
        | ⟨s, models, ending⟩ => ⟨s, m :: models, ending⟩
    | (s, verdict) => ⟨s, [], some (.verdict verdict)⟩

/-- The models of at most `count` calls. A limit of 0 makes no call and has no ending. -/
def enumerate (halt : Stats → Bool) (n count : Nat) (s : Solver) : Enumeration :=
  enumerateFrom halt n none count s

end Solver

end ModelExpansion.Sat
