import ModelExpansion.Proofs.Encoding.Primitives
import ModelExpansion.Proofs.Encoding.Replay
import ModelExpansion.Proofs.Encoding.Start
import ModelExpansion.Proofs.Sat.Budget
import ModelExpansion.Encoding.Decoding

/-! # Encoding under a conflict budget
An encoder hands its solver clauses and asks it for variables, neither of which depends on the
conflict budget. So a theory is encoded in the same way under every budget. -/

namespace ModelExpansion

open ModelExpansion.Sat

namespace Encoder

def withBudget (n : Nat) (e : Encoder) : Encoder := { e with solver := e.solver.withBudget n }

variable (n : Nat) (e : Encoder)

/-! ## Clauses and gates -/

theorem clause_withBudget (lits : List Lit) :
    (e.withBudget n).clause lits = ((e.clause lits).1.withBudget n, (e.clause lits).2) := by
  have hadd : (e.withBudget n).solver.addClause lits = _ := e.solver.addClause_withBudget n lits
  rw [clause, hadd, clause]
  rfl

theorem clauses_withBudget (cs : List (List Lit)) :
    (e.withBudget n).clauses cs = (e.clauses cs).withBudget n :=
  List.foldl_hom (withBudget n) fun e c => congrArg Prod.fst (e.clause_withBudget n c)

theorem newGate_withBudget : (e.withBudget n).newGate = (e.newGate.1.withBudget n, e.newGate.2) :=
  rfl

theorem andGate_withBudget (lits : List Lit) :
    (e.withBudget n).andGate lits = ((e.andGate lits).1.withBudget n, (e.andGate lits).2) := by
  have hgates : (e.withBudget n).gates[lits]? = e.gates[lits]? := rfl
  rw [andGate, andGate, hgates]
  cases e.gates[lits]? with
  | some g => rfl
  | none =>
      rw [newGate_withBudget]
      simp only [clauses_withBudget]
      rfl

theorem and_withBudget (lits : List Lit) :
    (e.withBudget n).and lits = ((e.and lits).1.withBudget n, (e.and lits).2) := by
  by_cases h : lits.contains e.falsity = true
  · rw [Encoding.and_of_falsity h, Encoding.and_of_falsity (e := e.withBudget n) h]
    rfl
  match hsorted : ascending (lits.filter (· != e.truth)) with
  | [] =>
    rw [Encoding.and_of_nil h hsorted, Encoding.and_of_nil (e := e.withBudget n) h hsorted]; rfl
  | [l] =>
    rw [Encoding.and_of_singleton h hsorted,
      Encoding.and_of_singleton (e := e.withBudget n) h hsorted]
  | l :: l' :: sorted =>
      by_cases hc : hasComplement (l :: l' :: sorted) = true
      · rw [Encoding.and_of_complement h hsorted hc,
          Encoding.and_of_complement (e := e.withBudget n) h hsorted hc]
        rfl
      · rw [Encoding.and_of_no_complement h hsorted hc,
          Encoding.and_of_no_complement (e := e.withBudget n) h hsorted hc, andGate_withBudget]

theorem or_withBudget (lits : List Lit) :
    (e.withBudget n).or lits = ((e.or lits).1.withBudget n, (e.or lits).2) := by
  rw [or, and_withBudget, or]

theorem iff_withBudget (a b : Lit) :
    (e.withBudget n).iff a b = ((e.iff a b).1.withBudget n, (e.iff a b).2) := by
  have htruth : (e.withBudget n).truth = e.truth := rfl
  have hfalsity : (e.withBudget n).falsity = e.falsity := rfl
  rw [iff, iff, newGate_withBudget, htruth, hfalsity]
  simp only [clauses_withBudget]
  split_ifs <;> rfl

/-! ## The encoder of a structure -/

theorem constrainFunction_withBudget (f : SymbolId) (args : List Tuple) (values : List Element) :
    (e.withBudget n).constrainFunction f args values =
      (e.constrainFunction f args values).withBudget n :=
  List.foldl_hom (withBudget n) fun e _ => e.clauses_withBudget n _

theorem constrainFunctions_withBudget (fs : List SymbolId) :
    (e.withBudget n).constrainFunctions fs = (e.constrainFunctions fs).map (withBudget n) := by
  induction fs generalizing e with
  | nil => rfl
  | cons f fs ih =>
      have hbase : (e.withBudget n).base = e.base := rfl
      rw [constrainFunctions, constrainFunctions, hbase]
      cases e.base.vocabulary.symbol f with
      | error failure => rfl
      | ok s =>
          rw [Except.ok_bind, Except.ok_bind]
          cases s.result with
          | none => exact ih e
          | some result =>
              dsimp only
              cases e.base.domains s.args with
              | error failure => rfl
              | ok args =>
                  rw [Except.ok_bind, Except.ok_bind]
                  cases e.base.domain result with
                  | error failure => rfl
                  | ok values =>
                      rw [Except.ok_bind, Except.ok_bind, constrainFunction_withBudget]
                      exact ih (e.constrainFunction f (product args) values)

theorem ofAtoms_withBudget (S : Structure) (s : Solver) (atoms : List Atom) :
    ofAtoms S (s.withBudget n) atoms = (ofAtoms S s atoms).withBudget n := by
  have hunasserted : unasserted S (s.withBudget n) atoms = (unasserted S s atoms).withBudget n := by
    rw [unasserted, s.repeat_newVar_withBudget n]
    rfl
  have hclause := (unasserted S s atoms).clause_withBudget n [(unasserted S s atoms).truth]
  change ((unasserted S (s.withBudget n) atoms).clause
    [(unasserted S (s.withBudget n) atoms).truth]).1 = _
  rw [hunasserted]
  exact congrArg Prod.fst hclause

theorem start_withBudget (S : Structure) (s : Solver) :
    start S (s.withBudget n) = (start S s).map (withBudget n) := by
  rw [start, start]
  cases atomsOf S with
  | error failure => rfl
  | ok atoms =>
      rw [Except.ok_bind, Except.ok_bind, ofAtoms_withBudget, constrainFunctions_withBudget]

/-! ## Models -/

theorem block_withBudget (m : Model) :
    (e.withBudget n).block m = ((e.block m).1.withBudget n, (e.block m).2) :=
  e.clause_withBudget n (e.blockingClause m)

/-- A search that is not given up is the same without a budget. -/
theorem solve_withBudget_zero {halt : Stats → Bool} {e : Encoder}
    (h : (e.solve halt).2 ≠ .unknown) :
    (e.withBudget 0).solve halt = ((e.solve halt).1.withBudget 0, (e.solve halt).2) := by
  have hsolve : (e.withBudget 0).solver.solve halt = _ := e.solver.solve_withBudget_zero h
  rw [solve, hsolve, solve]
  rfl

end Encoder

namespace Encoding

open Encoder

/-! ## Computations -/

/-- A computation that goes the same way under every conflict budget. -/
def Blind {α : Type} (x : Encoding α) : Prop :=
  ∀ n e, x (e.withBudget n) = ((x e).1, (x e).2.withBudget n)

variable {α β : Type} {x : Encoding α} {f : α → Encoding β}

theorem Blind.read {g : Encoder → α} (hg : ∀ n e, g (e.withBudget n) = g e) :
    Blind (Encoding.read g) :=
  fun n e => congrArg (fun a => (Except.ok a, e.withBudget n)) (hg n e)

theorem Blind.step {g : Encoder → Encoder × α}
    (hg : ∀ n e, g (e.withBudget n) = ((g e).1.withBudget n, (g e).2)) :
    Blind (Encoding.step g) := by
  intro n e
  rw [Encoding.step, hg, Encoding.step]

theorem Blind.bind (hx : Blind x) (hf : ∀ a, Blind (f a)) : Blind (x >>= f) := by
  intro n e
  rw [bind_eq, bind_eq, hx n e]
  cases x e with
  | mk r e' =>
      cases r with
      | error failure => rfl
      | ok a => exact hf a n e'

theorem Composed.blind (hx : Composed x) : Blind x := by
  induction hx with
  | bind _ _ hx hf => exact hx.bind hf
  | lift _ => exact fun _ _ => rfl
  | and lits => exact .step fun n e => e.and_withBudget n lits
  | or lits => exact .step fun n e => e.or_withBudget n lits
  | iff a b => exact .step fun n e => e.iff_withBudget n a b
  | clause lits => exact .step fun n e => congrArg (fun r => (r.1, ())) (e.clause_withBudget n lits)
  | truth => exact .read fun _ _ => rfl
  | falsity => exact .read fun _ _ => rfl
  | atomLit? p t => exact .read fun _ _ => rfl
  | resultValues f => exact fun _ _ => rfl
  | tuples p => exact fun _ _ => rfl
  | keepDefinition D => exact .step fun _ _ => rfl
  | keepFixpoint F => exact .step fun _ _ => rfl

end Encoding

theorem blind_addTheory (T : Theory) : Encoding.Blind (addTheory T) := (composed_addTheory T).blind

end ModelExpansion
