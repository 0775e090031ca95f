import ModelExpansion.Proofs.Sat.Admission

/-! # Sequences of calls
Variables, clauses and searches may follow each other in any order. The answers are right for the
clauses added so far, and a search that nothing stops has one. -/

namespace ModelExpansion.Sat

/-- A call of the solver, or what happens to it between two calls. -/
inductive Call where
  | newVar
  | addClause (lits : List Lit)
  /-- A search, with the circumstances under which it has to stop. -/
  | solve (halt : Stats → Bool)
  /-- The interrupt flag, the alarm and the log may be changed from outside. -/
  | monitor (m : Monitor)

namespace Call

def perform (s : Solver) : Call → Solver
  | newVar => s.newVar
  | addClause lits => (s.addClause lits).1
  | solve halt => (s.solve halt).1
  | monitor m => { s with monitor := m }

def performAll (s : Solver) (calls : List Call) : Solver := calls.foldl perform s

def clauses : Call → List (List Lit)
  | addClause lits => [lits]
  | newVar | solve _ | monitor _ => []

end Call

namespace Solver

variable {s : Solver}

theorem Represents.setMonitor {added : List (List Lit)} (h : Represents s added) (m : Monitor) :
    Represents { s with monitor := m } added where
  wellFormed hinc :=
    (h.wellFormed hinc).bookkeeping s.stats s.activity s.increment s.inconsistent s.model m
  settled hinc := h.settled hinc
  models hinc α := by
    rw [← h.models hinc α]
    exact ⟨fun hα => ⟨hα.root, hα.clause⟩, fun hα => ⟨hα.root, hα.clause⟩⟩
  unsatisfiable := h.unsatisfiable

theorem Represents.perform {added : List (List Lit)} (h : Represents s added) (call : Call) :
    Represents (call.perform s) (added ++ call.clauses) := by
  have hnone : added ++ [] = added := List.append_nil added
  cases call with
  | newVar => exact hnone.symm ▸ h.newVar
  | addClause lits => exact h.addClause lits
  | solve halt => exact hnone.symm ▸ (h.solve halt).represents
  | monitor m => exact hnone.symm ▸ h.setMonitor m

theorem Represents.performAll {added : List (List Lit)} (h : Represents s added)
    (calls : List Call) :
    Represents (Call.performAll s calls) (added ++ calls.flatMap Call.clauses) := by
  induction calls generalizing s added with
  | nil =>
      rw [List.flatMap_nil, List.append_nil]
      exact h
  | cons call calls ih =>
      rw [List.flatMap_cons, ← List.append_assoc]
      exact ih (h.perform call)

/-- The solver after some calls on a fresh one. -/
def reached (config : Config) (monitor : Monitor) (calls : List Call) : Solver :=
  Call.performAll (fresh config monitor) calls

theorem represents_reached (config : Config) (monitor : Monitor) (calls : List Call) :
    Represents (reached config monitor calls) (calls.flatMap Call.clauses) :=
  (represents_fresh config monitor).performAll calls

/-- Clauses that some calls on a fresh solver have passed to it. -/
def Passed (s : Solver) (given : List (List Lit)) : Prop :=
  ∃ config monitor calls, s = reached config monitor calls ∧ calls.flatMap Call.clauses = given

theorem Passed.represents {given : List (List Lit)} (h : s.Passed given) : Represents s given := by
  obtain ⟨config, monitor, calls, rfl, rfl⟩ := h
  exact represents_reached config monitor calls

theorem Passed.perform {given : List (List Lit)} (h : s.Passed given) (call : Call) :
    (call.perform s).Passed (given ++ call.clauses) := by
  obtain ⟨config, monitor, calls, rfl, rfl⟩ := h
  refine ⟨config, monitor, calls ++ [call], ?_, ?_⟩
  · rw [reached, reached, Call.performAll, Call.performAll, List.foldl_append]
    rfl
  · rw [List.flatMap_append, List.flatMap_singleton]

theorem Passed.newVar {given : List (List Lit)} (h : s.Passed given) : s.newVar.Passed given := by
  have hnew := h.perform .newVar
  rwa [Call.clauses, List.append_nil] at hnew

/-! ## Configurations and inconsistency stay -/

theorem config_perform {added : List (List Lit)} (h : Represents s added) (call : Call) :
    (call.perform s).config = s.config := by
  cases call with
  | newVar => rfl
  | addClause lits => exact h.valid.config_addClause lits
  | solve halt => exact (h.solve halt).config
  | monitor m => rfl

theorem config_reached (config : Config) (monitor : Monitor) (calls : List Call) :
    (reached config monitor calls).config = config := by
  have hall : ∀ {s : Solver} {added}, Represents s added →
      (Call.performAll s calls).config = s.config := by
    induction calls with
    | nil => exact fun _ => rfl
    | cons call calls ih => exact fun h => (ih (h.perform call)).trans (config_perform h call)
  exact hall (represents_fresh config monitor)

theorem solve_of_inconsistent (h : s.inconsistent = true) (halt : Stats → Bool) :
    s.solve halt = (s.begun, .unsat) := by
  change search halt s.begun = _
  rw [search, if_pos (show s.begun.inconsistent = true from h)]

theorem inconsistent_perform (h : s.inconsistent = true) (call : Call) :
    (call.perform s).inconsistent = true := by
  cases call with
  | newVar => exact h
  | addClause lits =>
      change (s.addClause lits).1.inconsistent = true
      rw [addClause_of_inconsistent h]
      exact h
  | solve halt =>
      change (s.solve halt).1.inconsistent = true
      rw [solve_of_inconsistent h]
      exact h
  | monitor m => exact h

theorem inconsistent_performAll (h : s.inconsistent = true) (calls : List Call) :
    (Call.performAll s calls).inconsistent = true := by
  induction calls generalizing s with
  | nil => exact h
  | cons call calls ih => exact ih (inconsistent_perform h call)

/-! ## The answers are right -/

/-- A model that a call finds has a value for every variable and satisfies every clause that was
added, however the clause was simplified. -/
theorem solve_sat (config : Config) (monitor : Monitor) (calls : List Call) (halt : Stats → Bool)
    (h : ((reached config monitor calls).solve halt).2 = .sat) :
    ∃ m, ((reached config monitor calls).solve halt).1.model = some m ∧
      m.values.size = (reached config monitor calls).numVars ∧
      ∀ c ∈ calls.flatMap Call.clauses, ∃ l ∈ c, m.litValue l = true := by
  have hsolved := (represents_reached config monitor calls).solve halt
  obtain ⟨m, hm, hsize, hmodel⟩ := hsolved.sat h
  refine ⟨m, hm, hsize.trans hsolved.numVars, fun c hc => ?_⟩
  obtain ⟨l, hl, hholds⟩ := hmodel c hc
  exact ⟨l, hl, beq_iff_eq.mpr hholds⟩

/-- A unit clause, a clause shortened to a unit and one that is dropped because it is true
already. -/
theorem solve_sat_simplified :
    ((reached {} {} [.newVar, .newVar, .addClause [.neg 0], .addClause [.pos 0, .pos 1],
      .addClause [.neg 0, .neg 1]]).solve fun _ => false).2 = .sat ∧
    ∃ m, ((reached {} {} [.newVar, .newVar, .addClause [.neg 0], .addClause [.pos 0, .pos 1],
        .addClause [.neg 0, .neg 1]]).solve fun _ => false).1.model = some m ∧
      m.values.size = 2 ∧ ∀ c ∈ [[Lit.neg 0], [.pos 0, .pos 1], [.neg 0, .neg 1]],
        ∃ l ∈ c, m.litValue l = true := by
  have hsat : ((reached {} {} [.newVar, .newVar, .addClause [.neg 0], .addClause [.pos 0, .pos 1],
      .addClause [.neg 0, .neg 1]]).solve fun _ => false).2 = .sat := by decide
  exact ⟨hsat, solve_sat {} {} _ _ hsat⟩

/-- A refutation is right, and inconsistency is for ever. -/
theorem unsatisfiable_of_refuted (config : Config) (monitor : Monitor) (calls : List Call) :
    (∀ halt, ((reached config monitor calls).solve halt).2 = .unsat →
      ∀ α, ¬ ∀ c ∈ calls.flatMap Call.clauses, Satisfies α c) ∧
    (∀ lits, ((reached config monitor calls).addClause lits).2 = false →
      ∀ α, ¬ ∀ c ∈ calls.flatMap Call.clauses ++ [lits], Satisfies α c) ∧
    ((reached config monitor calls).inconsistent = true → ∀ later,
      (reached config monitor (calls ++ later)).inconsistent = true ∧
      (∀ halt, ((reached config monitor (calls ++ later)).solve halt).2 = .unsat) ∧
      ∀ lits, ((reached config monitor (calls ++ later)).addClause lits).2 = false) := by
  have hrep := represents_reached config monitor calls
  refine ⟨fun halt h => ?_, fun lits h => ?_, fun h later => ?_⟩
  · have hsolved := hrep.solve halt
    exact hsolved.represents.unsatisfiable (hsolved.unsat h)
  · refine (hrep.addClause lits).unsatisfiable ?_
    rw [hrep.answer_addClause lits] at h
    exact Bool.not_inj (y := true) h
  · have hlater : (reached config monitor (calls ++ later)).inconsistent = true := by
      rw [reached, Call.performAll, List.foldl_append]
      exact inconsistent_performAll h later
    refine ⟨hlater, fun halt => ?_, fun lits => ?_⟩
    · rw [solve_of_inconsistent hlater]
    · rw [addClause_of_inconsistent hlater]

/-- All four clauses over two variables. -/
def contradicting : List Call :=
  [.addClause [.pos 0, .pos 1], .addClause [.pos 0, .neg 1], .addClause [.neg 0, .pos 1],
    .addClause [.neg 0, .neg 1]]

/-- The four clauses are refuted by a search that learns one more, and they stay so. Of two
complementary unit clauses already the second one is refused. -/
theorem refuted_contradicting :
    (reached {} {} contradicting).inconsistent = false ∧
    ((reached {} {} contradicting).solve fun _ => false).2 = .unsat ∧
    ((reached {} {} contradicting).solve fun _ => false).1.stats.learned = 1 ∧
    (∀ α, ¬ ∀ c ∈ [[Lit.pos 0, .pos 1], [.pos 0, .neg 1], [.neg 0, .pos 1], [.neg 0, .neg 1]],
      Satisfies α c) ∧
    (reached {} {} (contradicting ++ [.solve fun _ => false])).inconsistent = true ∧
    ((reached {} {} (contradicting ++ [.solve fun _ => false] ++ [.newVar])).solve
      fun _ => false).2 = .unsat ∧
    ((reached {} {} (contradicting ++ [.solve fun _ => false] ++ [.newVar])).addClause
      [.pos 2]).2 = false ∧
    ((reached {} {} [.addClause [.pos 0]]).addClause [.neg 0]).2 = false ∧
    ∀ α, ¬ ∀ c ∈ [[Lit.pos 0], [.neg 0]], Satisfies α c := by
  have hunsat : ((reached {} {} contradicting).solve fun _ => false).2 = .unsat := by
    decide +kernel
  have hinc : (reached {} {} (contradicting ++ [.solve fun _ => false])).inconsistent = true := by
    decide +kernel
  have hrefused : ((reached {} {} [.addClause [.pos 0]]).addClause [.neg 0]).2 = false := by decide
  obtain ⟨hsearch, -, -⟩ := unsatisfiable_of_refuted {} {} contradicting
  obtain ⟨-, hclause, -⟩ := unsatisfiable_of_refuted {} {} [.addClause [.pos 0]]
  obtain ⟨-, -, hstays⟩ := unsatisfiable_of_refuted {} {} (contradicting ++ [.solve fun _ => false])
  obtain ⟨-, hlater, hanswer⟩ := hstays hinc [.newVar]
  exact ⟨by decide, hunsat, by decide +kernel, hsearch _ hunsat, hinc, hlater _, hanswer _,
    hrefused, hclause _ hrefused⟩

/-- A call that nothing stops comes to an answer after finitely many iterations. -/
theorem solve_decides (config : Config) (monitor : Monitor) (calls : List Call)
    (hbudget : config.maxConflicts = 0)
    (hflag : ((reached config monitor calls).solve fun _ => false).1.monitor.raised = false) :
    ∃ n s' verdict, (reached config monitor calls).solve (fun _ => false) = (s', verdict) ∧
      Answers (fun _ => false) (reached config monitor calls) n s' verdict ∧
      (verdict = .sat ∨ verdict = .unsat) := by
  have hrep := represents_reached config monitor calls
  obtain ⟨n, hanswers⟩ := exists_answers hrep fun _ => false
  have hunknown := (hanswers.solved hrep).unknown
  rw [hflag, config_reached, hbudget] at hunknown
  generalize (reached config monitor calls).solve (fun _ => false) = out at hanswers hunknown ⊢
  obtain ⟨s', verdict⟩ := out
  refine ⟨n, s', verdict, rfl, hanswers, ?_⟩
  cases verdict with
  | sat => exact .inl rfl
  | unsat => exact .inr rfl
  | unknown => exact absurd (hunknown rfl) (by simp)

/-- A call that comes to its answer by learning from a conflict. -/
theorem solve_decides_contradicting :
    ((reached {} {} contradicting).solve fun _ => false).1.monitor.raised = false ∧
    ((reached {} {} contradicting).solve fun _ => false).2 = .unsat ∧
    ∃ n s' verdict, (reached {} {} contradicting).solve (fun _ => false) = (s', verdict) ∧
      Answers (fun _ => false) (reached {} {} contradicting) n s' verdict ∧
      (verdict = .sat ∨ verdict = .unsat) := by
  have hflag : ((reached {} {} contradicting).solve fun _ => false).1.monitor.raised = false := by
    decide +kernel
  exact ⟨hflag, by decide +kernel, solve_decides {} {} contradicting rfl hflag⟩

end Solver

end ModelExpansion.Sat
