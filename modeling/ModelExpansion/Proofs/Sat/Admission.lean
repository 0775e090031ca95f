import ModelExpansion.Proofs.Sat.Solving

/-! # The assignments that a solver admits
Seen from outside a solver is the set of assignments that its clauses leave. -/

namespace ModelExpansion.Sat.Solver

variable {s : Solver}

/-- Whether an assignment satisfies everything the solver was given. -/
def Admits (s : Solver) (α : Nat → Bool) : Prop := s.inconsistent = false ∧ s.Models α

/-- A solver that some clauses have been added to. -/
def Valid (s : Solver) : Prop := ∃ added, Represents s added

theorem Represents.valid {added : List (List Lit)} (h : Represents s added) : Valid s := ⟨added, h⟩

theorem Represents.admits_iff {added : List (List Lit)} (h : Represents s added) {α : Nat → Bool} :
    s.Admits α ↔ ∀ c ∈ added, Satisfies α c := by
  rw [Admits]
  cases hinc : s.inconsistent with
  | true =>
      constructor
      · intro hα
        cases hα.1
      · intro hα
        exact absurd hα (h.unsatisfiable hinc α)
  | false =>
      rw [h.models hinc α]
      exact and_iff_right rfl

theorem WellFormed.models_congr (h : WellFormed s) {α β : Nat → Bool}
    (hαβ : ∀ v < s.numVars, α v = β v) (hα : s.Models α) : s.Models β where
  root hi h0 := (Lit.holds_congr (hαβ _ (h.trail.var_lt hi))).mp (hα.root hi h0)
  clause hr := (satisfies_congr fun l hl => hαβ _ (h.clauses.var_lt hr l hl)).mp (hα.clause hr)

namespace Valid

theorem admits_congr (h : Valid s) {α β : Nat → Bool} (hαβ : ∀ v < s.numVars, α v = β v)
    (hα : s.Admits α) : s.Admits β := by
  obtain ⟨added, h⟩ := h
  exact ⟨hα.1, (h.wellFormed hα.1).models_congr hαβ hα.2⟩

theorem newVar (h : Valid s) : Valid s.newVar := by
  obtain ⟨added, h⟩ := h
  exact h.newVar.valid

theorem addClause (h : Valid s) (lits : List Lit) : Valid (s.addClause lits).1 := by
  obtain ⟨added, h⟩ := h
  exact (h.addClause lits).valid

theorem admits_addClause (h : Valid s) (lits : List Lit) {α : Nat → Bool} :
    (s.addClause lits).1.Admits α ↔ s.Admits α ∧ Satisfies α lits := by
  obtain ⟨added, h⟩ := h
  rw [(h.addClause lits).admits_iff, forall_mem_append_singleton, h.admits_iff]

/-- When a clause is refused, nothing is left. -/
theorem not_admits_of_refused (h : Valid s) {lits : List Lit}
    (hrefused : (s.addClause lits).2 = false)
    (α : Nat → Bool) : ¬ (s.addClause lits).1.Admits α := by
  obtain ⟨added, h⟩ := h
  rw [h.answer_addClause lits] at hrefused
  intro hα
  rw [hα.1] at hrefused
  cases hrefused

theorem numVars_addClause (h : Valid s) {lits : List Lit} (hlits : ∀ l ∈ lits, l.var < s.numVars) :
    (s.addClause lits).1.numVars = s.numVars := by
  obtain ⟨added, h⟩ := h
  cases hinc : s.inconsistent with
  | true => rw [addClause_of_inconsistent hinc]
  | false =>
      rw [(addClause_spec h lits hinc).numVars, ensureAll_of_var_lt, numVars_cancelUntil]
      intro l hl
      rw [numVars_cancelUntil]
      exact hlits l (mem_ascending.mp hl)

theorem config_addClause (h : Valid s) (lits : List Lit) :
    (s.addClause lits).1.config = s.config := by
  obtain ⟨added, h⟩ := h
  cases hinc : s.inconsistent with
  | true => rw [addClause_of_inconsistent hinc]
  | false =>
      rw [(addClause_spec h lits hinc).config]
      exact ensureAll_induction (P := fun t => t.config = s.config)
        (fun _ ht => ht) config_cancelUntil _

theorem follows_addClause (h : Valid s) (lits : List Lit) :
    s.monitor.Follows (s.addClause lits).1.monitor := by
  obtain ⟨added, h⟩ := h
  cases hinc : s.inconsistent with
  | true =>
      rw [addClause_of_inconsistent hinc]
      exact .refl _
  | false =>
      refine Monitor.Follows.trans ?_ (addClause_spec h lits hinc).monitor
      exact ensureAll_induction (P := fun t => s.monitor.Follows t.monitor) (fun _ ht => ht)
        (follows_cancelUntil s 0) _

theorem solve (h : Valid s) (halt : Stats → Bool) : Valid (s.solve halt).1 := by
  obtain ⟨added, h⟩ := h
  exact (h.solve halt).represents.valid

theorem admits_solve (h : Valid s) (halt : Stats → Bool) {α : Nat → Bool} :
    (s.solve halt).1.Admits α ↔ s.Admits α := by
  obtain ⟨added, h⟩ := h
  rw [(h.solve halt).represents.admits_iff, h.admits_iff]

theorem numVars_solve (h : Valid s) (halt : Stats → Bool) :
    (s.solve halt).1.numVars = s.numVars := by
  obtain ⟨added, h⟩ := h
  exact (h.solve halt).numVars

theorem config_solve (h : Valid s) (halt : Stats → Bool) : (s.solve halt).1.config = s.config := by
  obtain ⟨added, h⟩ := h
  exact (h.solve halt).config

theorem follows_solve (h : Valid s) (halt : Stats → Bool) :
    s.monitor.Follows (s.solve halt).1.monitor := by
  obtain ⟨added, h⟩ := h
  exact (h.solve halt).monitor

theorem model_of_sat (h : Valid s) {halt : Stats → Bool} (hv : (s.solve halt).2 = .sat) :
    ∃ m, (s.solve halt).1.model = some m ∧ s.Admits m.value := by
  obtain ⟨added, h⟩ := h
  obtain ⟨m, hm, -, hmodel⟩ := (h.solve halt).sat hv
  exact ⟨m, hm, h.admits_iff.mpr hmodel⟩

theorem not_admits_of_unsat (h : Valid s) {halt : Stats → Bool} (hv : (s.solve halt).2 = .unsat)
    (α : Nat → Bool) : ¬ s.Admits α := by
  intro hα
  have hinc := ((h.admits_solve halt).mpr hα).1
  obtain ⟨added, h⟩ := h
  rw [(h.solve halt).unsat hv] at hinc
  cases hinc

theorem reason_of_unknown (h : Valid s) {halt : Stats → Bool} (hv : (s.solve halt).2 = .unknown) :
    (s.solve halt).1.monitor.raised = true ∨ s.config.maxConflicts ≠ 0 ∨
    ∃ stats, halt stats = true := by
  obtain ⟨added, h⟩ := h
  exact (h.solve halt).unknown hv

end Valid

theorem admits_newVar {α : Nat → Bool} : s.newVar.Admits α ↔ s.Admits α :=
  and_congr_right fun _ => models_newVar

/-! ## The fresh solver -/

/-- A solver without variables and clauses. -/
def fresh (config : Config) (monitor : Monitor) : Solver := { config := config, monitor := monitor }

theorem represents_fresh (config : Config) (monitor : Monitor) :
    Represents (fresh config monitor) [] := by
  have hvar : ∀ v, (fresh config monitor).var v = {} := fun v => by
    simp only [var, fresh, Array.getD_eq_getD_getElem?, List.getElem?_toArray, List.getElem?_nil,
      Option.getD_none]
    rfl
  have htrail : ∀ {i : Nat} {l}, (fresh config monitor).trail[i]? ≠ some l := by
    intro i l
    simp [fresh]
  refine represents_of_models ⟨?_, ?_, ?_, ?_, fun v => by rw [hvar]⟩ ?_ rfl fun α => ?_
  · refine ⟨fun l => ?_, fun hi => absurd hi htrail, Nat.le_refl _,
      fun hk => absurd hk (Nat.not_lt_zero _),
      fun hk => absurd hk (Nat.not_lt_zero _), Nat.le_refl _, fun hi => absurd hi htrail,
      fun hk => absurd hk (Nat.not_lt_zero _)⟩
    constructor
    · rintro ⟨i, hi⟩
      exact absurd hi htrail
    · intro hl
      rw [value_eq_yes, hvar] at hl
      cases hp : l.positive <;> rw [hp] at hl <;> cases hl
  · exact ⟨fun hr => absurd hr (Nat.not_lt_zero _), fun hr => absurd hr (Nat.not_lt_zero _)⟩
  · exact ⟨fun hi => absurd hi htrail, fun hi => absurd hi htrail⟩
  · refine ⟨rfl, fun l r => ?_⟩
    rw [if_neg fun hr => Nat.not_lt_zero _ hr.1]
    simp [watchers, fresh]
  · exact fun r hr => absurd hr (Nat.not_lt_zero _)
  · exact ⟨fun _ c hc => absurd hc List.not_mem_nil,
      fun _ => ⟨fun hi => absurd hi htrail, fun hr => absurd hr (Nat.not_lt_zero _)⟩⟩

theorem valid_fresh (config : Config) (monitor : Monitor) : Valid (fresh config monitor) :=
  (represents_fresh config monitor).valid

theorem admits_fresh (config : Config) (monitor : Monitor) (α : Nat → Bool) :
    (fresh config monitor).Admits α :=
  (represents_fresh config monitor).admits_iff.mpr fun _ hc => absurd hc List.not_mem_nil

end ModelExpansion.Sat.Solver
