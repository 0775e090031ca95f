import ModelExpansion.Proofs.Encoding.Steps

/-! # Encoders without what was asserted
An encoder may have asserted clauses that no world satisfies any more. A replica has the same gates
and none of these clauses. -/

namespace ModelExpansion

open ModelExpansion.Sat

namespace Encoder

/-- An encoder that has built the gates of another one since some beginning, with the given clauses,
and asserted nothing. -/
structure Replica (e₀ e replica : Encoder) (cs : List (List Lit)) : Prop where
  beginning : Sound e₀
  base : replica.base = e.base
  index : replica.index = e.index
  truth : replica.truth = e.truth
  gates : replica.gates = e.gates
  numVars : replica.solver.numVars = e.solver.numVars
  grown : Grown e₀ replica
  satisfies : ∀ {α}, replica.solver.Admits α → ∀ c ∈ cs, Satisfies α c

variable {e₀ e e' replica : Encoder} {cs ds : List (List Lit)}

namespace Replica

theorem refl (h : Sound e₀) : Replica e₀ e₀ e₀ [] :=
  ⟨h, rfl, rfl, rfl, rfl, rfl, .refl h, fun _ _ hc => absurd hc List.not_mem_nil⟩

theorem sound (h : Replica e₀ e replica cs) : Sound replica := h.grown.sound

theorem falsity (h : Replica e₀ e replica cs) : replica.falsity = e.falsity := by
  rw [Encoder.falsity, h.truth, Encoder.falsity]

theorem atomLit? (h : Replica e₀ e replica cs) (p : SymbolId) (t : Tuple) :
    replica.atomLit? p t = e.atomLit? p t := by
  rw [Encoder.atomLit?, h.index, Encoder.atomLit?]

theorem newGate_eq (h : Replica e₀ e replica cs) : replica.newGate.2 = e.newGate.2 :=
  congrArg Lit.pos h.numVars

theorem var_lt (h : Replica e₀ e replica cs) {lits : List Lit}
    (hlits : ∀ l ∈ lits, l.var < e.solver.numVars) :
    ∀ l ∈ lits, l.var < replica.solver.numVars := by
  rw [h.numVars]
  exact hlits

theorem satisfies_newGate (h : Replica e₀ e replica cs)
    (hds : ∀ c ∈ ds, ∀ l ∈ c, l.var < replica.solver.numVars + 1) {α : Nat → Bool}
    (hα : (replica.newGate.1.clauses ds).solver.Admits α) : ∀ c ∈ cs ++ ds, Satisfies α c := by
  rw [List.forall_mem_append]
  obtain ⟨hbefore, hdefined⟩ := (adds_newGate h.sound hds).admits.mp hα
  exact ⟨h.satisfies (Solver.admits_newVar.mp hbefore), hdefined⟩

theorem conjunction (h : Replica e₀ e replica cs) (he : Sound e) {lits : List Lit}
    (hnew : e.gates[lits]? = none) (hlits : ∀ l ∈ lits, l.var < e.solver.numVars) :
    (replica.andGate lits).2 = (e.andGate lits).2 ∧
      Replica e₀ (e.andGate lits).1 (replica.andGate lits).1
      (cs ++ andClauses e.newGate.2 lits) := by
  have hnew' : replica.gates[lits]? = none := by rw [h.gates, hnew]
  have hgrown := (andGate_spec h.sound (h.var_lt hlits)).1
  have hnumVars := numVars_andGate he hnew hlits
  have hnumVars' := numVars_andGate h.sound hnew' (h.var_lt hlits)
  have hds := var_lt_andClauses (h.var_lt hlits)
  rw [andGate_of_new hnew', h.newGate_eq, h.gates] at hgrown hnumVars'
  rw [andGate_of_new hnew] at hnumVars
  rw [h.newGate_eq] at hds
  rw [andGate_of_new hnew, andGate_of_new hnew', h.newGate_eq, h.gates]
  refine ⟨rfl, h.beginning, ?_, ?_, ?_, rfl, ?_, h.grown.trans hgrown h.beginning,
    h.satisfies_newGate hds⟩
  · exact (base_newGate replica _).trans (h.base.trans (base_newGate e _).symm)
  · exact (index_newGate replica _).trans (h.index.trans (index_newGate e _).symm)
  · exact (truth_newGate replica _).trans (h.truth.trans (truth_newGate e _).symm)
  · rw [hnumVars, hnumVars', h.numVars]

theorem reuse (h : Replica e₀ e replica cs) {lits : List Lit} {g : Lit}
    (hg : e.gates[lits]? = some g) :
    (replica.andGate lits).2 = (e.andGate lits).2 ∧
      Replica e₀ (e.andGate lits).1 (replica.andGate lits).1 cs := by
  have hg' : replica.gates[lits]? = some g := by rw [h.gates, hg]
  rw [andGate_of_built hg, andGate_of_built hg']
  exact ⟨rfl, h.beginning, h.base, h.index, h.truth, h.gates, h.numVars,
    h.grown.trans (grown_stats h.sound _) h.beginning, h.satisfies⟩

theorem equivalence (h : Replica e₀ e replica cs) (he : Sound e) {a b : Lit}
    (ha : a.var < e.solver.numVars) (hb : b.var < e.solver.numVars) :
    Replica e₀ (e.newGate.1.clauses (iffClauses e.newGate.2 a b))
      (replica.newGate.1.clauses (iffClauses e.newGate.2 a b))
      (cs ++ iffClauses e.newGate.2 a b) := by
  have ha' : a.var < replica.solver.numVars := h.numVars.symm ▸ ha
  have hb' : b.var < replica.solver.numVars := h.numVars.symm ▸ hb
  have hgrown := (iffGate_spec h.sound ha' hb').1
  have hds := var_lt_iffClauses ha' hb'
  rw [h.newGate_eq] at hgrown hds
  refine ⟨h.beginning, ?_, ?_, ?_, ?_, ?_, h.grown.trans hgrown h.beginning,
    h.satisfies_newGate hds⟩
  · exact (base_newGate replica _).trans (h.base.trans (base_newGate e _).symm)
  · exact (index_newGate replica _).trans (h.index.trans (index_newGate e _).symm)
  · exact (truth_newGate replica _).trans (h.truth.trans (truth_newGate e _).symm)
  · exact (gates_newGate replica _).trans (h.gates.trans (gates_newGate e _).symm)
  · rw [numVars_newGate h.sound hds, numVars_newGate he (var_lt_iffClauses ha hb), h.numVars]

end Replica

/-- Whatever an encoder has asserted, it has a replica. -/
theorem Builds.exists_replica (h : Builds e₀ e cs) (h₀ : Sound e₀) :
    ∃ replica, Replica e₀ e replica cs := by
  induction h with
  | refl => exact ⟨e₀, .refl h₀⟩
  | conjunction h hnew hlits ih =>
      obtain ⟨replica, hreplica⟩ := ih
      exact ⟨_, (hreplica.conjunction (h.sound h₀) hnew hlits).2⟩
  | reuse h hg ih =>
      obtain ⟨replica, hreplica⟩ := ih
      exact ⟨_, (hreplica.reuse hg).2⟩
  | equivalence h ha hb ih =>
      obtain ⟨replica, hreplica⟩ := ih
      exact ⟨_, hreplica.equivalence (h.sound h₀) ha hb⟩
  | assertion h hc ih =>
      obtain ⟨replica, hreplica⟩ := ih
      have hnumVars := (adds_clause (h.sound h₀).valid hc).numVars
      exact ⟨replica, { hreplica with numVars := hreplica.numVars.trans hnumVars.symm }⟩
  | keep Ds Fs h ih =>
      obtain ⟨replica, hreplica⟩ := ih
      exact ⟨replica, { hreplica with }⟩
  | search halt h ih =>
      obtain ⟨replica, hreplica⟩ := ih
      have hnumVars := (h.sound h₀).valid.numVars_solve halt
      exact ⟨replica, { hreplica with numVars := hreplica.numVars.trans hnumVars.symm }⟩

end Encoder

end ModelExpansion
