import ModelExpansion.Encoding.Decoding
import ModelExpansion.Proofs.Encoding.Gates

/-! # Steps of an encoder
An encoder defines gates, asserts clauses and searches. The values of the variables there were
before and the clauses of the gates determine the values of all gates, whatever has been
asserted. -/

namespace ModelExpansion

open ModelExpansion.Sat

namespace Encoder

/-- Steps that lead from one encoder to another, with the clauses that define the gates built on the
way. The literals that a step is given have variables of the encoder. -/
inductive Builds (e : Encoder) : Encoder → List (List Lit) → Prop where
  | refl : Builds e e []
  | conjunction {e' : Encoder} {cs : List (List Lit)} {lits : List Lit} (h : Builds e e' cs)
      (hnew : e'.gates[lits]? = none) (hlits : ∀ l ∈ lits, l.var < e'.solver.numVars) :
      Builds e (e'.andGate lits).1 (cs ++ andClauses e'.newGate.2 lits)
  | reuse {e' : Encoder} {cs : List (List Lit)} {lits : List Lit} {g : Lit} (h : Builds e e' cs)
      (hg : e'.gates[lits]? = some g) : Builds e (e'.andGate lits).1 cs
  | equivalence {e' : Encoder} {cs : List (List Lit)} {a b : Lit} (h : Builds e e' cs)
      (ha : a.var < e'.solver.numVars) (hb : b.var < e'.solver.numVars) :
      Builds e (e'.newGate.1.clauses (iffClauses e'.newGate.2 a b))
      (cs ++ iffClauses e'.newGate.2 a b)
  /-- A clause that defines no gate. -/
  | assertion {e' : Encoder} {cs : List (List Lit)} {c : List Lit} (h : Builds e e' cs)
      (hc : ∀ l ∈ c, l.var < e'.solver.numVars) : Builds e (e'.clause c).1 cs
  /-- The definitions that models are checked against may change. -/
  | keep {e' : Encoder} {cs : List (List Lit)} (Ds : List Definition) (Fs : List Fixpoint)
      (h : Builds e e' cs) :
      Builds e { e' with definitions := Ds, fixpoints := Fs } cs
  | search {e' : Encoder} {cs : List (List Lit)} (halt : Stats → Bool) (h : Builds e e' cs) :
      Builds e (e'.solve halt).1 cs

variable {e e' e'' : Encoder} {cs cs' : List (List Lit)}

theorem Builds.trans (h : Builds e e' cs) (h' : Builds e' e'' cs') : Builds e e'' (cs ++ cs') := by
  induction h' with
  | refl =>
      rw [List.append_nil]
      exact h
  | conjunction _ hnew hlits ih =>
      rw [← List.append_assoc]
      exact ih.conjunction hnew hlits
  | reuse _ hg ih => exact ih.reuse hg
  | equivalence _ ha hb ih =>
      rw [← List.append_assoc]
      exact ih.equivalence ha hb
  | assertion _ hc ih => exact ih.assertion hc
  | keep Ds Fs _ ih => exact ih.keep Ds Fs
  | search halt _ ih => exact ih.search halt

/-! ## Clauses touch the solver only -/

theorem clauses_eq (e : Encoder) (cs : List (List Lit)) :
    e.clauses cs = { e with solver := (e.clauses cs).solver, stats := (e.clauses cs).stats } := by
  induction cs generalizing e with
  | nil => rfl
  | cons c cs ih => exact ih (e.clause c).1

section NewGate

variable (e : Encoder) (cs : List (List Lit))

theorem base_newGate : (e.newGate.1.clauses cs).base = e.base := by rw [clauses_eq, newGate]

theorem index_newGate : (e.newGate.1.clauses cs).index = e.index := by rw [clauses_eq, newGate]

theorem truth_newGate : (e.newGate.1.clauses cs).truth = e.truth := by rw [clauses_eq, newGate]

theorem gates_newGate : (e.newGate.1.clauses cs).gates = e.gates := by rw [clauses_eq, newGate]

end NewGate

theorem andGate_of_new {lits : List Lit} (h : e.gates[lits]? = none) : e.andGate lits =
    ({ e.newGate.1.clauses (andClauses e.newGate.2 lits) with
      gates := e.gates.insert lits e.newGate.2 }, e.newGate.2) := by
  rw [andGate, h]
  simp only [gates_newGate]

theorem andGate_of_built {lits : List Lit} {g : Lit} (h : e.gates[lits]? = some g) :
    e.andGate lits = ({ e with stats := { e.stats with hits := e.stats.hits + 1 } }, g) := by
  rw [andGate, h]

/-! ## Soundness -/

/-- Clauses over the variables so far and a new gate are handed over without allocating any. -/
theorem adds_newGate (h : Sound e) {cs : List (List Lit)}
    (hcs : ∀ c ∈ cs, ∀ l ∈ c, l.var < e.solver.numVars + 1) :
    Adds e.newGate.1 (e.newGate.1.clauses cs) fun α => ∀ c ∈ cs, Satisfies α c :=
  adds_clauses h.valid.newVar fun c hc l hl => (Solver.numVars_newVar e.solver).symm ▸ hcs c hc l hl

theorem numVars_newGate (h : Sound e) {cs : List (List Lit)}
    (hcs : ∀ c ∈ cs, ∀ l ∈ c, l.var < e.solver.numVars + 1) :
    (e.newGate.1.clauses cs).solver.numVars = e.solver.numVars + 1 :=
  (adds_newGate h hcs).numVars.trans (Solver.numVars_newVar e.solver)

theorem numVars_andGate (h : Sound e) {lits : List Lit} (hnew : e.gates[lits]? = none)
    (hlits : ∀ l ∈ lits, l.var < e.solver.numVars) :
    (e.andGate lits).1.solver.numVars = e.solver.numVars + 1 := by
  rw [andGate_of_new hnew]
  exact numVars_newGate h (var_lt_andClauses hlits)

theorem sound_keep (h : Sound e) (Ds : List Definition) (Fs : List Fixpoint) :
    Sound { e with definitions := Ds, fixpoints := Fs } :=
  ⟨h.valid, h.index_lt, h.truth_lt, h.truth, h.single, h.gates_lt, h.gates⟩

theorem sound_solve (h : Sound e) (halt : Stats → Bool) : Sound (e.solve halt).1 :=
  h.later rfl (h.valid.solve halt) (h.valid.numVars_solve halt).ge (h.valid.admits_solve halt).mp

theorem Builds.sound (h : Builds e e' cs) (he : Sound e) : Sound e' := by
  induction h with
  | refl => exact he
  | conjunction _ _ hlits ih => exact (andGate_spec ih hlits).1.sound
  | reuse _ hg ih =>
      rw [andGate_of_built hg]
      exact (grown_stats ih _).sound
  | equivalence _ ha hb ih => exact (iffGate_spec ih ha hb).1.sound
  | assertion _ hc ih => exact (adds_clause ih.valid hc).sound ih
  | keep Ds Fs _ ih => exact sound_keep ih Ds Fs
  | search halt _ ih => exact sound_solve ih halt

theorem Builds.numVars_le (h : Builds e e' cs) (he : Sound e) :
    e.solver.numVars ≤ e'.solver.numVars := by
  induction h with
  | refl => exact Nat.le_refl _
  | conjunction h hnew hlits ih =>
      rw [numVars_andGate (h.sound he) hnew hlits]
      exact Nat.le_succ_of_le ih
  | reuse h hg ih =>
      rw [andGate_of_built hg]
      exact ih
  | equivalence h ha hb ih =>
      rw [numVars_newGate (h.sound he) (var_lt_iffClauses ha hb)]
      exact Nat.le_succ_of_le ih
  | assertion h hc ih =>
      rw [(adds_clause (h.sound he).valid hc).numVars]
      exact ih
  | keep Ds Fs h ih => exact ih
  | search halt h ih => exact ih.trans_eq ((h.sound he).valid.numVars_solve halt).symm

/-! ## Gates are determined -/

/-- A gate whose clauses make it equivalent to something about the variables so far has no
choice. -/
theorem agree_of_defined {n : Nat} {α β : Nat → Bool} (hαβ : ∀ v < n, α v = β v)
    (h : (Lit.pos n).Holds α ↔ (Lit.pos n).Holds β) : ∀ v < n + 1, α v = β v := by
  intro v hv
  rcases Nat.lt_succ_iff_lt_or_eq.mp hv with hv | rfl
  · exact hαβ v hv
  · rw [Lit.Holds, Lit.Holds, Lit.pos, Lit.var_signed, Lit.positive_signed] at h
    exact Bool.eq_iff_iff.mpr h

/-- Assignments that agree on the variables there were before and satisfy the clauses of the gates
agree on all variables. -/
theorem Builds.determined (h : Builds e e' cs) (he : Sound e) {α β : Nat → Bool}
    (hαβ : ∀ v < e.solver.numVars, α v = β v) (hα : ∀ c ∈ cs, Satisfies α c)
    (hβ : ∀ c ∈ cs, Satisfies β c) :
    ∀ v < e'.solver.numVars, α v = β v := by
  induction h with
  | refl => exact hαβ
  | conjunction h hnew hlits ih =>
      rw [List.forall_mem_append] at hα hβ
      have hagree := ih hα.1 hβ.1
      rw [numVars_andGate (h.sound he) hnew hlits]
      apply agree_of_defined hagree
      exact (forall_mem_andClauses.mp hα.2).trans
        ((forall_holds_congr hlits hagree).trans (forall_mem_andClauses.mp hβ.2).symm)
  | reuse h hg ih =>
      rw [andGate_of_built hg]
      exact ih hα hβ
  | equivalence h ha hb ih =>
      rw [List.forall_mem_append] at hα hβ
      have hagree := ih hα.1 hβ.1
      rw [numVars_newGate (h.sound he) (var_lt_iffClauses ha hb)]
      apply agree_of_defined hagree
      exact (forall_mem_iffClauses.mp hα.2).trans
        ((iff_congr (Lit.holds_congr (hagree _ ha)) (Lit.holds_congr (hagree _ hb))).trans
          (forall_mem_iffClauses.mp hβ.2).symm)
  | assertion h hc ih =>
      rw [(adds_clause (h.sound he).valid hc).numVars]
      exact ih hα hβ
  | keep Ds Fs h ih => exact ih hα hβ
  | search halt h ih =>
      rw [show (solve halt _).1.solver.numVars = _ from (h.sound he).valid.numVars_solve halt]
      exact ih hα hβ

end Encoder

end ModelExpansion
