import Mathlib.Data.Fintype.BigOperators
import Mathlib.Data.Fintype.Card
import ModelExpansion.Proofs.Sat.History
import ModelExpansion.Sat.Enumeration

/-! # Enumeration of projections
Every call of an enumeration that finds a model finds one with values on the first variables that no
call before had. There are finitely many such values. So the enumeration ends by itself, and it
lists the projections of all models. -/

namespace ModelExpansion.Sat

/-- The values of an assignment on the first `n` variables. -/
def project (n : Nat) (α : Nat → Bool) : Fin n → Bool := fun i => α i

/-- A blocking clause excludes exactly the assignments with the same projection. -/
theorem Model.satisfies_blockingClause {m : Model} {n : Nat} {α : Nat → Bool} :
    Satisfies α (m.blockingClause n) ↔ project n α ≠ project n m.value := by
  have hholds : ∀ v, (Lit.signed v !m.value v).Holds α ↔ α v ≠ m.value v := fun v => by
    rw [Lit.Holds, Lit.var_signed, Lit.positive_signed]
    exact Bool.eq_not
  simp only [Satisfies, blockingClause, List.mem_map, List.mem_range, exists_exists_and_eq_and,
    hholds, project, ne_eq, funext_iff, not_forall, Fin.exists_iff, exists_prop]

/-- Whether an enumeration ended because no other model is left. -/
def Enumeration.End.Complete : Option Enumeration.End → Prop
  | some (.verdict .unsat) | some .blocked => True
  | _ => False

namespace Solver

/-- The rules of an enumeration with at most so many calls: without a call left it is cut off; a
call that finds no model ends it, and so does a refused blocking clause; otherwise it goes on. -/
inductive EnumerationDerivation (halt : Stats → Bool) (n : Nat) :
    Nat → Option Enumeration.End → Solver → Enumeration → Prop where
  | cut {last s} : EnumerationDerivation halt n 0 last s ⟨s, [], last⟩
  | ended {count last s s' verdict} (hs : s.solve halt = (s', verdict)) (hv : verdict ≠ .sat) :
      EnumerationDerivation halt n (count + 1) last s ⟨s', [], some (.verdict verdict)⟩
  | blocked {count last s s' s'' m} (hs : s.solve halt = (s', .sat)) (hm : s'.model.getD ⟨#[]⟩ = m)
      (hb : s'.addClause (m.blockingClause n) = (s'', false)) :
      EnumerationDerivation halt n (count + 1) last s ⟨s'', [m], some .blocked⟩
  | next {count last s s' s'' m E} (hs : s.solve halt = (s', .sat)) (hm : s'.model.getD ⟨#[]⟩ = m)
      (hb : s'.addClause (m.blockingClause n) = (s'', true))
      (hrest : EnumerationDerivation halt n count (some (.verdict .sat)) s'' E) :
      EnumerationDerivation halt n (count + 1) last s ⟨E.solver, m :: E.models, E.ending⟩

variable {s s' s'' : Solver} {halt : Stats → Bool} {n count : Nat} {last : Option Enumeration.End}
    {E : Enumeration}
  {m : Model}

theorem EnumerationDerivation.execution (h : EnumerationDerivation halt n count last s E) :
    s.enumerateFrom halt n last count = E := by
  induction h with
  | cut => rfl
  | @ended _ _ _ _ verdict hs hv =>
      rw [enumerateFrom, hs]
      cases verdict with
      | sat => exact absurd rfl hv
      | unsat => rfl
      | unknown => rfl
  | blocked hs hm hb => simp only [enumerateFrom, hs, hm, hb]
  | next hs hm hb _ ih => simp only [enumerateFrom, hs, hm, hb, ih]

theorem enumerateFrom_derivation (halt : Stats → Bool) (n : Nat) (last : Option Enumeration.End)
    (count : Nat)
    (s : Solver) :
    EnumerationDerivation halt n count last s (s.enumerateFrom halt n last count) := by
  induction count generalizing last s with
  | zero => exact .cut
  | succ count ih =>
      cases hs : s.solve halt with
      | mk s' verdict =>
          cases verdict with
          | unsat =>
              simp only [enumerateFrom, hs]
              exact .ended hs (by simp)
          | unknown =>
              simp only [enumerateFrom, hs]
              exact .ended hs (by simp)
          | sat =>
              cases hb : s'.addClause ((s'.model.getD ⟨#[]⟩).blockingClause n) with
              | mk s'' answer =>
                  cases answer with
                  | false =>
                      simp only [enumerateFrom, hs, hb]
                      exact .blocked hs rfl hb
                  | true =>
                      simp only [enumerateFrom, hs, hb]
                      exact .next hs rfl hb (ih _ _)

/-! ## One call -/

/-- What a call that found a model and the blocking of this model leave. -/
structure Excluded (s s'' : Solver) (n : Nat) (m : Model) (answer : Bool) : Prop where
  valid : Valid s''
  config : s''.config = s.config
  monitor : s.monitor.Follows s''.monitor
  found : s.Admits m.value
  admits : ∀ α, s''.Admits α ↔ s.Admits α ∧ project n α ≠ project n m.value
  refused : answer = false → ∀ α, ¬ s''.Admits α

theorem Valid.excluded (h : Valid s) {answer : Bool} (hs : s.solve halt = (s', .sat))
    (hm : s'.model.getD ⟨#[]⟩ = m) (hb : s'.addClause (m.blockingClause n) = (s'', answer)) :
    Excluded s s'' n m answer := by
  have hsolved : (s.solve halt).1 = s' := congrArg Prod.fst hs
  have hblocked : (s'.addClause (m.blockingClause n)).1 = s'' := congrArg Prod.fst hb
  have hvalid : Valid s' := hsolved ▸ h.solve halt
  refine ⟨hblocked ▸ hvalid.addClause _, ?_, ?_, ?_, fun α => ?_, ?_⟩
  · rw [← hblocked, hvalid.config_addClause, ← hsolved, h.config_solve]
  · exact (hsolved ▸ h.follows_solve halt).trans (hblocked ▸ hvalid.follows_addClause _)
  · obtain ⟨m', hm', hα⟩ := h.model_of_sat (congrArg Prod.snd hs)
    rw [hsolved] at hm'
    rw [hm', Option.getD_some] at hm
    exact hm ▸ hα
  · rw [← hblocked, hvalid.admits_addClause, ← hsolved, h.admits_solve,
      Model.satisfies_blockingClause]
  · rintro rfl
    exact hblocked ▸ hvalid.not_admits_of_refused (congrArg Prod.snd hb)

/-! ## The whole enumeration -/

namespace EnumerationDerivation

theorem admits (h : EnumerationDerivation halt n count last s E) (hs : Valid s) :
    ∀ m ∈ E.models, s.Admits m.value := by
  induction h with
  | cut => simp
  | ended => simp
  | blocked hsolve hm hb => simpa using (hs.excluded hsolve hm hb).found
  | next hsolve hm hb _ ih =>
      have hexcluded := hs.excluded hsolve hm hb
      rw [List.forall_mem_cons]
      exact ⟨hexcluded.found, fun m hm => ((hexcluded.admits _).mp (ih hexcluded.valid m hm)).1⟩

theorem nodup (h : EnumerationDerivation halt n count last s E) (hs : Valid s) :
    (E.models.map fun m => project n m.value).Nodup := by
  induction h with
  | cut => simp
  | ended => simp
  | blocked => simp
  | next hsolve hm hb hrest ih =>
      have hexcluded := hs.excluded hsolve hm hb
      rw [List.map_cons, List.nodup_cons]
      refine ⟨fun hmem => ?_, ih hexcluded.valid⟩
      obtain ⟨m', hm', hsame⟩ := List.mem_map.mp hmem
      exact ((hexcluded.admits _).mp (hrest.admits hexcluded.valid m' hm')).2 hsame

/-- When no other model is left, every projection has been listed. -/
theorem complete (h : EnumerationDerivation halt n count last s E) (hs : Valid s)
    (hlast : ¬ Enumeration.End.Complete last) (hE : Enumeration.End.Complete E.ending)
    {α : Nat → Bool} (hα : s.Admits α) : project n α ∈ E.models.map fun m => project n m.value := by
  induction h with
  | cut => exact absurd hE hlast
  | @ended _ _ _ _ verdict hsolve hv =>
      cases verdict with
      | sat => exact absurd rfl hv
      | unsat => exact absurd hα (hs.not_admits_of_unsat (congrArg Prod.snd hsolve) α)
      | unknown => exact hE.elim
  | @blocked _ _ _ _ _ m hsolve hm hb =>
      have hexcluded := hs.excluded hsolve hm hb
      have hnone := hexcluded.refused rfl α
      rw [hexcluded.admits] at hnone
      by_cases hsame : project n α = project n m.value
      · simp [hsame]
      · exact absurd ⟨hα, hsame⟩ hnone
  | @next _ _ _ _ _ m _ hsolve hm hb _ ih =>
      have hexcluded := hs.excluded hsolve hm hb
      by_cases hsame : project n α = project n m.value
      · simp [hsame]
      · exact List.mem_cons_of_mem _
          (ih hexcluded.valid id hE ((hexcluded.admits α).mpr ⟨hα, hsame⟩))

/-- An enumeration with a call left over that nothing stopped ended because no other model is
left. -/
theorem ends (h : EnumerationDerivation (fun _ => false) n count last s E) (hs : Valid s)
    (hcount : E.models.length < count) (hbudget : s.config.maxConflicts = 0)
    (hraised : E.solver.monitor.raised = false) : Enumeration.End.Complete E.ending := by
  induction h with
  | cut => simp at hcount
  | @ended _ _ s s' verdict hsolve hv =>
      cases verdict with
      | sat => exact absurd rfl hv
      | unsat => trivial
      | unknown =>
          have hreason := hs.reason_of_unknown (congrArg Prod.snd hsolve)
          rw [congrArg Prod.fst hsolve, hraised, hbudget] at hreason
          simp at hreason
  | blocked => trivial
  | next hsolve hm hb _ ih =>
      have hexcluded := hs.excluded hsolve hm hb
      exact ih hexcluded.valid (Nat.lt_of_succ_lt_succ hcount) (hexcluded.config ▸ hbudget) hraised

theorem add_calls (h : EnumerationDerivation halt n count last s E)
    (hcount : E.models.length < count) (k : Nat) :
    EnumerationDerivation halt n (count + k) last s E := by
  induction h with
  | cut => simp at hcount
  | ended hsolve hv => exact Nat.succ_add_eq_add_succ _ k ▸ .ended hsolve hv
  | blocked hsolve hm hb => exact Nat.succ_add_eq_add_succ _ k ▸ .blocked hsolve hm hb
  | next hsolve hm hb _ ih =>
      have hrest := ih (Nat.lt_of_succ_lt_succ hcount)
      rw [Nat.add_right_comm]
      exact .next hsolve hm hb hrest

/-- An enumeration does not raise the interrupt flag by itself. -/
theorem follows (h : EnumerationDerivation halt n count last s E) (hs : Valid s) :
    s.monitor.Follows E.solver.monitor := by
  induction h with
  | cut => exact .refl _
  | @ended _ _ s _ _ hsolve =>
      have hfollows := hs.follows_solve halt
      rwa [hsolve] at hfollows
  | blocked hsolve hm hb => exact (hs.excluded hsolve hm hb).monitor
  | next hsolve hm hb _ ih =>
      have hexcluded := hs.excluded hsolve hm hb
      exact hexcluded.monitor.trans (ih hexcluded.valid)

end EnumerationDerivation

/-- There are not more models listed than projections. -/
theorem length_models_le (hs : Valid s) :
    (s.enumerateFrom halt n last count).models.length ≤ 2 ^ n := by
  have hnodup := (enumerateFrom_derivation halt n last count s).nodup hs
  have hcard : Fintype.card (Fin n → Bool) = 2 ^ n := by simp
  simpa [hcard] using hnodup.length_le_card

/-- After any calls on a fresh solver, an enumeration that nothing interrupts ends by itself: with
more calls than projections its result does not depend on how many there are, and it ended because
no other model is left. It has listed the projections of the assignments that satisfy the clauses,
each of them once. -/
theorem enumerate_projections (config : Config) (monitor : Monitor) (calls : List Call) (n : Nat)
    (hbudget : config.maxConflicts = 0)
    (hraised :
      ∀ count,
        ((reached config monitor calls).enumerate (fun _ => false) n count).solver.monitor.raised =
      false) :
    ∃ E,
      (∀ count, 2 ^ n < count → (reached config monitor calls).enumerate
        (fun _ => false) n count = E) ∧
      (E.ending = some (.verdict .unsat) ∨ E.ending = some .blocked) ∧
      (E.models.map fun m => project n m.value).Nodup ∧
      ∀ b, b ∈ E.models.map (fun m => project n m.value) ↔
        ∃ α, (∀ c ∈ calls.flatMap Call.clauses, Satisfies α c) ∧ project n α = b := by
  have hrep := represents_reached config monitor calls
  have hvalid := hrep.valid
  have hderivation :=
    enumerateFrom_derivation (fun _ => false) n none (2 ^ n + 1) (reached config monitor calls)
  have hless :
      ((reached config monitor calls).enumerateFrom (fun _ => false) n none
        (2 ^ n + 1)).models.length <
      2 ^ n + 1 := Nat.lt_succ_of_le (length_models_le hvalid)
  have hended := hderivation.ends hvalid hless (by rw [config_reached, hbudget]) (hraised _)
  refine ⟨_, fun count hcount => ?_, ?_, hderivation.nodup hvalid, fun b => ⟨fun hb => ?_, ?_⟩⟩
  · obtain ⟨k, rfl⟩ := Nat.exists_eq_add_of_lt hcount
    have hmore := hderivation.add_calls hless k
    rw [Nat.add_right_comm] at hmore
    exact hmore.execution
  · generalize (enumerateFrom _ _ _ _ _).ending = ending at hended
    match ending, hended with
    | some (.verdict .unsat), _ => exact .inl rfl
    | some .blocked, _ => exact .inr rfl
  · obtain ⟨m, hm, rfl⟩ := List.mem_map.mp hb
    exact ⟨m.value, hrep.admits_iff.mp (hderivation.admits hvalid m hm), rfl⟩
  · rintro ⟨α, hα, rfl⟩
    exact hderivation.complete hvalid id hended (hrep.admits_iff.mpr hα)

/-- One of two variables is true; the enumeration looks at the first. -/
theorem enumerate_projections_disjunction :
    ∃ E, (∀ count, 2 < count →
        (reached {} {} [.newVar, .newVar, .addClause [.pos 0, .pos 1]]).enumerate
        (fun _ => false) 1 count = E) ∧
      (E.ending = some (.verdict .unsat) ∨ E.ending = some .blocked) ∧
      (E.models.map fun m => project 1 m.value).Nodup ∧
      ∀ b, b ∈ E.models.map (fun m => project 1 m.value) ↔
        ∃ α, (∀ c ∈ [[Lit.pos 0, .pos 1]], Satisfies α c) ∧ project 1 α = b := by
  have hquiet : (reached {} {} [.newVar, .newVar, .addClause [.pos 0, .pos 1]]).monitor.alarm =
      none := by decide
  refine enumerate_projections {} {} [.newVar, .newVar, .addClause [.pos 0, .pos 1]] 1 rfl
    fun count => ?_
  have hfollows := (enumerateFrom_derivation (fun _ => false) 1 none count
    (reached {} {} [.newVar, .newVar, .addClause [.pos 0, .pos 1]])).follows
    (represents_reached _ _ _).valid
  exact (hfollows.quiet hquiet).2

end Solver

end ModelExpansion.Sat
