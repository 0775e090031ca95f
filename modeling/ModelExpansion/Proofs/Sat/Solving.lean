import ModelExpansion.Proofs.Sat.Termination

/-! # Calls of the solver
A call searches at level zero of a solver that is not inconsistent yet; its loop always comes to an
answer. -/

namespace ModelExpansion.Sat

namespace Solver

variable {s : Solver} {halt : Stats → Bool}

/-- The solver that has counted a call and forgotten the model of the last one. -/
def begun (s : Solver) : Solver :=
  { s with model := none, stats := { s.stats with solves := s.stats.solves + 1 } }

/-- A call without a bound on the iterations of its loop: how many there are, and with what
outcome. -/
inductive Answers (halt : Stats → Bool) (s : Solver) : Nat → Solver → Verdict → Prop where
  | inconsistent (h : s.inconsistent = true) : Answers halt s 0 s.begun .unsat
  | refuted {s' c} (h : s.inconsistent = false)
      (hp : (s.begun.cancelUntil 0).propagate = (s', some c)) :
      Answers halt s 0 { s' with inconsistent := true } .unsat
  | searched {s' n s'' verdict} (h : s.inconsistent = false)
      (hp : (s.begun.cancelUntil 0).propagate = (s', none))
      (hends : Search.Ends halt n ⟨s', 0, 0, s'.restartLimit⟩ s'' verdict) :
      Answers halt s n s'' verdict

theorem Represents.begun {added : List (List Lit)} (h : Represents s added) :
    Represents s.begun added where
  wellFormed hinc := (h.wellFormed hinc).bookkeeping _ _ _ _ _ _
  settled hinc := h.settled hinc
  models hinc α :=
    (continues_bookkeeping s _ s.activity s.increment none).models_iff.trans (h.models hinc α)
  unsatisfiable := h.unsatisfiable

/-- The loop of a call is never cut short. -/
theorem exists_answers {added : List (List Lit)} (h : Represents s added) (halt : Stats → Bool) :
    ∃ n, Answers halt s n (s.solve halt).1 (s.solve halt).2 := by
  change ∃ n, Answers halt s n (search halt s.begun).1 (search halt s.begun).2
  rw [search]
  cases hinc : s.inconsistent with
  | true =>
      rw [if_pos (show s.begun.inconsistent = true from hinc)]
      exact ⟨0, .inconsistent hinc⟩
  | false =>
      rw [if_neg (show ¬ s.begun.inconsistent = true by simp [begun, hinc])]
      have hroot := h.begun.rooted hinc
      have hready : Search.Ready (s.begun.cancelUntil 0) := ⟨hroot.wellFormed, hroot.settled⟩
      cases hp : (s.begun.cancelUntil 0).propagate with
      | mk s' conflict =>
          cases conflict with
          | some c => exact ⟨0, .refuted hinc hp⟩
          | none =>
              obtain ⟨n, -, hends⟩ := Search.run_ends halt (t := ⟨s', 0, 0, s'.restartLimit⟩)
                (hready.propagate hp) s'.restartLimit_pos
              exact ⟨n, .searched hinc hp hends⟩

/-- What the outcome of a call means. -/
structure Solved (halt : Stats → Bool) (s : Solver) (added : List (List Lit)) (s' : Solver)
    (verdict : Verdict) : Prop where
  represents : Represents s' added
  numVars : s'.numVars = s.numVars
  config : s'.config = s.config
  monitor : s.monitor.Follows s'.monitor
  sat : verdict = .sat → ∃ m, s'.model = some m ∧ m.values.size = s'.numVars ∧
    ∀ c ∈ added, Satisfies m.value c
  unsat : verdict = .unsat → s'.inconsistent = true
  unknown : verdict = .unknown →
    s'.monitor.raised = true ∨ s.config.maxConflicts ≠ 0 ∨ ∃ stats, halt stats = true

theorem solved_of_inconsistent {added : List (List Lit)} {s' : Solver}
    (hinc : s'.inconsistent = true)
    (hadded : ∀ α, ¬ ∀ c ∈ added, Satisfies α c) (hnumVars : s'.numVars = s.numVars)
    (hconfig : s'.config = s.config) (hmonitor : s.monitor.Follows s'.monitor) :
    Solved halt s added s' .unsat where
  represents := represents_of_unsatisfiable hinc hadded
  numVars := hnumVars
  config := hconfig
  monitor := hmonitor
  sat hv := by cases hv
  unsat _ := hinc
  unknown hv := by cases hv

theorem Answers.solved {n : Nat} {s' : Solver} {verdict : Verdict} (h : Answers halt s n s' verdict)
    {added : List (List Lit)} (hs : Represents s added) : Solved halt s added s' verdict := by
  cases h with
  | inconsistent hinc =>
      exact solved_of_inconsistent hinc (hs.unsatisfiable hinc) rfl rfl (.refl _)
  | @refuted s₁ c hinc hp =>
      have hroot := hs.begun.rooted hinc
      have hready : Search.Ready (s.begun.cancelUntil 0) := ⟨hroot.wellFormed, hroot.settled⟩
      have hprop := hready.propagation hp
      have hback := (continues_cancelUntil (hs.begun.wellFormed hinc).trail 0).trans hprop.continues
      refine solved_of_inconsistent rfl (fun α hα => ?_) hback.numVars hback.config hback.monitor
      exact (hready.conflict hp).not_models hprop.wellFormed.trail (hprop.level.trans hroot.level) α
        (hprop.continues.models α ((hroot.models α).mpr hα))
  | @searched s₁ _ _ _ hinc hp hends =>
      have hroot := hs.begun.rooted hinc
      have hready : Search.Ready (s.begun.cancelUntil 0) := ⟨hroot.wellFormed, hroot.settled⟩
      have hback := (continues_cancelUntil (hs.begun.wellFormed hinc).trail 0).trans
        (hready.propagation hp).continues
      have hreached := hends.reached (hready.propagate hp)
      have hmodels : ∀ α, s₁.Models α ↔ ∀ c ∈ added, Satisfies α c := fun α =>
        hback.models_iff.trans (hs.begun.models hinc α)
      refine ⟨?_, hreached.numVars.trans hback.numVars, hreached.config.trans hback.config,
        hback.monitor.trans hreached.monitor, fun hv => ?_, fun hv => ?_, fun hv => ?_⟩
      · by_cases hv : some verdict = some .unsat
        · obtain ⟨hunsat, hnone⟩ := hreached.unsat hv
          exact represents_of_unsatisfiable hunsat fun α hα => hnone α ((hmodels α).mpr hα)
        · obtain ⟨hready, hkept⟩ := hreached.ready hv
          have hconsistent : s'.inconsistent = false :=
            hkept.inconsistent.trans (hback.inconsistent.trans hinc)
          exact represents_of_models hready.wellFormed hready.settled hconsistent fun α =>
            hkept.models_iff.trans (hmodels α)
      · obtain ⟨m, hm, hsize, hsat⟩ := hreached.sat (congrArg some hv)
        exact ⟨m, hm, hsize, (hmodels _).mp hsat⟩
      · exact (hreached.unsat (congrArg some hv)).1
      · have hreason := hreached.unknown (congrArg some hv)
        rwa [show (s₁.config = s.config) from hback.config] at hreason

theorem Represents.solve {added : List (List Lit)} (h : Represents s added) (halt : Stats → Bool) :
    Solved halt s added (s.solve halt).1 (s.solve halt).2 := by
  obtain ⟨n, hanswers⟩ := exists_answers h halt
  exact hanswers.solved h

end Solver

end ModelExpansion.Sat
