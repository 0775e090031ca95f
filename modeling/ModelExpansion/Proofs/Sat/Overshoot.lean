import ModelExpansion.Proofs.Sat.Moments

/-! # How far a call exceeds its conflict budget
The budget is tested only when propagation ends without a conflict. A conflict returns to a lower
level, so after the one that uses up the budget there are no more of them than there are levels
left, and a conflict leaves one variable at least without a level of its own. -/

namespace ModelExpansion.Sat

namespace Solver

variable {s s' : Solver} {c : Nat}

/-! ## Levels -/

/-- The two watched literals of a conflicting clause are both of the current level, which has two
variables then. -/
theorem Conflict.level_lt_numVars (h : s.Conflict c) (hwf : s.WellFormed) :
    s.level < s.numVars := by
  have hsize := hwf.trail.size_le
  have hfirst := h.value (s.clause c).first List.mem_cons_self
  have hsecond := h.value (s.clause c).second (List.mem_cons_of_mem _ List.mem_cons_self)
  obtain ⟨i, hi⟩ := hwf.trail.exists_position (s.value_eq_no.mp hfirst)
  obtain ⟨j, hj⟩ := hwf.trail.exists_position (s.value_eq_no.mp hsecond)
  have hilt := lt_size_of_getElem? hi
  have hjlt := lt_size_of_getElem? hj
  cases hlevel : s.level with
  | zero => omega
  | succ k =>
      have hk : k < s.level := by omega
      have hdistinct := hwf.clauses.distinct h.lt
      simp only [Clause.lits, List.map_cons, List.nodup_cons, List.mem_cons, not_or] at hdistinct
      have hij : i ≠ j := by
        rintro rfl
        have heq := congrArg Lit.var (Option.some.inj (hi.symm.trans hj))
        simp only [Lit.var_negate] at heq
        exact hdistinct.1.1 heq
      have hle₁ := level_le_of_watch hwf.trail h.settled hfirst hsecond fun hq => (hq c h.lt).1
      have hle₂ := level_le_of_watch hwf.trail h.settled hsecond hfirst fun hq => (hq c h.lt).2
      -- Each lower level has a literal of its own before the ones of the current level.
      have hstart := hwf.trail.le_start hk
      have hi' := (hwf.trail.lt_start hk hi).not.mpr (by rw [levelOf_negate]; omega)
      have hj' := (hwf.trail.lt_start hk hj).not.mpr (by rw [levelOf_negate]; omega)
      omega

theorem level_learn {lesson : Lesson} (h : lesson.backjump < s.level) :
    (s.learn lesson).level = lesson.backjump := by
  have hback := level_cancelUntil (Nat.le_of_lt h)
  rw [learn]
  cases lesson.others <;> exact hback

theorem Clashing.level_learn_lt (h : Clashing s c) :
    ((s.analyze c).1.learn (s.analyze c).2).level < s.level := by
  obtain ⟨⟨activity, increment, hsolver⟩, -⟩ := analyze_spec h.wellFormed h.level h.conflict
  have hback := h.taught.backjump_lt
  rw [level_learn hback]
  rwa [hsolver] at hback

/-! ## Counters -/

theorem stats_learn (lesson : Lesson) :
    (s.learn lesson).stats = { s.stats with learned := s.stats.learned + 1 } := by
  have hback : (s.cancelUntil lesson.backjump).stats = s.stats := stats_cancelUntil
  rw [learn, ← hback]
  cases lesson.others <;> rfl

theorem Clashing.conflicts_learn (h : Clashing s c) :
    ((s.analyze c).1.learn (s.analyze c).2).stats.conflicts = s.stats.conflicts := by
  obtain ⟨⟨activity, increment, hsolver⟩, -⟩ := analyze_spec h.wellFormed h.level h.conflict
  rw [stats_learn, hsolver]

end Solver

namespace Search

open Solver

variable {halt : Stats → Bool} {t t' : Search} {s s' : Solver} {verdict : Option Verdict}
    {c budget : Nat}

theorem Ready.conflicts_propagate {conflict : Option Nat} (hr : Ready s)
    (hp : s.propagate = (s', conflict)) :
    s'.stats.conflicts = s.stats.conflicts := by
  have hprop := propagate_spec hr.wellFormed hr.settled
  rw [hp] at hprop
  rw [hprop.propagates.stats]

theorem Derivation.conflicts (h : Derivation halt t t' verdict) (hr : Ready t.solver) :
    t'.solver.stats.conflicts + t.conflicts = t.solver.stats.conflicts + t'.conflicts := by
  cases h with
  | @refuted s s' c n since limit hp h0 =>
      have hsame := hr.conflicts_propagate hp
      simp only [countConflict] at hsame ⊢
      omega
  | @learned s s' c n since limit hp h0 =>
      have hsame := hr.conflicts_propagate hp
      have hlearned := (clashing_of_propagate hr hp (Nat.pos_of_ne_zero h0)).conflicts_learn
      simp only [countConflict] at hsame hlearned ⊢
      omega
  | @stopped s s' n since limit hp _ =>
      have hsame := hr.conflicts_propagate hp
      simp only [stats_cancelUntil] at hsame ⊢
      omega
  | @restarted s s' n since limit hp _ _ =>
      have hsame := hr.conflicts_propagate hp
      simp only [stats_cancelUntil, countRestart] at hsame ⊢
      omega
  | @decided s s' l n since limit hp _ _ _ =>
      have hsame := hr.conflicts_propagate hp
      change s'.stats.conflicts + n = s.stats.conflicts + n
      simp only at hsame
      omega
  | @satisfied s s' n since limit hp _ _ _ =>
      have hsame := hr.conflicts_propagate hp
      simp only at hsame ⊢
      omega

/-! ## The pace of a search -/

/-- Once the budget is used up, there is room for one more conflict at each level that is left. -/
def Paced (budget : Nat) (t : Search) : Prop :=
  t.conflicts < budget ∨ t.conflicts + t.solver.level + 2 ≤ budget + t.solver.numVars

theorem conflicts_lt_of_mustStop {n : Nat} (hstop : s.mustStop halt n = false)
    (hbudget : s.config.maxConflicts = budget) (hpos : 0 < budget) : n < budget := by
  rw [mustStop, Bool.or_eq_false_iff, Bool.or_eq_false_iff, hbudget] at hstop
  simpa [Nat.pos_iff_ne_zero.mp hpos] using hstop.1.2

/-- A step that goes on keeps the pace: a conflict goes back by a level, and nothing else happens
once the budget is used up. -/
theorem Derivation.paced (h : Derivation halt t t' none) (hr : Ready t.solver)
    (hpaced : Paced budget t)
    (hbudget : t.solver.config.maxConflicts = budget) (hpos : 0 < budget) : Paced budget t' := by
  cases h with
  | @learned s s' c n since limit hp h0 =>
      have hprop := hr.propagation hp
      have hlt := (hr.conflict hp).level_lt_numVars hprop.wellFormed
      have hback :
          (((countConflict s').analyze c).1.learn ((countConflict s').analyze c).2).level <
          s'.level :=
        (clashing_of_propagate hr hp (Nat.pos_of_ne_zero h0)).level_learn_lt
      obtain ⟨lesson, -, hlearned⟩ := learn_analyze hprop.wellFormed h0 (hr.conflict hp)
      have hnumVars := hlearned.continues.numVars
      have hlevel := hprop.level
      have hsame := hprop.continues.numVars
      dsimp only [Paced] at *
      omega
  | @restarted s s' n since limit hp hstop hlimit =>
      exact .inl
        (conflicts_lt_of_mustStop hstop ((hr.propagation hp).continues.config ▸ hbudget) hpos)
  | @decided s s' l n since limit hp hstop hlimit hb =>
      exact .inl
        (conflicts_lt_of_mustStop hstop ((hr.propagation hp).continues.config ▸ hbudget) hpos)

/-- The last step may count a conflict too, at level zero. -/
theorem Derivation.conflicts_lt {answer : Verdict} (h : Derivation halt t t' (some answer))
    (hr : Ready t.solver) (hpaced : Paced budget t) : t'.conflicts < budget + t.solver.numVars := by
  cases h with
  | @refuted s s' c n since limit hp h0 =>
      have hprop := hr.propagation hp
      have hlt := (hr.conflict hp).level_lt_numVars hprop.wellFormed
      have hsame := hprop.continues.numVars
      dsimp only [Paced] at *
      omega
  | stopped | satisfied =>
      simp only [Paced] at hpaced ⊢
      omega

theorem Ends.conflicts_lt {n : Nat} {answer : Verdict} (h : Ends halt n t s answer)
    (hr : Ready t.solver)
    (hpaced : Paced budget t) (hbudget : t.solver.config.maxConflicts = budget)
    (hpos : 0 < budget) :
    s.stats.conflicts + t.conflicts < t.solver.stats.conflicts + budget + t.solver.numVars := by
  induction h with
  | @answer t t' verdict h =>
      have hd : Derivation halt t t' (some verdict) := by
        have hd := step_derivation halt t
        rwa [h] at hd
      have hcount := hd.conflicts hr
      have hlt := hd.conflicts_lt hr hpaced
      omega
  | @step n t t' s verdict h _ ih =>
      have hd : Derivation halt t t' none := by
        have hd := step_derivation halt t
        rwa [h] at hd
      have hreached := hd.reached hr
      have hlt := ih (hreached.ready (by simp)).1 (hd.paced hr hpaced hbudget hpos)
        ((congrArg Config.maxConflicts hreached.config).trans hbudget)
      have hcount := hd.conflicts hr
      have hnumVars := hreached.numVars
      omega

end Search

namespace Solver

open Search

/-- A call counts fewer conflicts than the budget and the number of variables together. -/
theorem conflicts_solve_lt (config : Config) (monitor : Monitor) (calls : List Call)
    (halt : Stats → Bool) (hbudget : 0 < config.maxConflicts) :
    ((reached config monitor calls).solve halt).1.stats.conflicts <
      (reached config monitor calls).stats.conflicts + config.maxConflicts +
      (reached config monitor calls).numVars := by
  have hrep := represents_reached config monitor calls
  have hconfig := config_reached config monitor calls
  generalize reached config monitor calls = s at *
  obtain ⟨n, hanswers⟩ := exists_answers hrep halt
  generalize s.solve halt = out at hanswers ⊢
  obtain ⟨s', verdict⟩ := out
  cases hanswers with
  | inconsistent hinc =>
      change s.stats.conflicts < _
      omega
  | @refuted s₁ c hinc hp =>
      have hsame := (ready_root hrep hinc).conflicts_propagate hp
      simp only [stats_cancelUntil, begun] at hsame ⊢
      omega
  | @searched s₁ _ _ _ hinc hp hends =>
      have hroot := ready_root hrep hinc
      have hback :=
        (continues_cancelUntil (hrep.begun.wellFormed hinc).trail 0).trans
          (hroot.propagation hp).continues
      have hsame := hroot.conflicts_propagate hp
      have hsolver : s₁.config = config := hback.config.trans hconfig
      have hlt :=
        hends.conflicts_lt (hroot.propagate hp) (.inl hbudget)
          (congrArg Config.maxConflicts hsolver) hbudget
      have hnumVars : s₁.numVars = s.numVars := hback.numVars
      simp only [stats_cancelUntil, begun] at hsame hlt ⊢
      omega

/-- With a budget of one conflict, the conflict with the decision is followed by one at level
zero. -/
theorem conflicts_solve_contradicting :
    ((reached { maxConflicts := 1 } {} contradicting).solve fun _ => false).2 = .unsat ∧
    (reached { maxConflicts := 1 } {} contradicting).stats.conflicts = 0 ∧
    ((reached { maxConflicts := 1 } {} contradicting).solve fun _ => false).1.stats.conflicts = 2 ∧
    ((reached { maxConflicts := 1 } {} contradicting).solve fun _ => false).1.stats.conflicts <
      0 + 1 + (reached { maxConflicts := 1 } {} contradicting).numVars := by
  refine ⟨by decide +kernel, by decide, by decide +kernel, ?_⟩
  exact conflicts_solve_lt { maxConflicts := 1 } {} contradicting (fun _ => false) (by decide)

end Solver

end ModelExpansion.Sat
