import ModelExpansion.Proofs.Sat.Search

/-! # The conflict budget
The budget is looked at only to decide whether a search gives up. Everything else that the solver
does is the same under every budget, so a search that was not given up would have gone the same way
without one. -/

namespace ModelExpansion.Sat

namespace Solver

def withBudget (n : Nat) (s : Solver) : Solver :=
  { s with config := { s.config with maxConflicts := n } }

variable (n : Nat) (s : Solver)

/-! ## Changes of the state -/

theorem newVar_withBudget : (s.withBudget n).newVar = s.newVar.withBudget n := rfl

theorem repeat_newVar_withBudget (count : Nat) :
    Nat.repeat newVar count (s.withBudget n) = (Nat.repeat newVar count s).withBudget n := by
  induction count with
  | zero => rfl
  | succ count ih => rw [Nat.repeat, Nat.repeat, ih, newVar_withBudget]

theorem ensureAll_withBudget (lits : List Lit) :
    (s.withBudget n).ensureAll lits = (s.ensureAll lits).withBudget n :=
  List.foldl_hom (withBudget n) fun s l => s.repeat_newVar_withBudget n (l.var + 1 - s.numVars)

theorem assign_withBudget (l : Lit) (reason : Option Nat) :
    (s.withBudget n).assign l reason = (s.assign l reason).withBudget n := rfl

theorem cancelUntil_withBudget (level : Nat) :
    (s.withBudget n).cancelUntil level = (s.cancelUntil level).withBudget n := by
  rw [cancelUntil, cancelUntil, apply_ite (withBudget n)]
  rfl

/-! ## Propagation -/

theorem visit_withBudget (falsified : Lit) (watchers : List Nat) (kept : Array Nat) :
    visit falsified watchers kept (s.withBudget n) =
      ((visit falsified watchers kept s).1.withBudget n, (visit falsified watchers kept s).2) := by
  induction watchers generalizing kept s with
  | nil => rfl
  | cons index rest ih =>
      obtain ⟨s₁, hs₁⟩ : ∃ s₁, s₁ = s.modifyClause index (Clause.orient falsified) := ⟨_, rfl⟩
      have hs₁' : s₁.withBudget n = (s.withBudget n).modifyClause index
          (Clause.orient falsified) := by
        rw [hs₁]
        rfl
      by_cases hfirst : (s₁.value (s₁.clause index).first).isYes = true
      · rw [visit_of_satisfied _ hs₁ hfirst, visit_of_satisfied _ hs₁' hfirst, ih]
      · cases hposition : (s₁.clause index).position? (fun l => !(s₁.value l).isNo) with
        | some i =>
            rw [visit_of_position _ hs₁ hfirst hposition,
              visit_of_position _ hs₁' hfirst hposition, ← ih]
            rfl
        | none =>
            by_cases hconflict : (s₁.value (s₁.clause index).first).isNo = true
            · rw [visit_of_conflict _ hs₁ hfirst hposition hconflict,
                visit_of_conflict _ hs₁' hfirst hposition hconflict]
            · rw [visit_of_unit _ hs₁ hfirst hposition hconflict,
                visit_of_unit _ hs₁' hfirst hposition hconflict, ← ih]
              rfl

theorem dequeue?_withBudget :
    (s.withBudget n).dequeue? = s.dequeue?.map fun taken =>
      (taken.1, taken.2.1, taken.2.2.withBudget n) := by
  have htrail : (s.withBudget n).trail[(s.withBudget n).queueHead]? = s.trail[s.queueHead]? := rfl
  rw [dequeue?, dequeue?, htrail]
  cases s.trail[s.queueHead]? <;> rfl

theorem propagateUpTo_withBudget (count : Nat) :
    propagateUpTo count (s.withBudget n) =
      ((propagateUpTo count s).1.withBudget n, (propagateUpTo count s).2) := by
  induction count generalizing s with
  | zero => rfl
  | succ count ih =>
      rw [propagateUpTo, propagateUpTo, dequeue?_withBudget]
      cases s.dequeue? with
      | none => rfl
      | some taken =>
          obtain ⟨p, watchers, s⟩ := taken
          have hvisit := visit_withBudget n s p.negate watchers.toList #[]
          cases hs : visit p.negate watchers.toList #[] s with
          | mk s₁ rest =>
              obtain ⟨kept, conflict⟩ := rest
              rw [hs] at hvisit
              simp only [Option.map_some, hvisit, hs]
              cases conflict with
              | none => exact ih { s₁ with watches := s₁.watches.setIfInBounds p.code kept }
              | some index => rfl

theorem propagate_withBudget :
    (s.withBudget n).propagate = (s.propagate.1.withBudget n, s.propagate.2) :=
  propagateUpTo_withBudget n s _

/-! ## Clauses -/

section

variable {s s₁ : Solver} {lits left : List Lit} (n : Nat)

theorem Leaves.withBudget (h : Leaves s lits s₁ left) :
    Leaves (s.withBudget n) lits (s₁.withBudget n) left where
  consistent := h.consistent
  prepared := by rw [h.prepared, cancelUntil_withBudget, ensureAll_withBudget]
  kept := h.kept
  left := h.left

theorem Insertion.withBudget {out : Solver × Bool} (h : Insertion s lits out) :
    Insertion (s.withBudget n) lits (out.1.withBudget n, out.2) := by
  cases h with
  | refused hinc => exact .refused hinc
  | dropped hinc hprepared htrue =>
      refine .dropped hinc ?_ htrue
      rw [hprepared, cancelUntil_withBudget, ensureAll_withBudget]
  | empty h => exact .empty (h.withBudget n)
  | unit h hp =>
      refine .unit (h.withBudget n) ?_
      rw [assign_withBudget, propagate_withBudget, hp]
  | @conflict s₁ s₂ l c h hp =>
      have hp' : ((s₁.withBudget n).assign l none).propagate = (s₂.withBudget n, some c) := by
        rw [assign_withBudget, propagate_withBudget, hp]
      exact .conflict (h.withBudget n) hp'
  | stored h => exact .stored (h.withBudget n)

end

theorem addClause_withBudget (lits : List Lit) :
    (s.withBudget n).addClause lits = ((s.addClause lits).1.withBudget n, (s.addClause lits).2) :=
  ((addClause_insertion s lits).withBudget n).execution

/-! ## Learning -/

theorem bump_withBudget (v : Nat) : (s.withBudget n).bump v = (s.bump v).withBudget n := by
  simp only [bump, apply_dite (withBudget n), apply_ite (withBudget n)]
  rfl

theorem setSeen_withBudget (v : Nat) (seen : Bool) :
    (s.withBudget n).setSeen v seen = (s.setSeen v seen).withBudget n := rfl

end Solver

namespace Analysis

def withBudget (n : Nat) (a : Analysis) : Analysis := { a with solver := a.solver.withBudget n }

variable (n : Nat)

theorem mark_withBudget (a : Analysis) (l : Lit) :
    mark (a.withBudget n) l = (mark a l).withBudget n := by
  obtain ⟨s, lower, pending⟩ := a
  have hmarked : ((s.withBudget n).bump l.var).setSeen l.var true =
      ((s.bump l.var).setSeen l.var true).withBudget n := by
    rw [Solver.bump_withBudget, Solver.setSeen_withBudget]
  by_cases hseen : ((s.var l.var).seen || (s.var l.var).level == 0) = true
  · rw [mark, mark, if_pos hseen]
    exact if_pos hseen
  · rw [mark, mark, if_neg hseen]
    refine (if_neg hseen).trans ?_
    by_cases hcurrent : s.level ≤ (s.var l.var).level
    · rw [if_pos hcurrent]
      exact (if_pos hcurrent).trans (congrArg (Analysis.mk · lower (pending + 1)) hmarked)
    · rw [if_neg hcurrent]
      exact (if_neg hcurrent).trans (congrArg (Analysis.mk · (lower.push l) pending) hmarked)

theorem markAll_withBudget (a : Analysis) (lits : List Lit) :
    markAll (a.withBudget n) lits = (markAll a lits).withBudget n :=
  List.foldl_hom (withBudget n) (mark_withBudget n)

theorem walk_withBudget (index : Nat) (a : Analysis) :
    walk index (a.withBudget n) = ((walk index a).1.withBudget n, (walk index a).2) := by
  induction index generalizing a with
  | zero => rfl
  | succ index ih =>
      obtain ⟨s, lower, pending⟩ := a
      by_cases hseen : (s.var (s.trail.getD index default).var).seen = true
      · rw [walk, walk, if_pos hseen]
        refine (if_pos hseen).trans ?_
        rcases pending with _ | _ | pending
        · rfl
        · rfl
        · cases hreason : (s.var (s.trail.getD index default).var).reason with
          | none =>
              have hreason' :
                  ((s.withBudget n).var ((s.withBudget n).trail.getD index default).var).reason =
                  none := hreason
              simp only [withBudget, hreason']
              rfl
          | some r =>
              have hreason' :
                  ((s.withBudget n).var ((s.withBudget n).trail.getD index default).var).reason =
                  some r := hreason
              have hmarked := markAll_withBudget n
                ⟨s.setSeen (s.trail.getD index default).var false, lower, pending + 1⟩
                ((s.setSeen (s.trail.getD index default).var false).clause r).tail
              simp only [withBudget, hreason']
              exact (congrArg (walk index) hmarked).trans (ih _)
      · rw [walk, walk, if_neg hseen, ← ih]
        exact if_neg hseen

end Analysis

namespace Solver

variable (n : Nat) (s : Solver)

theorem trace_withBudget (conflict : Nat) :
    (s.withBudget n).trace conflict =
      ((s.trace conflict).1.withBudget n, (s.trace conflict).2) := by
  rw [trace, trace]
  have hmarked := Analysis.markAll_withBudget n ⟨s, #[], 0⟩ (s.clause conflict).lits
  change Analysis.walk s.trail.size
    (Analysis.markAll (Analysis.withBudget n ⟨s, #[], 0⟩) (s.clause conflict).lits) = _
  rw [hmarked, Analysis.walk_withBudget]

theorem analyze_withBudget (conflict : Nat) :
    (s.withBudget n).analyze conflict =
      ((s.analyze conflict).1.withBudget n, (s.analyze conflict).2) := by
  rw [analyze, analyze, trace_withBudget]
  obtain ⟨⟨s, lower, pending⟩, p, ending⟩ := s.trace conflict
  have hcleared : lower.foldl (fun s l => s.setSeen l.var false) (s.withBudget n) =
      (lower.foldl (fun s l => s.setSeen l.var false) s).withBudget n :=
    Array.foldl_hom (withBudget n) fun s l => s.setSeen_withBudget n l.var false
  simp only [Analysis.withBudget, hcleared]
  rfl

theorem learn_withBudget (lesson : Lesson) :
    (s.withBudget n).learn lesson = (s.learn lesson).withBudget n := by
  rw [learn, learn, cancelUntil_withBudget]
  cases lesson.others <;> rfl

end Solver

/-! ## Searching without a budget -/

namespace Search

def withBudget (n : Nat) (t : Search) : Search := { t with solver := t.solver.withBudget n }

variable {halt : Stats → Bool} {t t' : Search} {verdict : Option Verdict}

theorem Derivation.step_eq (h : Derivation halt t t' verdict) : t.step halt = (t', verdict) := by
  cases h with
  | refuted hp h0 =>
      rw [step, hp]
      exact if_pos h0
  | learned hp h0 =>
      rw [step, hp]
      exact if_neg h0
  | stopped hp hstop =>
      rw [step, hp]
      exact if_pos hstop
  | restarted hp hstop hr =>
      rw [step, hp]
      simp only [hstop, Bool.false_eq_true, if_false, if_pos hr]
      rfl
  | decided hp hstop hr hb =>
      rw [step, hp]
      simp only [hstop, Bool.false_eq_true, if_false, if_neg (Nat.not_le_of_lt hr), hb]
  | satisfied hp hstop hr hb =>
      rw [step, hp]
      simp only [hstop, Bool.false_eq_true, if_false, if_neg (Nat.not_le_of_lt hr), hb]
      rfl

theorem mustStop_withBudget_zero {s : Solver} {conflicts : Nat}
    (h : s.mustStop halt conflicts = false) :
    (s.withBudget 0).mustStop halt conflicts = false := by
  rw [Solver.mustStop, Bool.or_eq_false_iff, Bool.or_eq_false_iff] at h
  rw [Solver.mustStop, Bool.or_eq_false_iff, Bool.or_eq_false_iff]
  exact ⟨⟨h.1.1, rfl⟩, h.2⟩

/-- A step that does not give up is the same without a budget. -/
theorem Derivation.withBudget_zero (h : Derivation halt t t' verdict)
    (hverdict : verdict ≠ some .unknown) :
    Derivation halt (t.withBudget 0) (t'.withBudget 0) verdict := by
  have hpropagate : ∀ {s s' : Solver} {conflict : Option Nat}, s.propagate = (s', conflict) →
      (s.withBudget 0).propagate = (s'.withBudget 0, conflict) := by
    intro s s' conflict hp
    rw [Solver.propagate_withBudget, hp]
  cases h with
  | refuted hp h0 => exact .refuted (hpropagate hp) h0
  | @learned s s' c n since limit hp h0 =>
      have hanalyze := (countConflict s').analyze_withBudget 0 c
      change (countConflict (s'.withBudget 0)).analyze c = _ at hanalyze
      have hlearned : Derivation halt (withBudget 0 ⟨s, n, since, limit⟩)
          ⟨((countConflict (s'.withBudget 0)).analyze c).1.learn
            ((countConflict (s'.withBudget 0)).analyze c).2,
            n + 1, since + 1, limit⟩ none := .learned (hpropagate hp) h0
      rwa [hanalyze, Solver.learn_withBudget] at hlearned
  | stopped _ _ => exact absurd rfl hverdict
  | @restarted s s' n since limit hp hstop hr =>
      have hrestarted := Derivation.restarted (hpropagate hp) (mustStop_withBudget_zero hstop) hr
      have hcancel := (countRestart s').cancelUntil_withBudget 0 0
      change (countRestart (s'.withBudget 0)).cancelUntil 0 = _ at hcancel
      rwa [hcancel] at hrestarted
  | decided hp hstop hr hb => exact .decided (hpropagate hp) (mustStop_withBudget_zero hstop) hr hb
  | satisfied hp hstop hr hb =>
    exact .satisfied (hpropagate hp) (mustStop_withBudget_zero hstop) hr hb

theorem step_withBudget_zero (h : (t.step halt).2 ≠ some .unknown) :
    (t.withBudget 0).step halt = ((t.step halt).1.withBudget 0, (t.step halt).2) :=
  ((step_derivation halt t).withBudget_zero h).step_eq

/-- A search that is not given up is the same without a budget. -/
theorem run_withBudget_zero {count : Nat} (h : (run halt count t).2 ≠ .unknown) :
    run halt count (t.withBudget 0) =
      ((run halt count t).1.withBudget 0, (run halt count t).2) := by
  induction count generalizing t with
  | zero => exact absurd rfl h
  | succ count ih =>
      cases hstep : t.step halt with
      | mk t' verdict =>
          have hnext : (t.step halt).2 ≠ some .unknown →
              (t.withBudget 0).step halt = ((t.step halt).1.withBudget 0, (t.step halt).2) :=
            step_withBudget_zero
          rw [hstep] at hnext
          cases verdict with
          | some verdict =>
              have hrun : run halt (count + 1) t = (t'.solver, verdict) := by rw [run, hstep]
              rw [hrun] at h
              rw [hrun, run, hnext fun heq => h (Option.some.inj heq)]
              rfl
          | none =>
              have hrun : run halt (count + 1) t = run halt count t' := by rw [run, hstep]
              rw [hrun] at h
              rw [hrun, run, hnext (Option.some_ne_none _).symm]
              exact ih h

end Search

namespace Solver

variable {halt : Stats → Bool} {s : Solver}

/-- A call that is not given up is the same without a budget. -/
theorem solve_withBudget_zero (h : (s.solve halt).2 ≠ .unknown) :
    (s.withBudget 0).solve halt = ((s.solve halt).1.withBudget 0, (s.solve halt).2) := by
  obtain ⟨t, ht⟩ : ∃ t : Solver,
      t = { s with model := none, stats := { s.stats with solves := s.stats.solves + 1 } } :=
    ⟨_, rfl⟩
  have hpropagate := (t.cancelUntil 0).propagate_withBudget 0
  rw [← cancelUntil_withBudget] at hpropagate
  have hsolve : s.solve halt = t.search halt := ht ▸ rfl
  have hsolve' : (s.withBudget 0).solve halt = (t.withBudget 0).search halt := ht ▸ rfl
  rw [hsolve] at h
  rw [hsolve, hsolve']
  cases hinc : t.inconsistent with
  | true =>
      rw [search, search, hinc]
      exact if_pos hinc
  | false =>
      have hinc' : (t.withBudget 0).inconsistent = false := hinc
      rw [search, hinc, if_neg Bool.false_ne_true] at h
      rw [search, search, hinc, hinc', if_neg Bool.false_ne_true, if_neg Bool.false_ne_true]
      cases hp : (t.cancelUntil 0).propagate with
      | mk s' conflict =>
          rw [hp] at hpropagate h
          rw [hpropagate]
          cases conflict with
          | some _ => rfl
          | none => exact Search.run_withBudget_zero h

end Solver

end ModelExpansion.Sat
