import ModelExpansion.Sat.Search
import ModelExpansion.Proofs.Sat.Insertion

/-! # The search
The rules by which a search goes on, what one step keeps, and what the answer of a finished search
means. -/

namespace ModelExpansion.Sat

namespace Solver

variable {s : Solver}

/-! ## Branching -/

theorem isAssigned_eq_false {v : Nat} : s.isAssigned v = false ↔ (s.var v).value = .unknown := by
  rw [isAssigned]
  cases (s.var v).value <;> simp [Truth.isKnown]

theorem branchVar?_spec (s : Solver) :
    (s.branchVar? = none → ∀ v < s.numVars, s.isAssigned v = true) ∧
      ∀ b, s.branchVar? = some b → b < s.numVars ∧ s.isAssigned b = false := by
  have hfold : ∀ n, (n.fold (fun v _ best => s.better best v) none = none →
      ∀ v < n, s.isAssigned v = true) ∧
      ∀ b, n.fold (fun v _ best => s.better best v) none = some b →
      b < n ∧ s.isAssigned b = false := by
    intro n
    induction n with
    | zero => exact ⟨fun _ v hv => absurd hv (Nat.not_lt_zero v), fun b hb => by cases hb⟩
    | succ n ih =>
        rw [Nat.fold_succ]
        generalize n.fold (fun v _ best => s.better best v) none = best at ih ⊢
        cases best with
        | none =>
            rw [better]
            cases hn : s.isAssigned n with
            | true =>
                refine ⟨fun _ v hv => ?_, fun b hb => by cases hb⟩
                rcases Nat.eq_or_lt_of_le (Nat.le_of_lt_succ hv) with rfl | hv
                · exact hn
                · exact ih.1 rfl v hv
            | false =>
                refine ⟨fun hb => (by cases hb), fun b hb => ?_⟩
                cases hb
                exact ⟨Nat.lt_succ_self n, hn⟩
        | some b =>
            obtain ⟨hlt, hb⟩ := ih.2 b rfl
            rw [better]
            refine ⟨fun hc => ?_, fun x hx => ?_⟩
            · split at hc <;> cases hc
            · split at hx
              · rename_i hbetter
                cases hx
                rw [Bool.and_eq_true, Bool.not_eq_true'] at hbetter
                exact ⟨Nat.lt_succ_self n, hbetter.2⟩
              · cases hx
                exact ⟨Nat.lt_succ_of_lt hlt, hb⟩
  exact hfold s.numVars

theorem branch?_eq_some {l : Lit} (h : s.branch? = some l) :
    l.var < s.numVars ∧ s.value l = .unknown := by
  obtain ⟨v, hv, rfl⟩ := Option.map_eq_some_iff.mp h
  obtain ⟨hlt, hunassigned⟩ := (branchVar?_spec s).2 v hv
  rw [value_eq_unknown, Lit.var_signed]
  exact ⟨hlt, isAssigned_eq_false.mp hunassigned⟩

theorem branch?_eq_none (h : s.branch? = none) {l : Lit} (hl : l.var < s.numVars) :
    s.value l ≠ .unknown := by
  rw [Ne, value_eq_unknown, ← isAssigned_eq_false, Bool.not_eq_false]
  exact (branchVar?_spec s).1 (Option.map_eq_none_iff.mp h) l.var hl

/-! ## Models -/

def assignment (s : Solver) : Model := ⟨s.vars.map fun x => x.value == .yes⟩

theorem value_assignment {v : Nat} : s.assignment.value v = ((s.var v).value == .yes) := by
  rw [Model.value, assignment, var]
  simp only [Array.getD_eq_getD_getElem?, Array.getElem?_map]
  cases s.vars[v]? <;> rfl

theorem holds_assignment {l : Lit} (h : s.value l = .yes) : l.Holds s.assignment.value := by
  rw [value_eq_yes] at h
  rw [Lit.Holds, value_assignment, h]
  cases l.positive <;> rfl

/-- Once everything is assigned and propagated, the values are a model. -/
theorem models_assignment (hwf : WellFormed s) (hs : s.Settled s.trail.size)
    (hb : s.branch? = none) :
    s.Models s.assignment.value := by
  refine ⟨fun hi _ => holds_assignment (hwf.trail.value_of_getElem? hi), fun {r} hr => ?_⟩
  have hfirst := List.mem_cons_self (a := (s.clause r).first) (l := (s.clause r).tail)
  have hsecond : (s.clause r).second ∈ (s.clause r).lits :=
    List.mem_cons_of_mem _ List.mem_cons_self
  have hknown := branch?_eq_none hb (hwf.clauses.var_lt hr _ hfirst)
  cases hvalue : s.value (s.clause r).first with
  | yes => exact ⟨_, hfirst, holds_assignment hvalue⟩
  | unknown => exact absurd hvalue hknown
  | no =>
      obtain ⟨i, hi⟩ := hwf.trail.exists_position (s.value_eq_no.mp hvalue)
      exact ⟨_, hsecond, holds_assignment ((hs r hr).1 i (lt_size_of_getElem? hi) hi).1⟩

end Solver

namespace Search

/-! ## Rules -/

def countConflict (s : Solver) : Solver :=
  { s with stats := { s.stats with conflicts := s.stats.conflicts + 1 } }

def countRestart (s : Solver) : Solver :=
  { s with stats := { s.stats with restarts := s.stats.restarts + 1 } }

/-- The rules of the search: what a step leads to, with the answer if it is the last one. -/
inductive Derivation (halt : Stats → Bool) : Search → Search → Option Verdict → Prop where
  | refuted {s s' c n since limit} (hp : s.propagate = (s', some c)) (h0 : s'.level = 0) :
      Derivation halt ⟨s, n, since, limit⟩
        ⟨{ countConflict s' with inconsistent := true }, n + 1, since + 1, limit⟩ (some .unsat)
  | learned {s s' c n since limit} (hp : s.propagate = (s', some c)) (h0 : s'.level ≠ 0) :
      Derivation halt ⟨s, n, since, limit⟩
        ⟨((countConflict s').analyze c).1.learn ((countConflict s').analyze c).2, n + 1,
          since + 1, limit⟩ none
  | stopped {s s' n since limit} (hp : s.propagate = (s', none))
      (hstop : s'.mustStop halt n = true) :
      Derivation halt ⟨s, n, since, limit⟩ ⟨s'.cancelUntil 0, n, since, limit⟩ (some .unknown)
  | restarted {s s' n since limit} (hp : s.propagate = (s', none))
      (hstop : s'.mustStop halt n = false)
      (hr : limit ≤ since) :
      Derivation halt ⟨s, n, since, limit⟩
        ⟨(countRestart s').cancelUntil 0, n, 0, (countRestart s').restartLimit⟩ none
  | decided {s s' l n since limit} (hp : s.propagate = (s', none))
      (hstop : s'.mustStop halt n = false)
      (hr : since < limit) (hb : s'.branch? = some l) :
      Derivation halt ⟨s, n, since, limit⟩ ⟨s'.decide l, n, since, limit⟩ none
  | satisfied {s s' n since limit} (hp : s.propagate = (s', none))
      (hstop : s'.mustStop halt n = false)
      (hr : since < limit) (hb : s'.branch? = none) :
      Derivation halt ⟨s, n, since, limit⟩
        ⟨{ s' with model := some s'.assignment }, n, since, limit⟩ (some .sat)

theorem step_derivation (halt : Stats → Bool) (t : Search) :
    Derivation halt t (t.step halt).1 (t.step halt).2 := by
  obtain ⟨s, n, since, limit⟩ := t
  rw [step]
  cases hp : s.propagate with
  | mk s' conflict =>
      cases conflict with
      | some c =>
          dsimp only
          split
          · rename_i h0
            exact .refuted hp h0
          · rename_i h0
            exact .learned hp h0
      | none =>
          dsimp only
          split
          · rename_i hstop
            exact .stopped hp hstop
          · rename_i hstop
            rw [Bool.not_eq_true] at hstop
            split
            · rename_i hr
              exact .restarted hp hstop hr
            · rename_i hr
              have hr : since < limit := Nat.lt_of_not_le hr
              cases hb : s'.branch? with
              | some l => exact .decided hp hstop hr hb
              | none => exact .satisfied hp hstop hr hb

/-! ## One step -/

/-- What holds between two steps. -/
structure Ready (s : Solver) : Prop where
  wellFormed : s.WellFormed
  settled : s.Settled s.queueHead

/-- What propagation from a solver that is ready leads to. -/
structure Propagation (s s' : Solver) : Prop where
  wellFormed : s'.WellFormed
  continues : s.Continues s'
  level : s'.level = s.level

theorem Ready.propagation {s s' : Solver} {conflict : Option Nat} (hr : Ready s)
    (hp : s.propagate = (s', conflict)) : Propagation s s' := by
  have hprop := Solver.propagate_spec hr.wellFormed hr.settled
  have hcontinues := hprop.propagates.continues hr.wellFormed.trail
  rw [hp] at hprop hcontinues
  exact ⟨hprop.wellFormed, hcontinues, hprop.propagates.level⟩

theorem Ready.conflict {s s' : Solver} {c : Nat} (hr : Ready s) (hp : s.propagate = (s', some c)) :
    s'.Conflict c := by
  have hprop := Solver.propagate_spec hr.wellFormed hr.settled
  rw [hp] at hprop
  exact hprop.conflict rfl

theorem Ready.settled_propagate {s s' : Solver} (hr : Ready s) (hp : s.propagate = (s', none)) :
    s'.Settled s'.trail.size ∧ s'.queueHead = s'.trail.size := by
  have hprop := Solver.propagate_spec hr.wellFormed hr.settled
  rw [hp] at hprop
  exact hprop.settled rfl

theorem Ready.propagate {s s' : Solver} (hr : Ready s)
    (hp : s.propagate = (s', none)) : Ready s' := by
  obtain ⟨hdone, hhead⟩ := hr.settled_propagate hp
  exact ⟨(hr.propagation hp).wellFormed, hhead ▸ hdone⟩

theorem Ready.cancelUntil {s : Solver} (hr : Ready s) (k : Nat) : Ready (s.cancelUntil k) :=
  ⟨hr.wellFormed.cancelUntil k, hr.settled.cancelUntil_queueHead hr.wellFormed.trail k⟩

theorem reason_of_mustStop {halt : Stats → Bool} {s : Solver} {n : Nat}
    (h : s.mustStop halt n = true) :
    s.monitor.raised = true ∨ s.config.maxConflicts ≠ 0 ∨ ∃ stats, halt stats = true := by
  rw [Solver.mustStop, Bool.or_eq_true, Bool.or_eq_true, Bool.and_eq_true] at h
  rcases h with (hraised | ⟨hbudget, -⟩) | hhalt
  · exact .inl hraised
  · exact .inr (.inl (bne_iff_ne.mp hbudget))
  · exact .inr (.inr ⟨_, hhalt⟩)

/-- What a search that has got to an answer, or to no answer yet, has done to its solver. -/
structure Reached (halt : Stats → Bool) (s s' : Solver) (verdict : Option Verdict) : Prop where
  numVars : s'.numVars = s.numVars
  config : s'.config = s.config
  monitor : s.monitor.Follows s'.monitor
  ready : verdict ≠ some .unsat → Ready s' ∧ s.Continues s'
  sat : verdict = some .sat → ∃ m, s'.model = some m ∧ m.values.size = s'.numVars ∧ s.Models m.value
  unsat : verdict = some .unsat → s'.inconsistent = true ∧ ∀ α, ¬ s.Models α
  unknown : verdict = some .unknown →
    s'.monitor.raised = true ∨ s.config.maxConflicts ≠ 0 ∨ ∃ stats, halt stats = true

theorem Reached.of_continues {halt : Stats → Bool} {s s' : Solver} (h : s.Continues s')
    (hr : Ready s') :
    Reached halt s s' none where
  numVars := h.numVars
  config := h.config
  monitor := h.monitor
  ready _ := ⟨hr, h⟩
  sat hv := by cases hv
  unsat hv := by cases hv
  unknown hv := by cases hv

theorem Reached.trans {halt : Stats → Bool} {s s' s'' : Solver} {verdict : Option Verdict}
    (h : Reached halt s s' none) (h' : Reached halt s' s'' verdict) :
    Reached halt s s'' verdict := by
  have hcontinues := (h.ready (by simp)).2
  refine ⟨h'.numVars.trans h.numVars, h'.config.trans h.config, h.monitor.trans h'.monitor,
    fun hv => ⟨(h'.ready hv).1, hcontinues.trans (h'.ready hv).2⟩, fun hv => ?_, fun hv =>
      ?_, fun hv => ?_⟩
  · obtain ⟨m, hm, hsize, hmodels⟩ := h'.sat hv
    exact ⟨m, hm, hsize, hcontinues.models_iff.mp hmodels⟩
  · obtain ⟨hinc, hnone⟩ := h'.unsat hv
    exact ⟨hinc, fun α hα => hnone α (hcontinues.models α hα)⟩
  · rw [← h.config]
    exact h'.unknown hv

/-- Analysing a conflict leaves a solver in which its lesson can be learned. -/
theorem learn_analyze {s : Solver} {c : Nat} (hwf : s.WellFormed) (h0 : s.level ≠ 0)
    (hc : s.Conflict c) :
    ∃ lesson, Analysis.Taught s lesson ∧
      s.Learned (lesson.asserting :: lesson.others)
        (((countConflict s).analyze c).1.learn ((countConflict s).analyze c).2) := by
  have hcounted : (countConflict s).WellFormed := hwf.bookkeeping _ _ _ _ _ _
  obtain ⟨⟨activity, increment, hsolver⟩, htaught⟩ :=
    Solver.analyze_spec hcounted (Nat.pos_of_ne_zero h0) ⟨hc.lt, hc.value, hc.settled⟩
  generalize (countConflict s).analyze c = out at hsolver htaught
  obtain ⟨s', lesson⟩ := out
  dsimp only at hsolver htaught ⊢
  have hagain : Analysis.Taught s lesson :=
    ⟨htaught.value, htaught.level, htaught.others, htaught.distinct,
    htaught.backjump_lt, htaught.unit, htaught.second, fun α hα =>
      htaught.implied α ⟨hα.root, hα.clause⟩⟩
  refine ⟨lesson, hagain, ?_⟩
  have hwf' : s'.WellFormed := hsolver ▸ hcounted.bookkeeping _ activity increment _ _ _
  have hcontinues : s.Continues s' :=
    hsolver ▸ Solver.continues_bookkeeping s _ activity increment s.model
  subst hsolver
  refine (Solver.learn_spec hwf' ?_ hc.settled).of_continues hcontinues
  exact ⟨htaught.value, htaught.level, htaught.others, htaught.distinct, htaught.backjump_lt,
    htaught.unit,
    htaught.second, fun α hα => htaught.implied α ⟨hα.root, hα.clause⟩⟩

theorem Derivation.reached {halt : Stats → Bool} {t t' : Search} {verdict : Option Verdict}
    (h : Derivation halt t t' verdict) (hr : Ready t.solver) :
    Reached halt t.solver t'.solver verdict := by
  cases h with
  | @refuted s s' c n since limit hp h0 =>
      have hprop := hr.propagation hp
      refine ⟨hprop.continues.numVars, hprop.continues.config, hprop.continues.monitor,
        fun hv => absurd rfl hv,
        fun hv => (by cases hv), fun _ => ⟨rfl, fun α hα => ?_⟩, fun hv => (by cases hv)⟩
      exact (hr.conflict hp).not_models hprop.wellFormed.trail h0 α (hprop.continues.models α hα)
  | @learned s s' c n since limit hp h0 =>
      have hprop := hr.propagation hp
      obtain ⟨lesson, -, hlearned⟩ := learn_analyze hprop.wellFormed h0 (hr.conflict hp)
      exact .of_continues (hprop.continues.trans hlearned.continues)
        ⟨hlearned.wellFormed, hlearned.settled⟩
  | @stopped s s' n since limit hp hstop =>
      have hprop := hr.propagation hp
      have hback := Solver.continues_cancelUntil hprop.wellFormed.trail 0
      have hkept := hprop.continues.trans hback
      refine ⟨hkept.numVars, hkept.config, hkept.monitor,
        fun _ => ⟨(hr.propagate hp).cancelUntil 0, hkept⟩,
        fun hv => (by cases hv), fun hv => (by cases hv), fun _ => ?_⟩
      rcases reason_of_mustStop hstop with hraised | hreason
      · exact .inl (hback.monitor.raised hraised)
      · exact .inr ((show s'.config = s.config from hprop.continues.config) ▸ hreason)
  | @restarted s s' n since limit hp hstop hlimit =>
      have hcount : s'.Continues (countRestart s') := Solver.continues_bookkeeping _ _ _ _ _
      have hcounted : Ready (countRestart s') :=
        ⟨(hr.propagate hp).wellFormed.bookkeeping _ _ _ _ _ _, (hr.propagate hp).settled⟩
      exact .of_continues (((hr.propagation hp).continues.trans hcount).trans
        (Solver.continues_cancelUntil hcounted.wellFormed.trail 0)) (hcounted.cancelUntil 0)
  | @decided s s' l n since limit hp hstop hlimit hb =>
      have hprop := hr.propagation hp
      obtain ⟨hdone, hhead⟩ := hr.settled_propagate hp
      obtain ⟨hlt, hunknown⟩ := Solver.branch?_eq_some hb
      exact .of_continues
        (hprop.continues.trans (Solver.continues_decide hprop.wellFormed.trail hunknown hlt))
        ⟨hprop.wellFormed.decide hunknown hlt hhead,
          Solver.Settled.decide (hhead.symm ▸ hdone) hprop.wellFormed.trail hunknown⟩
  | @satisfied s s' n since limit hp hstop hlimit hb =>
      have hprop := hr.propagation hp
      have hready := hr.propagate hp
      have hanswer : s'.Continues { s' with model := some s'.assignment } :=
        Solver.continues_bookkeeping s' s'.stats s'.activity s'.increment (some s'.assignment)
      have hkept := hprop.continues.trans hanswer
      refine ⟨hkept.numVars, hkept.config, hkept.monitor,
        fun _ => ⟨⟨hready.wellFormed.bookkeeping _ _ _ _ _ _, hready.settled⟩, hkept⟩,
        fun _ => ⟨s'.assignment, rfl, ?_, ?_⟩, fun hv => (by cases hv), fun hv => (by cases hv)⟩
      · exact Array.size_map
      · exact hprop.continues.models_iff.mp
          (Solver.models_assignment hprop.wellFormed (hr.settled_propagate hp).1 hb)

/-! ## Whole searches -/

/-- The search without a bound on its steps: after so many steps it answers. -/
inductive Ends (halt : Stats → Bool) : Nat → Search → Solver → Verdict → Prop where
  | answer {t t' : Search} {verdict} (h : t.step halt = (t', some verdict)) :
      Ends halt 1 t t'.solver verdict
  | step {n t t' s verdict} (h : t.step halt = (t', none)) (rest : Ends halt n t' s verdict) :
      Ends halt (n + 1) t s verdict

theorem Ends.reached {halt : Stats → Bool} {n : Nat} {t : Search} {s : Solver} {verdict : Verdict}
    (h : Ends halt n t s verdict) (hr : Ready t.solver) :
    Reached halt t.solver s (some verdict) := by
  induction h with
  | @answer t t' verdict h =>
      have hd := step_derivation halt t
      rw [h] at hd
      exact hd.reached hr
  | @step n t t' s verdict h _ ih =>
      have hd := step_derivation halt t
      rw [h] at hd
      have hreached : Reached halt t.solver t'.solver none := hd.reached hr
      exact hreached.trans (ih (hreached.ready (by simp)).1)

/-- A search that ends within the bound is not cut short. -/
theorem Ends.run {halt : Stats → Bool} {n count : Nat} {t : Search} {s : Solver} {verdict : Verdict}
    (h : Ends halt n t s verdict) (hn : n ≤ count) : Search.run halt count t = (s, verdict) := by
  induction h generalizing count with
  | @answer t t' verdict h =>
      obtain ⟨count, rfl⟩ := Nat.exists_eq_add_of_le' hn
      rw [Search.run, h]
  | @step n t t' s verdict h _ ih =>
      obtain ⟨count, rfl⟩ := Nat.exists_eq_add_of_le' hn
      rw [← Nat.add_assoc, Search.run, h]
      exact ih (Nat.le_add_left n count)

end Search

end ModelExpansion.Sat
