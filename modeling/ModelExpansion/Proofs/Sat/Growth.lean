import ModelExpansion.Proofs.Sat.Updates

/-! # Adding variables, levels and clauses
A new variable changes nothing, a decision opens a level with one literal, and a stored clause has
to be satisfied from then on. -/

namespace ModelExpansion.Sat.Solver

variable {s : Solver}

/-! ## Variables -/

section NewVar

@[simp] theorem numVars_newVar (s : Solver) : s.newVar.numVars = s.numVars + 1 := by
  simp only [numVars, newVar, Array.size_push]

/-- A variable that does not exist looks like a new one. -/
@[simp] theorem var_newVar (s : Solver) (v : Nat) : s.newVar.var v = s.var v := by
  change (s.vars.push {}).getD v default = s.vars.getD v default
  rw [getD_push]
  split
  · rename_i hv
    rw [Array.getD_eq_getD_getElem?, Array.getElem?_eq_none (Nat.le_of_eq hv.symm)]
    rfl
  · rfl

@[simp] theorem value_newVar (s : Solver) (l : Lit) : s.newVar.value l = s.value l := by
  rw [value, var_newVar, value]

@[simp] theorem levelOf_newVar (s : Solver) (l : Lit) : s.newVar.levelOf l = s.levelOf l := by
  rw [levelOf, var_newVar, levelOf]

@[simp] theorem watchers_newVar (s : Solver) (l : Lit) : s.newVar.watchers l = s.watchers l := by
  change (((s.watches.push #[]).push #[]).getD l.code #[]).toList = _
  rw [getD_push, getD_push, watchers]
  split
  · rename_i hl
    rw [Array.getD_eq_getD_getElem?, Array.getElem?_eq_none (by rw [hl, Array.size_push]; omega)]
    rfl
  · split
    · rename_i hl
      rw [Array.getD_eq_getD_getElem?, Array.getElem?_eq_none (Nat.le_of_eq hl.symm)]
      rfl
    · rfl

theorem WellFormed.newVar (h : WellFormed s) : WellFormed s.newVar where
  trail := by
    refine ⟨fun l => ?_, h.trail.position, h.trail.head_le, h.trail.start_le, h.trail.le_start,
      h.trail.level_le, fun {i l} hi => ?_, fun {k i l} hk hi => ?_⟩
    · rw [value_newVar]
      exact h.trail.mem_iff l
    · rw [levelOf_newVar]
      exact h.trail.levelOf_le hi
    · rw [levelOf_newVar]
      exact h.trail.lt_start hk hi
  clauses := by
    refine ⟨fun {r} hr l hl => ?_, h.clauses.distinct⟩
    rw [numVars_newVar]
    exact Nat.lt_succ_of_lt (h.clauses.var_lt hr l hl)
  reasons := by
    refine ⟨fun {i l r} hi hr => ?_, fun {i l} hi hr => ?_⟩ <;> rw [var_newVar] at hr
    · exact h.reasons.implied hi hr
    · rw [levelOf_newVar]
      exact h.reasons.decided hi hr
  watches := by
    refine ⟨?_, fun l r => ?_⟩
    · rw [numVars_newVar]
      change ((s.watches.push #[]).push #[]).size = _
      rw [Array.size_push, Array.size_push, h.watches.size]
      omega
    · rw [watchers_newVar]
      exact h.watches.count l r
  unmarked v := by
    rw [var_newVar]
    exact h.unmarked v

theorem Settled.newVar {q : Nat} (h : s.Settled q) : s.newVar.Settled q := by
  intro r hr
  refine ⟨fun i hi hw => ?_, fun i hi hw => ?_⟩ <;>
    rw [value_newVar, levelOf_newVar, levelOf_newVar]
  · exact (h r hr).1 i hi hw
  · exact (h r hr).2 i hi hw

theorem models_newVar {α : Nat → Bool} : s.newVar.Models α ↔ s.Models α := by
  constructor
  · intro h
    exact ⟨fun hi h0 => h.root hi (by rwa [levelOf_newVar]), h.clause⟩
  · intro h
    exact ⟨fun hi h0 => h.root hi (by rwa [levelOf_newVar] at h0), h.clause⟩

end NewVar

/-! ## Decisions -/

section Decide

variable {l : Lit}

/-- The solver with a new level that is still empty. -/
def openLevel (s : Solver) : Solver :=
  { s with
    levelStarts := s.levelStarts.push s.trail.size
    stats := { s.stats with decisions := s.stats.decisions + 1 } }

theorem decide_eq (s : Solver) (l : Lit) : s.decide l = s.openLevel.assign l none := rfl

theorem level_openLevel (s : Solver) : s.openLevel.level = s.level + 1 := by
  simp only [level, openLevel, Array.size_push]

@[simp] theorem level_decide (s : Solver) (l : Lit) : (s.decide l).level = s.level + 1 :=
  level_openLevel s

@[simp] theorem numVars_decide (s : Solver) (l : Lit) : (s.decide l).numVars = s.numVars :=
  numVars_assign s.openLevel l none

theorem start_decide (s : Solver) (l : Lit) (k : Nat) :
    (s.decide l).start k = if k = s.level then s.trail.size else s.start k :=
  getD_push _ _ _ _

theorem value_decide (s : Solver) (l x : Lit) :
    (s.decide l).value x = (s.assign l none).value x := by
  have hvalue : ((s.decide l).var x.var).value = ((s.assign l none).var x.var).value := by
    rw [decide_eq, var_assign, var_assign]
    by_cases hx : l.var = x.var ∧ x.var < s.numVars
    · rw [if_pos hx, if_pos (show l.var = x.var ∧ x.var < s.openLevel.numVars from hx)]
    · rw [if_neg hx, if_neg (show ¬ (l.var = x.var ∧ x.var < s.openLevel.numVars) from hx)]
      rfl
  rw [value, value, hvalue]

theorem grows_decide (hu : s.value l = .unknown) : Grows s (s.decide l) where
  trail hi := (extends_assign (r := none) hu).trail hi
  var {v} hv := by
    refine (var_assign_of_ne _ l none fun h => hv ?_).trans rfl
    rw [← h]
    exact s.value_eq_unknown.mp hu

theorem levelOf_decide_self (hv : l.var < s.numVars) : (s.decide l).levelOf l = s.level + 1 :=
  (levelOf_assign_self (s := s.openLevel) hv).trans (level_openLevel s)

theorem TrailInvariant.decide (h : TrailInvariant s) (hu : s.value l = .unknown)
    (hv : l.var < s.numVars) (hhead : s.queueHead = s.trail.size) :
    TrailInvariant (s.decide l) := by
  have hassign : TrailInvariant (s.assign l none) := h.assign hu hv
  have hlevel : ∀ {i : Nat} {x}, s.trail[i]? = some x → (s.decide l).levelOf x = s.levelOf x :=
    fun hi => (grows_decide hu).levelOf (by simp [h.value_of_getElem? hi])
  have hsize : (s.decide l).trail.size = s.trail.size + 1 := Array.size_push _
  have hposition : ∀ {i : Nat} {x}, (s.decide l).trail[i]? = some x →
      (i = s.trail.size ∧ x = l) ∨ s.trail[i]? = some x :=
    fun hi => getElem?_trail_assign (r := none) hi
  refine ⟨?_, hassign.position, ?_, ?_, ?_, ?_, ?_, ?_⟩
  · intro x
    rw [value_decide]
    exact hassign.mem_iff x
  · rw [hsize]
    exact Nat.le_succ_of_le h.head_le
  · intro k hk
    rw [level_decide] at hk
    rw [start_decide]
    split
    · exact Nat.le_of_eq hhead.symm
    · exact h.start_le (by omega)
  · intro k hk
    rw [level_decide] at hk
    rw [start_decide]
    split
    · rename_i hks
      exact hks ▸ h.level_le
    · exact h.le_start (by omega)
  · rw [level_decide, hsize]
    exact Nat.succ_le_succ h.level_le
  · intro i x hi
    rw [level_decide]
    rcases hposition hi with ⟨-, rfl⟩ | hi
    · rw [levelOf_decide_self hv]
    · rw [hlevel hi]
      exact Nat.le_succ_of_le (h.levelOf_le hi)
  · intro k i x hk hi
    rw [level_decide] at hk
    rw [start_decide]
    rcases hposition hi with ⟨rfl, rfl⟩ | hi
    · rw [levelOf_decide_self hv]
      split
      · omega
      · have := h.start_le_size (k := k) (by omega)
        omega
    · rw [hlevel hi]
      split
      · rename_i hks
        exact ⟨fun _ => hks ▸ h.levelOf_le hi, fun _ => lt_size_of_getElem? hi⟩
      · exact h.lt_start (by omega) hi

theorem WellFormed.decide (h : WellFormed s) (hu : s.value l = .unknown) (hv : l.var < s.numVars)
    (hhead : s.queueHead = s.trail.size) : WellFormed (s.decide l) where
  trail := h.trail.decide hu hv hhead
  clauses := by
    refine ⟨fun {r} hr x hx => ?_, fun {r} hr => h.clauses.distinct hr⟩
    rw [numVars_decide]
    exact h.clauses.var_lt hr x hx
  reasons := by
    have hgrows : Grows s (s.decide l) := grows_decide hu
    have hposition : ∀ {i : Nat} {x}, (s.decide l).trail[i]? = some x →
        (i = s.trail.size ∧ x = l) ∨ s.trail[i]? = some x :=
      fun hi => getElem?_trail_assign (r := none) hi
    have hself : ((s.decide l).var l.var).reason = none := by
      rw [decide_eq, var_assign_self s.openLevel l none hv]
    refine ⟨fun {i x r} hi hr => ?_, fun {i x} hi hr => ?_⟩
    · rcases hposition hi with ⟨rfl, rfl⟩ | hi
      · rw [hself] at hr
        cases hr
      · rw [hgrows.var_of_value (by simp [h.trail.value_of_getElem? hi])] at hr
        obtain ⟨hlt, hfirst, htail⟩ := h.reasons.implied hi hr
        refine ⟨hlt, hfirst, fun y hy => ?_⟩
        obtain ⟨j, hj, hy⟩ := htail y hy
        exact ⟨j, hj, hgrows.trail hy⟩
    · rw [level_decide]
      rcases hposition hi with ⟨rfl, rfl⟩ | hi
      · refine .inr ⟨s.level, Nat.lt_succ_self _, ?_⟩
        rw [start_decide, if_pos rfl]
      · have hvalue : s.value x ≠ .unknown := by simp [h.trail.value_of_getElem? hi]
        rw [hgrows.var_of_value hvalue] at hr
        rw [hgrows.levelOf hvalue]
        rcases h.reasons.decided hi hr with h0 | ⟨k, hk, rfl⟩
        · exact .inl h0
        · refine .inr ⟨k, Nat.lt_succ_of_lt hk, ?_⟩
          rw [start_decide, if_neg (Nat.ne_of_lt hk)]
  watches := by
    refine ⟨?_, h.watches.count⟩
    rw [numVars_decide]
    exact h.watches.size
  unmarked v := by
    rw [decide_eq, seen_assign]
    exact h.unmarked v

theorem Settled.decide (h : s.Settled s.queueHead) (ht : TrailInvariant s)
    (hu : s.value l = .unknown) :
    (s.decide l).Settled (s.decide l).queueHead := fun r hr =>
  ⟨(grows_decide hu).guards ht (h r hr).1 ht.head_le,
    (grows_decide hu).guards ht (h r hr).2 ht.head_le⟩

theorem models_decide (ht : TrailInvariant s) (hu : s.value l = .unknown) (hv : l.var < s.numVars)
    {α : Nat → Bool} : (s.decide l).Models α ↔ s.Models α := by
  have hlevel : ∀ {i : Nat} {x}, s.trail[i]? = some x → (s.decide l).levelOf x = s.levelOf x :=
    fun hi => (grows_decide hu).levelOf (by simp [ht.value_of_getElem? hi])
  constructor
  · intro h
    exact ⟨fun hi h0 => h.root ((grows_decide hu).trail hi) (by rwa [hlevel hi]), h.clause⟩
  · intro h
    refine ⟨fun hi h0 => ?_, h.clause⟩
    rcases getElem?_trail_assign (r := none) hi with ⟨-, rfl⟩ | hi
    · rw [levelOf_decide_self hv] at h0
      cases h0
    · exact h.root hi (by rwa [hlevel hi] at h0)

end Decide

/-! ## Clauses -/

section Attach

variable {c : Clause}

theorem grows_attach (s : Solver) (c : Clause) : Grows s (s.attach c) := ⟨id, fun _ => rfl⟩

theorem clause_attach_of_lt {r : Nat} (hr : r < s.numClauses) :
    (s.attach c).clause r = s.clause r := by
  rw [clause_attach, if_neg (Nat.ne_of_lt hr)]

theorem clause_attach_self : (s.attach c).clause s.numClauses = c := by
  rw [clause_attach, if_pos rfl]

theorem lt_or_eq_of_attach {r : Nat} (hr : r < (s.attach c).numClauses) :
    r < s.numClauses ∨ r = s.numClauses := by
  rw [numClauses_attach] at hr
  omega

theorem ClauseInvariant.attach (h : ClauseInvariant s) (hlt : ∀ l ∈ c.lits, l.var < s.numVars)
    (hdistinct : (c.lits.map Lit.var).Nodup) : ClauseInvariant (s.attach c) where
  var_lt {r} hr l hl := by
    rcases lt_or_eq_of_attach hr with hr | rfl
    · rw [clause_attach_of_lt hr] at hl
      exact h.var_lt hr l hl
    · rw [clause_attach_self] at hl
      exact hlt l hl
  distinct {r} hr := by
    rcases lt_or_eq_of_attach hr with hr | rfl
    · rw [clause_attach_of_lt hr]
      exact h.distinct hr
    · rw [clause_attach_self]
      exact hdistinct

theorem ReasonInvariant.attach (h : ReasonInvariant s) : ReasonInvariant (s.attach c) where
  implied {i l r} hi hr := by
    obtain ⟨hlt, hfirst, htail⟩ := h.implied hi hr
    rw [numClauses_attach, clause_attach_of_lt hlt]
    exact ⟨Nat.lt_succ_of_lt hlt, hfirst, htail⟩
  decided hi hr := h.decided hi hr

theorem WatchInvariant.attach (h : WatchInvariant s) (hlt : ∀ l ∈ c.lits, l.var < s.numVars)
    (hne : c.first ≠ c.second) : WatchInvariant (s.attach c) := by
  have hcode : ∀ l ∈ c.lits, l.negate.code < s.watches.size := by
    intro l hl
    have hvar : l.negate.var < s.numVars := by
      rw [Lit.var_negate]
      exact hlt l hl
    rw [h.size]
    exact Lit.code_lt_of_var_lt hvar
  have hwatchers := fun x => watchers_attach s c x (hcode _ List.mem_cons_self)
    (hcode c.second (List.mem_cons_of_mem _ List.mem_cons_self))
  refine ⟨?_, fun x r => ?_⟩
  · rw [size_watches_attach, numVars_attach, h.size]
  · rw [hwatchers x, List.count_append, List.count_append, h.count x r, numClauses_attach]
    have hboth : ¬ (x = c.first.negate ∧ x = c.second.negate) := by
      rintro ⟨h₁, h₂⟩
      exact hne (Lit.negate_inj.mp (h₁.symm.trans h₂))
    have hwatched : ∀ l : Lit, l = x.negate ↔ x = l.negate := fun l =>
      Lit.eq_negate_iff.trans eq_comm
    have hold : r ≠ s.numClauses → ∀ p : Prop, [Decidable p] →
        (if p then [s.numClauses] else []).count r = 0 := by
      intro hr p _
      split
      · exact List.count_eq_zero.mpr fun hm => hr (List.mem_singleton.mp hm)
      · rfl
    rcases Nat.lt_trichotomy r s.numClauses with hr | rfl | hr
    · rw [hold (Nat.ne_of_lt hr), hold (Nat.ne_of_lt hr), clause_attach_of_lt hr, Nat.add_zero,
        Nat.add_zero]
      simp only [hr, Nat.lt_succ_of_lt hr, true_and]
    · rw [clause_attach_self, if_neg fun hc => Nat.lt_irrefl _ hc.1]
      simp only [Nat.lt_succ_self, true_and, hwatched]
      by_cases h₁ : x = c.first.negate <;> by_cases h₂ : x = c.second.negate
      · exact absurd ⟨h₁, h₂⟩ hboth
      · rw [if_pos h₁, if_neg h₂, if_pos (.inl h₁), List.count_singleton_self, List.count_nil]
      · rw [if_neg h₁, if_pos h₂, if_pos (.inr h₂), List.count_singleton_self, List.count_nil]
      · rw [if_neg h₁, if_neg h₂, if_neg (not_or.mpr ⟨h₁, h₂⟩), List.count_nil]
    · rw [hold (Nat.ne_of_gt hr), hold (Nat.ne_of_gt hr),
        if_neg fun hc => absurd hc.1 (Nat.lt_asymm hr), if_neg]
      rintro ⟨hlt, -⟩
      omega

theorem WellFormed.attach (h : WellFormed s) (hlt : ∀ l ∈ c.lits, l.var < s.numVars)
    (hdistinct : (c.lits.map Lit.var).Nodup) : WellFormed (s.attach c) where
  trail := ⟨h.trail.mem_iff, h.trail.position, h.trail.head_le, h.trail.start_le, h.trail.le_start,
    h.trail.level_le, h.trail.levelOf_le, h.trail.lt_start⟩
  clauses := h.clauses.attach hlt hdistinct
  reasons := h.reasons.attach
  watches := by
    refine h.watches.attach hlt fun he => ?_
    simp only [Clause.lits, List.map_cons, List.nodup_cons, List.mem_cons, not_or] at hdistinct
    exact hdistinct.1.1 (congrArg Lit.var he)
  unmarked := h.unmarked

theorem models_attach {α : Nat → Bool} :
    (s.attach c).Models α ↔ s.Models α ∧ Satisfies α c.lits := by
  constructor
  · intro h
    refine ⟨⟨h.root, fun {r} hr => ?_⟩, ?_⟩
    · have hclause := h.clause (r := r) (by rw [numClauses_attach]; exact Nat.lt_succ_of_lt hr)
      rwa [clause_attach_of_lt hr] at hclause
    · have hclause :=
        h.clause (r := s.numClauses) (by rw [numClauses_attach]; exact Nat.lt_succ_self _)
      rwa [clause_attach_self] at hclause
  · rintro ⟨h, hc⟩
    refine ⟨h.root, fun {r} hr => ?_⟩
    rcases lt_or_eq_of_attach hr with hr | rfl
    · rw [clause_attach_of_lt hr]
      exact h.clause hr
    · rw [clause_attach_self]
      exact hc

theorem Settled.attach {q : Nat} (h : s.Settled q) (hc : s.Guarded q c) :
    (s.attach c).Settled q := by
  intro r hr
  rcases lt_or_eq_of_attach hr with hr | rfl
  · rw [clause_attach_of_lt hr]
    exact h r hr
  · rw [clause_attach_self]
    exact hc

end Attach

end ModelExpansion.Sat.Solver
