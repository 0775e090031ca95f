import ModelExpansion.Proofs.Sat.Invariant

/-! # The invariants under elementary updates
Assigning a literal, returning to a level, adding a variable, opening a level and storing a clause
keep every invariant. -/

namespace ModelExpansion.Sat.Solver

/-! ## More assignments -/

/-- Later on: the trail has grown and no value has changed. -/
structure Grows (s s' : Solver) : Prop where
  trail : ∀ {i : Nat} {l}, s.trail[i]? = some l → s'.trail[i]? = some l
  var : ∀ {v}, (s.var v).value ≠ .unknown → s'.var v = s.var v

namespace Grows

variable {s s' s'' : Solver}

theorem refl (s : Solver) : Grows s s := ⟨id, fun _ => rfl⟩

theorem trans (h : Grows s s') (h' : Grows s' s'') : Grows s s'' where
  trail hi := h'.trail (h.trail hi)
  var hv := by rw [h'.var (by rwa [h.var hv]), h.var hv]

theorem var_of_value (h : Grows s s') {l : Lit} (hl : s.value l ≠ .unknown) :
    s'.var l.var = s.var l.var := h.var fun hu => hl (s.value_eq_unknown.mpr hu)

theorem value (h : Grows s s') {l : Lit} (hl : s.value l ≠ .unknown) : s'.value l = s.value l := by
  rw [Solver.value, Solver.value, h.var_of_value hl]

theorem value_yes (h : Grows s s') {l : Lit} (hl : s.value l = .yes) : s'.value l = .yes := by
  rw [h.value (by simp [hl]), hl]

theorem levelOf (h : Grows s s') {l : Lit} (hl : s.value l ≠ .unknown) :
    s'.levelOf l = s.levelOf l := by
  rw [Solver.levelOf, Solver.levelOf, h.var_of_value hl]

theorem trail_of_lt (h : Grows s s') {i : Nat} {l : Lit} (hi : i < s.trail.size)
    (hl : s'.trail[i]? = some l) : s.trail[i]? = some l := by
  have hs : s.trail[i]? = some s.trail[i] := Array.getElem?_eq_getElem hi
  rw [h.trail hs] at hl
  rw [hs, hl]

theorem guards (h : Grows s s') (ht : TrailInvariant s) {q : Nat} {w other : Lit}
    (hg : s.Guards q w other) (hq : q ≤ s.trail.size) : s'.Guards q w other := by
  intro i hi hw
  have hw' := h.trail_of_lt (Nat.lt_of_lt_of_le hi hq) hw
  obtain ⟨hyes, hle⟩ := hg i hi hw'
  have hno : s.value w = .no := s.value_eq_no.mpr (ht.value_of_getElem? hw')
  exact ⟨h.value_yes hyes, by rw [h.levelOf (by simp [hyes]), h.levelOf (by simp [hno])]; exact hle⟩

end Grows

/-- Later on at the same level. -/
structure Extends (s s' : Solver) : Prop extends Grows s s' where
  numVars : s'.numVars = s.numVars
  levelStarts : s'.levelStarts = s.levelStarts

namespace Extends

variable {s s' s'' : Solver}

theorem refl (s : Solver) : Extends s s := ⟨.refl s, rfl, rfl⟩

theorem trans (h : Extends s s') (h' : Extends s' s'') : Extends s s'' where
  toGrows := h.toGrows.trans h'.toGrows
  numVars := h'.numVars.trans h.numVars
  levelStarts := h'.levelStarts.trans h.levelStarts

theorem level (h : Extends s s') :
    s'.level = s.level := by rw [Solver.level, Solver.level, h.levelStarts]

theorem start (h : Extends s s') (k : Nat) : s'.start k = s.start k := by
  rw [Solver.start, Solver.start, h.levelStarts]

end Extends

section Assign

variable {s : Solver} {l : Lit} {r : Option Nat}

theorem extends_assign (hu : s.value l = .unknown) : Extends s (s.assign l r) where
  numVars := numVars_assign s l r
  levelStarts := rfl
  trail {i x} hi := by
    rw [trail_assign, Array.getElem?_push, if_neg (Nat.ne_of_lt (lt_size_of_getElem? hi))]
    exact hi
  var {v} hv := by
    refine var_assign_of_ne s l r fun h => hv ?_
    rw [← h]
    exact s.value_eq_unknown.mp hu

theorem value_assign_self (hv : l.var < s.numVars) : (s.assign l r).value l = .yes := by
  rw [value_eq_yes, var_assign_self s l r hv]

theorem levelOf_assign_self (hv : l.var < s.numVars) : (s.assign l r).levelOf l = s.level := by
  rw [levelOf, var_assign_self s l r hv]

theorem getElem?_trail_assign {i : Nat} {x : Lit} (h : (s.assign l r).trail[i]? = some x) :
    (i = s.trail.size ∧ x = l) ∨ s.trail[i]? = some x := by
  rw [trail_assign, Array.getElem?_push] at h
  split at h
  · rename_i hi
    exact .inl ⟨hi, (Option.some.inj h).symm⟩
  · exact .inr h

theorem TrailInvariant.assign (h : TrailInvariant s) (hu : s.value l = .unknown)
    (hv : l.var < s.numVars) : TrailInvariant (s.assign l r) := by
  have hext : Extends s (s.assign l r) := extends_assign hu
  have hlast : (s.assign l r).trail[s.trail.size]? = some l := by
    rw [trail_assign, Array.getElem?_push, if_pos rfl]
  have hlevel : ∀ {i : Nat} {x}, s.trail[i]? = some x → (s.assign l r).levelOf x = s.levelOf x :=
    fun hi => hext.levelOf (by simp [h.value_of_getElem? hi])
  refine ⟨?_, ?_, ?_, ?_, ?_, ?_, ?_, ?_⟩
  · intro x
    constructor
    · rintro ⟨i, hi⟩
      rcases getElem?_trail_assign hi with ⟨-, rfl⟩ | hi
      · exact value_assign_self hv
      · exact hext.value_yes (h.value_of_getElem? hi)
    · intro hx
      by_cases hxv : l.var = x.var
      · rcases Lit.eq_or_eq_negate hxv with rfl | rfl
        · exact ⟨_, hlast⟩
        · have hno := value_assign_self (r := r) hv
          rw [value_negate, hx] at hno
          cases hno
      · rw [value_eq_yes, var_assign_of_ne s l r hxv] at hx
        obtain ⟨i, hi⟩ := h.exists_position (s.value_eq_yes.mpr hx)
        exact ⟨i, hext.trail hi⟩
  · intro i j x hi hj
    rcases getElem?_trail_assign hi with ⟨rfl, rfl⟩ | hi' <;>
      rcases getElem?_trail_assign hj with ⟨rfl, hx⟩ | hj'
    · rfl
    · rw [h.value_of_getElem? hj'] at hu
      cases hu
    · subst hx
      rw [h.value_of_getElem? hi'] at hu
      cases hu
    · exact h.position hi' hj'
  · simpa using Nat.le_succ_of_le h.head_le
  · exact h.start_le
  · exact h.le_start
  · simpa using Nat.le_succ_of_le h.level_le
  · intro i x hi
    rcases getElem?_trail_assign hi with ⟨-, rfl⟩ | hi
    · rw [levelOf_assign_self hv, level_assign]
    · rw [hlevel hi]
      exact h.levelOf_le hi
  · intro k i x hk hi
    change i < s.start k ↔ _
    rcases getElem?_trail_assign hi with ⟨rfl, rfl⟩ | hi
    · rw [levelOf_assign_self hv]
      have hsize := h.start_le_size hk
      rw [level_assign] at hk
      omega
    · rw [hlevel hi]
      exact h.lt_start hk hi

theorem ClauseInvariant.assign (h : ClauseInvariant s) : ClauseInvariant (s.assign l r) where
  var_lt hr x hx := by
    rw [numVars_assign]
    exact h.var_lt hr x hx
  distinct hr := h.distinct hr

theorem WatchInvariant.assign (h : WatchInvariant s) : WatchInvariant (s.assign l r) where
  size := by
    rw [numVars_assign]
    exact h.size
  count := h.count

theorem Unmarked.assign (h : Unmarked s) : Unmarked (s.assign l r) := by
  intro v
  rw [seen_assign]
  exact h v

/-- The ways in which a literal may be assigned: at level zero, as the first of a level, or because
a clause has become unit. -/
def Justified (s : Solver) (l : Lit) : Option Nat → Prop
  | none => s.level = 0 ∨ ∃ k < s.level, s.trail.size = s.start k
  | some r => r < s.numClauses ∧ (s.clause r).first = l ∧ ∀ x ∈ (s.clause r).tail, s.value x = .no

theorem ReasonInvariant.assign (h : ReasonInvariant s) (ht : TrailInvariant s)
    (hu : s.value l = .unknown) (hv : l.var < s.numVars) (hj : s.Justified l r) :
    ReasonInvariant (s.assign l r) := by
  have hext : Extends s (s.assign l r) := extends_assign hu
  have hvar : ∀ {i : Nat} {x}, s.trail[i]? = some x → (s.assign l r).var x.var = s.var x.var :=
    fun hi => hext.var_of_value (by simp [ht.value_of_getElem? hi])
  refine ⟨?_, ?_⟩
  · intro i x r' hi hr'
    rcases getElem?_trail_assign hi with ⟨rfl, rfl⟩ | hi
    · rw [var_assign_self s x r hv] at hr'
      subst hr'
      obtain ⟨hlt, hfirst, htail⟩ := hj
      refine ⟨hlt, hfirst, fun y hy => ?_⟩
      obtain ⟨j, hj⟩ := ht.exists_position (s.value_eq_no.mp (htail y hy))
      exact ⟨j, lt_size_of_getElem? hj, hext.trail hj⟩
    · rw [hvar hi] at hr'
      obtain ⟨hlt, hfirst, htail⟩ := h.implied hi hr'
      refine ⟨hlt, hfirst, fun y hy => ?_⟩
      obtain ⟨j, hj, hy⟩ := htail y hy
      exact ⟨j, hj, hext.trail hy⟩
  · intro i x hi hr'
    rcases getElem?_trail_assign hi with ⟨rfl, rfl⟩ | hi
    · rw [var_assign_self s x r hv] at hr'
      subst hr'
      rw [levelOf_assign_self hv]
      exact hj
    · rw [hvar hi] at hr'
      rw [hext.levelOf (by simp [ht.value_of_getElem? hi])]
      exact h.decided hi hr'

theorem WellFormed.assign (h : WellFormed s) (hu : s.value l = .unknown) (hv : l.var < s.numVars)
    (hj : s.Justified l r) : WellFormed (s.assign l r) where
  trail := h.trail.assign hu hv
  clauses := h.clauses.assign
  reasons := h.reasons.assign h.trail hu hv hj
  watches := h.watches.assign
  unmarked := h.unmarked.assign

theorem Settled.assign (h : s.Settled s.queueHead) (ht : TrailInvariant s)
    (hu : s.value l = .unknown) :
    (s.assign l r).Settled (s.assign l r).queueHead := fun i hi =>
  ⟨(extends_assign hu).guards ht (h i hi).1 ht.head_le,
    (extends_assign hu).guards ht (h i hi).2 ht.head_le⟩

/-- At level zero an assignment restricts the models, above it has no effect on them. -/
theorem models_assign (ht : TrailInvariant s) (hu : s.value l = .unknown) (hv : l.var < s.numVars)
    {α : Nat → Bool} : (s.assign l r).Models α ↔ s.Models α ∧ (s.level = 0 → l.Holds α) := by
  have hext : Extends s (s.assign l r) := extends_assign hu
  have hlevel : ∀ {i : Nat} {x}, s.trail[i]? = some x → (s.assign l r).levelOf x = s.levelOf x :=
    fun hi => hext.levelOf (by simp [ht.value_of_getElem? hi])
  constructor
  · intro h
    refine ⟨⟨fun hi h0 => h.root (hext.trail hi) (by rwa [hlevel hi]), h.clause⟩, fun h0 => ?_⟩
    refine h.root (i := s.trail.size) ?_ (by rw [levelOf_assign_self hv, h0])
    rw [trail_assign, Array.getElem?_push, if_pos rfl]
  · rintro ⟨h, hl⟩
    refine ⟨fun hi h0 => ?_, h.clause⟩
    rcases getElem?_trail_assign hi with ⟨-, rfl⟩ | hi
    · rw [levelOf_assign_self hv] at h0
      exact hl h0
    · rw [hlevel hi] at h0
      exact h.root hi h0

end Assign

end ModelExpansion.Sat.Solver
