import Mathlib.Data.Finset.Card
import ModelExpansion.Proofs.Sat.State

/-! # Invariants of the search
What holds of a solver at every moment: how values, levels and the trail belong together, that
reasons imply their literals, and which clauses each literal is watched by. -/

namespace ModelExpansion.Sat

/-! ## Assignments -/

namespace Lit

/-- Whether an assignment makes a literal true. -/
def Holds (α : Nat → Bool) (l : Lit) : Prop := α l.var = l.positive

instance (α : Nat → Bool) (l : Lit) : Decidable (l.Holds α) := by
  unfold Holds
  infer_instance

@[simp] theorem holds_negate {α : Nat → Bool} {l : Lit} : l.negate.Holds α ↔ ¬ l.Holds α := by
  simp only [Holds, var_negate, positive_negate]
  cases α l.var <;> cases l.positive <;> decide

theorem holds_congr {α β : Nat → Bool} {l : Lit} (h : α l.var = β l.var) :
    l.Holds α ↔ l.Holds β := by
  simp only [Holds, h]

end Lit

/-- Whether an assignment makes some literal of a clause true. -/
def Satisfies (α : Nat → Bool) (lits : List Lit) : Prop := ∃ l ∈ lits, l.Holds α

instance (α : Nat → Bool) (lits : List Lit) : Decidable (Satisfies α lits) := by
  unfold Satisfies
  infer_instance

theorem Satisfies.perm {α : Nat → Bool} {xs ys : List Lit} (h : Satisfies α xs) (hp : xs.Perm ys) :
    Satisfies α ys := by
  obtain ⟨l, hl, hα⟩ := h
  exact ⟨l, hp.mem_iff.mp hl, hα⟩

theorem satisfies_congr {α β : Nat → Bool} {lits : List Lit} (h : ∀ l ∈ lits, α l.var = β l.var) :
    Satisfies α lits ↔ Satisfies β lits := by
  constructor
  · rintro ⟨l, hl, hα⟩
    exact ⟨l, hl, (Lit.holds_congr (h l hl)).mp hα⟩
  · rintro ⟨l, hl, hβ⟩
    exact ⟨l, hl, (Lit.holds_congr (h l hl)).mpr hβ⟩

namespace Solver

/-- The assignments that satisfy the stored clauses and agree with the trail at level zero. -/
structure Models (s : Solver) (α : Nat → Bool) : Prop where
  root : ∀ {i : Nat} {l}, s.trail[i]? = some l → s.levelOf l = 0 → l.Holds α
  clause : ∀ {r}, r < s.numClauses → Satisfies α (s.clause r).lits

/-! ## The trail -/

/-- The trail lists the true literals once each, in the order of their levels. -/
structure TrailInvariant (s : Solver) : Prop where
  mem_iff : ∀ l, (∃ i : Nat, s.trail[i]? = some l) ↔ s.value l = .yes
  position : ∀ {i j : Nat} {l}, s.trail[i]? = some l → s.trail[j]? = some l → i = j
  head_le : s.queueHead ≤ s.trail.size
  start_le : ∀ {k}, k < s.level → s.start k ≤ s.queueHead
  le_start : ∀ {k}, k < s.level → k ≤ s.start k
  level_le : s.level ≤ s.trail.size
  levelOf_le : ∀ {i : Nat} {l}, s.trail[i]? = some l → s.levelOf l ≤ s.level
  lt_start : ∀ {k i l}, k < s.level → s.trail[i]? = some l → (i < s.start k ↔ s.levelOf l ≤ k)

theorem lt_size_of_getElem? {α : Type} {xs : Array α} {i : Nat} {x : α} (h : xs[i]? = some x) :
    i < xs.size := by
  by_contra hle
  rw [Array.getElem?_eq_none (Nat.le_of_not_lt hle)] at h
  cases h

namespace TrailInvariant

variable {s : Solver} (h : TrailInvariant s)
include h

theorem value_of_getElem? {i : Nat} {l : Lit} (hi : s.trail[i]? = some l) : s.value l = .yes :=
  (h.mem_iff l).mp ⟨i, hi⟩

theorem exists_position {l : Lit} (hl : s.value l = .yes) : ∃ i : Nat, s.trail[i]? = some l :=
  (h.mem_iff l).mpr hl

theorem var_lt {i : Nat} {l : Lit} (hi : s.trail[i]? = some l) : l.var < s.numVars :=
  s.lt_of_value_eq_yes (h.value_of_getElem? hi)

/-- A variable stands on the trail at most once. -/
theorem eq_of_var_eq {i j : Nat} {l x : Lit} (hi : s.trail[i]? = some l) (hj : s.trail[j]? = some x)
    (hv : l.var = x.var) : l = x := by
  have hl := s.value_eq_yes.mp (h.value_of_getElem? hi)
  have hx := s.value_eq_yes.mp (h.value_of_getElem? hj)
  rw [hv, hx] at hl
  refine Lit.eq_iff.mpr ⟨hv, ?_⟩
  cases hp : l.positive <;> cases hq : x.positive <;> simp [hp, hq, Truth.ofBool] at hl ⊢

theorem start_le_size {k : Nat} (hk : k < s.level) : s.start k ≤ s.trail.size :=
  (h.start_le hk).trans h.head_le

/-- Levels do not fall along the trail. -/
theorem levelOf_mono {i j : Nat} {l x : Lit} (hi : s.trail[i]? = some l) (hj : s.trail[j]? = some x)
    (hij : i ≤ j) : s.levelOf l ≤ s.levelOf x := by
  by_contra hlt
  have hx : s.levelOf x < s.level := (Nat.lt_of_not_le hlt).trans_le (h.levelOf_le hi)
  have hj' : j < s.start (s.levelOf x) := (h.lt_start hx hj).mpr (Nat.le_refl _)
  exact hlt ((h.lt_start hx hi).mp (hij.trans_lt hj'))

theorem vars_nodup : (s.trail.toList.map Lit.var).Nodup := by
  rw [List.nodup_iff_injective_getElem]
  rintro ⟨i, hi⟩ ⟨j, hj⟩ hij
  simp only [List.length_map, Array.length_toList] at hi hj
  have hi' : s.trail[i]? = some s.trail[i] := Array.getElem?_eq_getElem hi
  have hj' : s.trail[j]? = some s.trail[j] := Array.getElem?_eq_getElem hj
  have hv : s.trail[i].var = s.trail[j].var := by
    simpa only [List.getElem_map, Array.getElem_toList] using hij
  rw [h.eq_of_var_eq hi' hj' hv] at hi'
  exact Fin.ext (h.position hi' hj')

/-- There are no more assignments than variables. -/
theorem size_le : s.trail.size ≤ s.numVars := by
  have hsub : s.trail.toList.map Lit.var ⊆ List.range s.numVars := by
    intro v hv
    obtain ⟨l, hl, rfl⟩ := List.mem_map.mp hv
    obtain ⟨i, hi⟩ := Array.mem_iff_getElem?.mp (Array.mem_toList_iff.mp hl)
    exact List.mem_range.mpr (h.var_lt hi)
  simpa using (h.vars_nodup.subperm hsub).length_le

end TrailInvariant

/-! ## Clauses, reasons and watches -/

/-- Stored clauses are about distinct, existing variables. -/
structure ClauseInvariant (s : Solver) : Prop where
  var_lt : ∀ {r}, r < s.numClauses → ∀ l ∈ (s.clause r).lits, l.var < s.numVars
  distinct : ∀ {r}, r < s.numClauses → ((s.clause r).lits.map Lit.var).Nodup

/-- A reason has its literal in front and became unit before; above level zero only decisions have
none. -/
structure ReasonInvariant (s : Solver) : Prop where
  implied : ∀ {i : Nat} {l r}, s.trail[i]? = some l → (s.var l.var).reason = some r →
    r < s.numClauses ∧ (s.clause r).first = l ∧
      ∀ x ∈ (s.clause r).tail, ∃ j : Nat, j < i ∧ s.trail[j]? = some x.negate
  decided : ∀ {i : Nat} {l}, s.trail[i]? = some l → (s.var l.var).reason = none →
    s.levelOf l = 0 ∨ ∃ k < s.level, i = s.start k

/-- Each clause is watched exactly once by each of its first two literals, and by no other. -/
structure WatchInvariant (s : Solver) : Prop where
  size : s.watches.size = 2 * s.numVars
  count : ∀ l r, (s.watchers l).count r =
    if r < s.numClauses ∧ ((s.clause r).first = l.negate ∨ (s.clause r).second = l.negate)
      then 1 else 0

def Unmarked (s : Solver) : Prop := ∀ v, (s.var v).seen = false

structure WellFormed (s : Solver) : Prop where
  trail : TrailInvariant s
  clauses : ClauseInvariant s
  reasons : ReasonInvariant s
  watches : WatchInvariant s
  unmarked : Unmarked s

/-- Counters, activities, answers and events play no part in the invariants. -/
theorem WellFormed.bookkeeping {s : Solver} (h : WellFormed s) (stats : Stats)
    (activity : FloatArray)
    (increment : Float) (inconsistent : Bool) (model : Option Model) (monitor : Monitor) :
    WellFormed { s with
      stats := stats, activity := activity, increment := increment, inconsistent := inconsistent,
      model := model, monitor := monitor } where
  trail := ⟨h.trail.mem_iff, h.trail.position, h.trail.head_le, h.trail.start_le, h.trail.le_start,
    h.trail.level_le, h.trail.levelOf_le, h.trail.lt_start⟩
  clauses := ⟨h.clauses.var_lt, h.clauses.distinct⟩
  reasons := ⟨h.reasons.implied, h.reasons.decided⟩
  watches := ⟨h.watches.size, h.watches.count⟩
  unmarked := h.unmarked

/-! ## Propagated prefixes of the trail -/

/-- When a watched literal has been false since before position `q`, the other one is true and was
so no later. -/
def Guards (s : Solver) (q : Nat) (w other : Lit) : Prop :=
  ∀ i < q, s.trail[i]? = some w.negate → s.value other = .yes ∧ s.levelOf other ≤ s.levelOf w

def Guarded (s : Solver) (q : Nat) (c : Clause) : Prop :=
  s.Guards q c.first c.second ∧ s.Guards q c.second c.first

/-- The first `q` literals of the trail are propagated. -/
def Settled (s : Solver) (q : Nat) : Prop := ∀ r < s.numClauses, s.Guarded q (s.clause r)

theorem Guards.mono {s : Solver} {q q' : Nat} {w other : Lit} (h : s.Guards q w other)
    (hq : q' ≤ q) :
    s.Guards q' w other := fun i hi hw => h i (hi.trans_le hq) hw

theorem Guarded.mono {s : Solver} {q q' : Nat} {c : Clause} (h : s.Guarded q c) (hq : q' ≤ q) :
    s.Guarded q' c := ⟨h.1.mono hq, h.2.mono hq⟩

theorem Settled.mono {s : Solver} {q q' : Nat} (h : s.Settled q) (hq : q' ≤ q) : s.Settled q' :=
  fun r hr => (h r hr).mono hq

/-- One more position, at which the literal does not become false. -/
theorem Guards.succ {s : Solver} {q : Nat} {w other : Lit} (h : s.Guards q w other)
    (hq : s.trail[q]? ≠ some w.negate) : s.Guards (q + 1) w other := by
  intro i hi hw
  rcases Nat.eq_or_lt_of_le (Nat.le_of_lt_succ hi) with rfl | hi
  · exact absurd hw hq
  · exact h i hi hw

theorem guards_of_value {s : Solver} (ht : TrailInvariant s) {q : Nat} {w other : Lit}
    (hw : s.value w ≠ .no) : s.Guards q w other :=
  fun _ _ hi => absurd (s.value_eq_no.mpr (ht.value_of_getElem? hi)) hw

end Solver

end ModelExpansion.Sat
