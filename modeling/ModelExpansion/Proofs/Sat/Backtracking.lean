import ModelExpansion.Proofs.Sat.Updates

/-! # Returning to a level
What is undone is exactly what was assigned above the level; the rest of the state, and with it
every invariant, is as it was. -/

namespace ModelExpansion.Sat.Solver

variable {s : Solver} {k : Nat}

theorem mem_undone (h : TrailInvariant s) (hk : k < s.level) {v : Nat} :
    v ∈ (s.trail.toList.drop (s.start k)).map Lit.var ↔
      ∃ l : Lit, l.var = v ∧ s.value l = .yes ∧ k < s.levelOf l := by
  constructor
  · intro hv
    obtain ⟨l, hl, rfl⟩ := List.mem_map.mp hv
    obtain ⟨j, hj⟩ := List.mem_iff_getElem?.mp hl
    rw [List.getElem?_drop, Array.getElem?_toList] at hj
    refine ⟨l, rfl, h.value_of_getElem? hj, ?_⟩
    by_contra hle
    have := (h.lt_start hk hj).mpr (Nat.le_of_not_lt hle)
    omega
  · rintro ⟨l, rfl, hl, hlt⟩
    obtain ⟨i, hi⟩ := h.exists_position hl
    have hge : s.start k ≤ i := by
      by_contra hlt'
      have := (h.lt_start hk hi).mp (Nat.lt_of_not_le hlt')
      omega
    refine List.mem_map_of_mem (List.mem_iff_getElem?.mpr ⟨i - s.start k, ?_⟩)
    rw [List.getElem?_drop, Array.getElem?_toList, Nat.add_sub_cancel' hge]
    exact hi

theorem levelOf_cancelUntil (l : Lit) : (s.cancelUntil k).levelOf l = s.levelOf l := by
  by_cases hk : k < s.level
  · exact (var_cancelUntil hk l.var).1
  · rw [cancelUntil_of_le (Nat.le_of_not_lt hk)]

theorem seen_cancelUntil (v : Nat) : ((s.cancelUntil k).var v).seen = (s.var v).seen := by
  by_cases hk : k < s.level
  · exact (var_cancelUntil hk v).2.1
  · rw [cancelUntil_of_le (Nat.le_of_not_lt hk)]

theorem var_cancelUntil_of_level_le (h : TrailInvariant s) {l : Lit} (hle : s.levelOf l ≤ k) :
    (s.cancelUntil k).var l.var = s.var l.var := by
  by_cases hk : k < s.level
  · refine (var_cancelUntil hk l.var).2.2.1 fun hmem => ?_
    obtain ⟨x, hxv, hx, hlt⟩ := (mem_undone h hk).mp hmem
    rw [levelOf, hxv] at hlt
    exact absurd hle (Nat.not_le_of_lt hlt)
  · rw [cancelUntil_of_le (Nat.le_of_not_lt hk)]

/-- A variable assigned above the level has no value any more. -/
theorem value_cancelUntil_of_lt (h : TrailInvariant s) (hk : k < s.level) {l : Lit}
    (hl : s.value l = .yes) (hlt : k < s.levelOf l) : (s.cancelUntil k).value l = .unknown := by
  rw [value_eq_unknown]
  exact (var_cancelUntil hk l.var).2.2.2 ((mem_undone h hk).mpr ⟨l, rfl, hl, hlt⟩)

theorem value_cancelUntil_eq_yes (h : TrailInvariant s) {l : Lit} :
    (s.cancelUntil k).value l = .yes ↔ s.value l = .yes ∧ s.levelOf l ≤ k := by
  by_cases hk : k < s.level
  · constructor
    · intro hl
      by_cases hmem : l.var ∈ (s.trail.toList.drop (s.start k)).map Lit.var
      · rw [value_eq_yes, (var_cancelUntil hk l.var).2.2.2 hmem] at hl
        cases hp : l.positive <;> simp [hp, Truth.ofBool] at hl
      · rw [value_eq_yes, (var_cancelUntil hk l.var).2.2.1 hmem, ← value_eq_yes] at hl
        refine ⟨hl, ?_⟩
        by_contra hlt
        exact hmem ((mem_undone h hk).mpr ⟨l, rfl, hl, Nat.lt_of_not_le hlt⟩)
    · rintro ⟨hl, hle⟩
      rw [value_eq_yes, var_cancelUntil_of_level_le h hle, ← value_eq_yes]
      exact hl
  · rw [cancelUntil_of_le (Nat.le_of_not_lt hk)]
    refine ⟨fun hl => ⟨hl, ?_⟩, And.left⟩
    obtain ⟨i, hi⟩ := h.exists_position hl
    exact (h.levelOf_le hi).trans (Nat.le_of_not_lt hk)

/-- What is left on the trail are the literals of the levels up to `k`. -/
theorem getElem?_trail_cancelUntil (h : TrailInvariant s) {i : Nat} {l : Lit} :
    (s.cancelUntil k).trail[i]? = some l ↔ s.trail[i]? = some l ∧ s.levelOf l ≤ k := by
  by_cases hk : k < s.level
  · rw [trail_cancelUntil hk, getElem?_take]
    constructor
    · intro hi
      split at hi
      · rename_i hlt
        exact ⟨hi, (h.lt_start hk hi).mp hlt⟩
      · cases hi
    · rintro ⟨hi, hle⟩
      rw [if_pos ((h.lt_start hk hi).mpr hle)]
      exact hi
  · rw [cancelUntil_of_le (Nat.le_of_not_lt hk)]
    exact ⟨fun hi => ⟨hi, (h.levelOf_le hi).trans (Nat.le_of_not_lt hk)⟩, And.left⟩

theorem size_trail_cancelUntil (h : TrailInvariant s) (hk : k < s.level) :
    (s.cancelUntil k).trail.size = s.start k := by
  rw [trail_cancelUntil hk, Array.take_eq_extract, Array.size_extract]
  have := h.start_le_size hk
  omega

theorem TrailInvariant.cancelUntil (h : TrailInvariant s) (k : Nat) :
    TrailInvariant (s.cancelUntil k) := by
  by_cases hk : k < s.level
  swap
  · rw [cancelUntil_of_le (Nat.le_of_not_lt hk)]
    exact h
  have hlevel : (s.cancelUntil k).level = k := level_cancelUntil (Nat.le_of_lt hk)
  have hstart : ∀ {j}, j < k → (s.cancelUntil k).start j = s.start j :=
    start_cancelUntil (Nat.le_of_lt hk)
  refine ⟨?_, ?_, ?_, ?_, ?_, ?_, ?_, ?_⟩
  · intro l
    simp only [getElem?_trail_cancelUntil h, value_cancelUntil_eq_yes h,
      exists_and_right, h.mem_iff]
  · intro i j l hi hj
    exact h.position ((getElem?_trail_cancelUntil h).mp hi).1
      ((getElem?_trail_cancelUntil h).mp hj).1
  · rw [queueHead_cancelUntil hk]
  · intro j hj
    rw [hlevel] at hj
    rw [queueHead_cancelUntil hk, size_trail_cancelUntil h hk, hstart hj]
    by_contra hlt
    have hlt : s.start k < s.start j := Nat.lt_of_not_le hlt
    have hpos : s.start k < s.trail.size := hlt.trans_le (h.start_le_size (hj.trans hk))
    have hi : s.trail[s.start k]? = some s.trail[s.start k] := Array.getElem?_eq_getElem hpos
    have hle := (h.lt_start (hj.trans hk) hi).mp hlt
    exact Nat.lt_irrefl _ ((h.lt_start hk hi).mpr (hle.trans (Nat.le_of_lt hj)))
  · intro j hj
    rw [hlevel] at hj
    rw [hstart hj]
    exact h.le_start (hj.trans hk)
  · rw [hlevel, size_trail_cancelUntil h hk]
    exact h.le_start hk
  · intro i l hi
    rw [hlevel, levelOf_cancelUntil]
    exact ((getElem?_trail_cancelUntil h).mp hi).2
  · intro j i l hj hi
    rw [hlevel] at hj
    rw [hstart hj, levelOf_cancelUntil]
    exact h.lt_start (hj.trans hk) ((getElem?_trail_cancelUntil h).mp hi).1

theorem ReasonInvariant.cancelUntil (h : ReasonInvariant s) (ht : TrailInvariant s) (k : Nat) :
    ReasonInvariant (s.cancelUntil k) := by
  have hvar : ∀ {i : Nat} {l}, (s.cancelUntil k).trail[i]? = some l →
      s.trail[i]? = some l ∧ (s.cancelUntil k).var l.var = s.var l.var := by
    intro i l hi
    obtain ⟨hi, hle⟩ := (getElem?_trail_cancelUntil ht).mp hi
    exact ⟨hi, var_cancelUntil_of_level_le ht hle⟩
  refine ⟨?_, ?_⟩
  · intro i l r hi hr
    have hle := ((getElem?_trail_cancelUntil ht).mp hi).2
    obtain ⟨hi, hv⟩ := hvar hi
    rw [hv] at hr
    simp only [numClauses, clause, clauses_cancelUntil]
    obtain ⟨hlt, hfirst, htail⟩ := h.implied hi hr
    refine ⟨hlt, hfirst, fun x hx => ?_⟩
    obtain ⟨j, hj, hx⟩ := htail x hx
    exact ⟨j, hj, (getElem?_trail_cancelUntil ht).mpr
      ⟨hx, (ht.levelOf_mono hx hi (Nat.le_of_lt hj)).trans hle⟩⟩
  · intro i l hi hr
    have hle := ((getElem?_trail_cancelUntil ht).mp hi).2
    obtain ⟨hi, hv⟩ := hvar hi
    rw [hv] at hr
    rw [levelOf_cancelUntil]
    rcases h.decided hi hr with h0 | ⟨j, hj, rfl⟩
    · exact .inl h0
    · by_cases hk : k < s.level
      swap
      · rw [cancelUntil_of_le (Nat.le_of_not_lt hk)]
        exact .inr ⟨j, hj, rfl⟩
      have hjk : j < k := by
        by_contra hkj
        have hlt : ¬ s.start j < s.start j := Nat.lt_irrefl _
        exact hlt ((ht.lt_start hj hi).mpr (hle.trans (Nat.le_of_not_lt hkj)))
      rw [level_cancelUntil (Nat.le_of_lt hk)]
      exact .inr ⟨j, hjk, (start_cancelUntil (Nat.le_of_lt hk) hjk).symm⟩

theorem WellFormed.cancelUntil (h : WellFormed s) (k : Nat) : WellFormed (s.cancelUntil k) where
  trail := h.trail.cancelUntil k
  clauses := by
    refine ⟨fun {r} hr => ?_, fun {r} hr => ?_⟩ <;>
      simp only [numClauses, clause, clauses_cancelUntil] at hr ⊢
    · rw [numVars_cancelUntil]
      exact h.clauses.var_lt hr
    · exact h.clauses.distinct hr
  reasons := h.reasons.cancelUntil h.trail k
  watches := by
    refine ⟨?_, ?_⟩
    · rw [watches_cancelUntil, numVars_cancelUntil]
      exact h.watches.size
    · simp only [watchers, numClauses, clause, watches_cancelUntil, clauses_cancelUntil]
      exact h.watches.count
  unmarked v := by
    rw [seen_cancelUntil]
    exact h.unmarked v

/-- What was propagated below the level still is. -/
theorem Settled.cancelUntil (h : s.Settled (s.start k)) (ht : TrailInvariant s) (hk : k < s.level) :
    (s.cancelUntil k).Settled (s.cancelUntil k).queueHead := by
  have hguards : ∀ {w other}, s.Guards (s.start k) w other →
      (s.cancelUntil k).Guards (s.cancelUntil k).queueHead w other := by
    intro w other hg i hi hw
    rw [queueHead_cancelUntil hk, size_trail_cancelUntil ht hk] at hi
    obtain ⟨hw, hle⟩ := (getElem?_trail_cancelUntil ht).mp hw
    rw [levelOf_negate] at hle
    obtain ⟨hyes, hlevel⟩ := hg i hi hw
    rw [levelOf_cancelUntil, levelOf_cancelUntil]
    exact ⟨(value_cancelUntil_eq_yes ht).mpr ⟨hyes, hlevel.trans hle⟩, hlevel⟩
  intro r hr
  simp only [numClauses, clause, clauses_cancelUntil] at hr ⊢
  exact ⟨hguards (h r hr).1, hguards (h r hr).2⟩

/-- Levels above zero have no part in the models. -/
theorem models_cancelUntil (ht : TrailInvariant s) {α : Nat → Bool} :
    (s.cancelUntil k).Models α ↔ s.Models α := by
  constructor
  · intro h
    refine ⟨fun hi h0 => ?_, fun {r} hr => ?_⟩
    · refine h.root ((getElem?_trail_cancelUntil ht).mpr ⟨hi, ?_⟩) (by rwa [levelOf_cancelUntil])
      rw [h0]
      exact Nat.zero_le k
    · simpa only [clause, clauses_cancelUntil] using
        h.clause (r := r) (by rwa [numClauses, clauses_cancelUntil])
  · intro h
    refine ⟨fun hi h0 => ?_, fun {r} hr => ?_⟩
    · rw [levelOf_cancelUntil] at h0
      exact h.root ((getElem?_trail_cancelUntil ht).mp hi).1 h0
    · simp only [numClauses, clause, clauses_cancelUntil] at hr ⊢
      exact h.clause hr

end ModelExpansion.Sat.Solver
