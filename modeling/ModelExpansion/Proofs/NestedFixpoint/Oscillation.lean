import ModelExpansion.Proofs.NestedFixpoint.Completion

/-! # Levels that do not settle
An iteration that is given up has changed the own atoms of its level in every round. The atom that
is reported for it is the least head, whether it was among those that changed or not. -/

namespace ModelExpansion

variable {base : Structure} {defined : List SymbolId}

/-! ## Giving up -/

/-- Whether sets of atoms are the own atoms of a level inside some atoms after each of `n` rounds,
and every round has changed them. -/
structure Restless (inner : AtomSet → Except Failure FixpointValue)
    (derive : AtomSet → Except Failure AtomSet)
    (outer : AtomSet) (n : Nat) (own : Nat → AtomSet) : Prop where
  round : ∀ i < n, ∃ context, inner (outer ∪ own i) = .ok (.converged context) ∧
    derive context = .ok (own (i + 1))
  changes : ∀ i < n, own (i + 1) ≠ own i

def precede (X : AtomSet) (own : Nat → AtomSet) : Nat → AtomSet
  | 0 => X
  | i + 1 => own i

theorem Restless.precede {inner : AtomSet → Except Failure FixpointValue}
    {derive : AtomSet → Except Failure AtomSet}
    {outer X context : AtomSet} {n : Nat} {own : Nat → AtomSet}
    (h : Restless inner derive outer n own)
    (hinner : inner (outer ∪ X) = .ok (.converged context)) (hderive : derive context = .ok (own 0))
    (hne : own 0 ≠ X) : Restless inner derive outer (n + 1) (precede X own) where
  round := by
    intro i hi
    cases i with
    | zero => exact ⟨context, hinner, hderive⟩
    | succ i => exact h.round i (Nat.lt_of_succ_lt_succ hi)
  changes := by
    intro i hi
    cases i with
    | zero => exact hne
    | succ i => exact h.changes i (Nat.lt_of_succ_lt_succ hi)

/-- A level oscillates because a level inside does, or because it has changed its own atoms to the
end. -/
theorem exists_restless_of_iterateLevel {inner : AtomSet → Except Failure FixpointValue}
    {derive : AtomSet → Except Failure AtomSet} {outer heads own : AtomSet} {n : Nat} {a : Atom}
    (h : iterateLevel inner derive outer heads n own = .ok (.oscillating a)) :
    (∃ X, inner (outer ∪ X) = .ok (.oscillating a)) ∨
      (heads.min? = some a ∧ ∃ run, run 0 = own ∧ Restless inner derive outer n run) := by
  induction n generalizing own with
  | zero =>
      rw [iterateLevel] at h
      split at h
      · next b bs hheads =>
          cases h
          refine .inr ⟨?_, fun _ => own, rfl, ?_⟩
          · rw [Std.ExtTreeSet.min?_eq_head?_toList, hheads, List.head?_cons]
          · exact ⟨fun i hi => absurd hi (Nat.not_lt_zero i),
              fun i hi => absurd hi (Nat.not_lt_zero i)⟩
      · cases h
  | succ n ih =>
      rw [iterateLevel, Except.bind_eq_ok, AtomSet.insertMany_toList] at h
      obtain ⟨value, hinner, h⟩ := h
      cases value with
      | oscillating b =>
          cases h
          exact .inl ⟨own, hinner⟩
      | converged context =>
          rw [Except.bind_eq_ok] at h
          obtain ⟨next, hnext, h⟩ := h
          split at h
          · cases h
          · next hchanged =>
              rcases ih h with hinside | ⟨hleast, run, rfl, hrun⟩
              · exact .inl hinside
              · exact .inr ⟨hleast, precede own run, rfl, hrun.precede hinner hnext hchanged⟩

/-- Whether a level is given up inside some atoms: its own atoms, which start from nothing or from
all heads, are changed in two rounds more than there are heads. -/
structure GivenUp (base : Structure) (defined : List SymbolId) (least : Bool) (rules : List Rule)
    (nested : List Fixpoint) (outer heads : AtomSet) (own : Nat → AtomSet) : Prop where
  heads_eq : levelHeads rules = .ok heads
  start_eq : own 0 = start least heads
  restless : Restless (fun context => solveLevels base defined nested context)
    (applyRules base defined rules) outer
    (heads.size + 2) own

theorem mem_of_levelHeads {rules : List Rule} {H : AtomSet} (h : levelHeads rules = .ok H)
    {r : Rule} (hr : r ∈ rules) {a : Atom} (ha : r.headAtom = .ok a) : a ∈ H := by
  rw [levelHeads, Except.bind_eq_ok] at h
  obtain ⟨as, has, h⟩ := h
  cases h
  obtain ⟨b, hb, hrb⟩ := exists_right_of_forall₂ (forall₂_of_mapM_eq_ok has) hr
  obtain rfl : a = b := Except.ok.inj (ha.symm.trans hrb)
  rwa [Std.ExtTreeSet.mem_ofList, List.contains_iff_mem]

namespace GivenUp

variable {least : Bool} {rules : List Rule} {nested : List Fixpoint} {outer heads : AtomSet}
    {own : Nat → AtomSet}

theorem own_le (h : GivenUp base defined least rules nested outer heads own) {i : Nat}
    (hi : i ≤ heads.size + 2) :
    own i ≤ heads := by
  cases i with
  | zero =>
      rw [h.start_eq, start]
      split
      · exact AtomSet.empty_le heads
      · exact le_rfl
  | succ i =>
      obtain ⟨context, -, hderive⟩ := h.restless.round i hi
      intro a ha
      obtain ⟨r, hr, hgives⟩ := (mem_applyRules hderive a).mp ha
      exact mem_of_levelHeads h.heads_eq hr hgives.1

theorem exists_changed (h : GivenUp base defined least rules nested outer heads own) {i : Nat}
    (hi : i < heads.size + 2) : ∃ b ∈ heads, ¬ (b ∈ own i ↔ b ∈ own (i + 1)) := by
  by_contra hnone
  push Not at hnone
  refine h.restless.changes i hi (Std.ExtTreeSet.ext_mem fun b => ?_)
  constructor
  · exact fun hb => (hnone b (h.own_le hi b hb)).mpr hb
  · exact fun hb => (hnone b (h.own_le hi.le b hb)).mp hb

end GivenUp

/-! ## Levels inside -/

mutual

/-- A level that oscillates is given up, or one inside it is. -/
theorem exists_givenUp_of_solveLevel {a : Atom} : ∀ {F : Fixpoint} {outer : AtomSet},
    solveLevel base defined F outer = .ok (.oscillating a) →
    ∃ least rules nested outer heads own, .level least rules nested ∈ F.levels ∧
    heads.min? = some a ∧
      GivenUp base defined least rules nested outer heads own
  | .level least rules nested, outer, h => by
      rw [solveLevel, Except.bind_eq_ok] at h
      obtain ⟨heads, hheads, h⟩ := h
      rcases exists_restless_of_iterateLevel h with ⟨X, hinner⟩ | ⟨hmin, own, hstart, hrun⟩
      · obtain ⟨least', rules', nested', outer', heads', own', hlevel, hmin, hgiven⟩ :=
          exists_givenUp_of_solveLevels hinner
        exact ⟨least', rules', nested', outer', heads', own', List.mem_cons_of_mem _ hlevel,
          hmin, hgiven⟩
      · exact ⟨least, rules, nested, outer, heads, own, List.mem_cons_self, hmin, hheads,
          hstart, hrun⟩

theorem exists_givenUp_of_solveLevels {a : Atom} : ∀ {Ls : List Fixpoint} {context : AtomSet},
    solveLevels base defined Ls context = .ok (.oscillating a) →
    ∃ least rules nested outer heads own, .level least rules nested ∈ Fixpoint.levelsList Ls ∧
    heads.min? = some a ∧
      GivenUp base defined least rules nested outer heads own
  | [], context, h => by
      rw [solveLevels] at h
      cases h
  | l :: ls, context, h => by
      rw [solveLevels, Except.bind_eq_ok] at h
      obtain ⟨value, hvalue, h⟩ := h
      cases value with
      | oscillating b =>
          cases h
          obtain ⟨least, rules, nested, outer, heads, own, hlevel, hfound⟩ :=
            exists_givenUp_of_solveLevel hvalue
          exact ⟨least, rules, nested, outer, heads, own, List.mem_append_left _ hlevel, hfound⟩
      | converged V =>
          obtain ⟨least, rules, nested, outer, heads, own, hlevel, hfound⟩ :=
            exists_givenUp_of_solveLevels h
          exact ⟨least, rules, nested, outer, heads, own, List.mem_append_right _ hlevel, hfound⟩

end

/-- A nested fixpoint definition that oscillates has a level that is given up. Its least head is
reported, and some head belongs to exactly one of its last two sets of own atoms; the one that is
reported does if it is the only head. -/
theorem fixpointModel_oscillating {F : Fixpoint} {a : Atom}
    (h : fixpointModel base F = .ok (.oscillating a)) :
    ∃ least rules nested outer heads own, .level least rules nested ∈ F.levels ∧
      GivenUp base F.defined least rules nested outer heads own ∧
      a ∈ heads ∧ (∀ b ∈ heads, (compare a b).isLE = true) ∧
      (∃ b ∈ heads, ¬ (b ∈ own (heads.size + 1) ↔ b ∈ own (heads.size + 2))) ∧
      ((∀ b ∈ heads, b = a) → ¬ (a ∈ own (heads.size + 1) ↔ a ∈ own (heads.size + 2))) := by
  obtain ⟨least, rules, nested, outer, heads, own, hlevel, hmin, hgiven⟩ :=
    exists_givenUp_of_solveLevel h
  obtain ⟨hmem, hleast⟩ := Std.ExtTreeSet.min?_eq_some_iff_mem_and_forall.mp hmin
  obtain ⟨b, hb, hchanged⟩ := hgiven.exists_changed (Nat.lt_succ_self _)
  exact ⟨least, rules, nested, outer, heads, own, hlevel, hgiven, hmem, hleast, ⟨b, hb, hchanged⟩,
    fun honly => honly b hb ▸ hchanged⟩

/-- The left lamp is on, and the right one is on if it is off. -/
def flicker : Fixpoint := .level true [⟨[], 0, [], .conj []⟩, ⟨[], 1, [], .atom false 1 []⟩] []

/-- The lamps that are on after each round: none, then both, and then the left one and both by
turns. -/
def flickering : Nat → AtomSet
  | 0 => ∅
  | n + 1 => .ofList (if n % 2 = 0 then [⟨0, []⟩, ⟨1, []⟩] else [(⟨0, []⟩ : Atom)])

/-- The left lamp is reported although it is on after every round: only the right one changes. -/
theorem flicker_oscillating : fixpointModel lamps flicker = .ok (.oscillating ⟨0, []⟩) ∧
    (∃ rules, flicker = .level true rules [] ∧
      GivenUp lamps flicker.defined true rules [] ∅
      (.ofList ([⟨0, []⟩, ⟨1, []⟩] : List Atom)) flickering) ∧
    (⟨0, []⟩ : Atom) ∈ flickering 3 ∧ (⟨0, []⟩ : Atom) ∈ flickering 4 := by
  refine ⟨by decide +kernel, ⟨_, rfl, by decide +kernel, rfl, fun i hi => ?_, ?_⟩, by
    decide +kernel,
    by decide +kernel⟩
  · have hround : ∀ i < 4, applyRules lamps flicker.defined
        [⟨[], 0, [], .conj []⟩, ⟨[], 1, [], .atom false 1 []⟩]
        (∅ ∪ flickering i) = .ok (flickering (i + 1)) := by
      decide +kernel
    exact ⟨_, rfl, hround i hi⟩
  · change ∀ i < 4, flickering (i + 1) ≠ flickering i
    decide +kernel

end ModelExpansion
