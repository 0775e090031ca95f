import Mathlib.Combinatorics.Pigeonhole
import Mathlib.Dynamics.PeriodicPts.Defs
import ModelExpansion.Proofs.WellFounded.Supported

/-! # Rounds of the alternation
Whatever the bodies of the rules are, every derivation ends in a closed set of heads. So there are
only so many lower bounds, and an alternation that does not settle while all of them could have come
up never settles. -/

namespace ModelExpansion

variable {base : Structure} {defined : List SymbolId} {rules : List Rule}

theorem Evaluable.leastModel_heads (h : Evaluable base defined rules) (fixed : AtomSet) :
    ∃ Z, leastModel base defined rules fixed = .ok Z ∧ ClosedUnder base defined rules fixed Z ∧
      ∀ a ∈ Z, a ∈ heads rules := by
  refine h.leastModel_spec (P := fun X => ∀ a ∈ X, a ∈ heads rules)
    (fun X new hX hnew a ha => ?_) fun a ha =>
    absurd ha Std.ExtTreeSet.not_mem_empty
  rcases AtomSet.mem_insertMany.mp ha with ha | ha
  · exact hX a ha
  · obtain ⟨r, hr, hgives⟩ := hnew a ha
    exact mem_heads.mpr ⟨r, hr, hgives.1⟩

/-! ## Lower bounds -/

section Iterates

variable {G : AtomSet → AtomSet}

/-- An alternation goes on as long as every lower bound differs from the next one. -/
theorem alternate_unsettled_iff
    (hmodel : ∀ X, leastModel base defined rules X = .ok (G X)) {n : Nat}
    {lower : AtomSet} : alternate base defined rules n lower = .error .unsettled ↔
      ∀ i < n, (G ∘ G)^[i + 1] lower ≠ (G ∘ G)^[i] lower := by
  induction n generalizing lower with
  | zero => simp [alternate, throw, throwThe, MonadExceptOf.throw]
  | succ n ih =>
      simp only [alternate, hmodel, Except.ok_bind]
      by_cases hend : G (G lower) = lower
      · rw [if_pos hend]
        constructor
        · intro h
          cases h
        · intro h
          exact absurd hend (h 0 (Nat.succ_pos n))
      · rw [if_neg hend, ih]
        constructor
        · intro h i hi
          cases i with
          | zero => exact hend
          | succ i => exact h i (Nat.lt_of_succ_lt_succ hi)
        · intro h i hi
          exact h (i + 1) (Nat.succ_lt_succ hi)

/-- Among more lower bounds than there are sets of heads, one comes up twice. -/
theorem exists_repeated (hheads : ∀ X, ∀ a ∈ G X, a ∈ heads rules) :
    ∃ i j, i < j ∧ j ≤ 2 ^ rules.length ∧ (G ∘ G)^[i] ∅ = (G ∘ G)^[j] ∅ := by
  let chosen (i : Nat) : Finset Atom := (heads rules).toFinset.filter (· ∈ (G ∘ G)^[i] ∅)
  have hbound : ∀ i, ∀ a ∈ (G ∘ G)^[i] ∅, a ∈ heads rules := by
    intro i a ha
    cases i with
    | zero => exact absurd ha Std.ExtTreeSet.not_mem_empty
    | succ i =>
        rw [Function.iterate_succ_apply'] at ha
        exact hheads _ a ha
  have hcard : (heads rules).toFinset.powerset.card <
      (Finset.range (2 ^ rules.length + 1)).card := by
    rw [Finset.card_powerset, Finset.card_range]
    apply Nat.lt_succ_of_le
    apply Nat.pow_le_pow_right (by decide)
    exact (List.toFinset_card_le _).trans (List.length_filterMap_le _ _)
  obtain ⟨i, hi, j, hj, hne, heq⟩ :=
    Finset.exists_ne_map_eq_of_card_lt_of_maps_to hcard (f := chosen)
    fun i _ => Finset.mem_powerset.mpr (Finset.filter_subset _ _)
  have hsame : (G ∘ G)^[i] ∅ = (G ∘ G)^[j] ∅ := by
    refine Std.ExtTreeSet.ext_mem fun a => ?_
    have ha := Finset.ext_iff.mp heq a
    simp only [chosen, Finset.mem_filter, List.mem_toFinset] at ha
    exact ⟨fun h => (ha.mp ⟨hbound i a h, h⟩).2, fun h => (ha.mpr ⟨hbound j a h, h⟩).2⟩
  rw [Finset.mem_range, Nat.lt_succ_iff] at hi hj
  rcases Nat.lt_or_gt_of_ne hne with hlt | hlt
  · exact ⟨i, j, hlt, hj, hsame⟩
  · exact ⟨j, i, hlt, hi, hsame.symm⟩

/-- A bound that stays the same is reached before a bound comes up again. -/
theorem settles_of_repeated {f : AtomSet → AtomSet} {X : AtomSet} {i j n : Nat} (hij : i < j)
    (hrepeated : f^[i] X = f^[j] X) (hsettled : f^[n + 1] X = f^[n] X) : f^[i + 1] X = f^[i] X := by
  have hperiod : Function.IsPeriodicPt f (j - i) (f^[i] X) := by
    rw [Function.IsPeriodicPt, Function.IsFixedPt, ← Function.iterate_add_apply,
      Nat.sub_add_cancel hij.le]
    exact hrepeated.symm
  have hfixed : Function.IsFixedPt f (f^[n] X) := by
    rw [Function.IsFixedPt, ← Function.iterate_succ_apply' f n X]
    exact hsettled
  -- Going round often enough leads from the repeated bound past the one that stays.
  have hround : f^[n * (j - i)] (f^[i] X) = f^[i] X := hperiod.const_mul n
  have hle : n ≤ n * (j - i) + i := by
    calc n = n * 1 := (Nat.mul_one n).symm
      _ ≤ n * (j - i) := Nat.mul_le_mul_left n (Nat.sub_pos_of_lt hij)
      _ ≤ n * (j - i) + i := Nat.le_add_right _ _
  have hsame : f^[i] X = f^[n] X := by
    rw [← hround, ← Function.iterate_add_apply, ← Nat.sub_add_cancel hle,
      Function.iterate_add_apply]
    exact hfixed.iterate _
  rw [Function.iterate_succ_apply', hsame]
  exact hfixed

end Iterates

/-- The alternation is given up only if no number of rounds is enough. -/
theorem wellFoundedModel_unsettled_iff (h : Evaluable base defined rules) :
    wellFoundedModel base defined rules = .error .unsettled ↔
      ∀ n, alternate base defined rules n ∅ = .error .unsettled := by
  choose G hmodel hclosed using h.leastModel_heads
  refine ⟨fun hunsettled n => ?_, fun hall => hall _⟩
  rw [wellFoundedModel, alternate_unsettled_iff hmodel] at hunsettled
  rw [alternate_unsettled_iff hmodel]
  intro k _ hsettled
  obtain ⟨i, j, hij, hj, hrepeated⟩ := exists_repeated fun X => (hclosed X).2
  refine hunsettled i ?_ (settles_of_repeated hij hrepeated hsettled)
  exact Nat.lt_succ_of_lt (Nat.lt_of_lt_of_le hij hj)

/-- The left lamp comes on when both are off, and the right one when the left one was on. -/
def blinking : List Rule :=
  [⟨[], 0, [], .conj [.atom false 0 [], .atom false 1 []]⟩,
    ⟨[], 1, [],
      (Formula.compare (.aggregate .card (.enumerated [(.pred 0 [], .element (.int 1))])) .eq
      (.element (.int 0))).negate⟩]

/-- Where a count of defined atoms is negated, three lower bounds follow each other for ever. -/
theorem alternate_blinking (n : Nat) : alternate lamps [0, 1] blinking n ∅ = .error .unsettled := by
  let first : AtomSet := .ofList ([⟨0, []⟩] : List Atom)
  let second : AtomSet := .ofList ([⟨1, []⟩] : List Atom)
  have hnothing : leastModel lamps [0, 1] blinking ∅ = .ok first := by decide +kernel
  have hfirst : leastModel lamps [0, 1] blinking first = .ok second := by decide +kernel
  have hsecond : leastModel lamps [0, 1] blinking second = .ok ∅ := by decide +kernel
  have hall : ∀ n, ∀ lower ∈ [∅, first, second],
      alternate lamps [0, 1] blinking n lower = .error .unsettled := by
    intro n
    induction n with
    | zero => exact fun _ _ => rfl
    | succ n ih =>
        simp only [List.forall_mem_cons] at ih ⊢
        simp only [alternate, hnothing, hfirst, hsecond, Except.ok_bind]
        refine ⟨?_, ?_, ?_, by simp⟩
        · rw [if_neg (by decide +kernel)]
          exact ih.2.2.1
        · rw [if_neg (by decide +kernel)]
          exact ih.1
        · rw [if_neg (by decide +kernel)]
          exact ih.2.1
  exact hall n ∅ List.mem_cons_self

end ModelExpansion
