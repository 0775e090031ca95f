import Mathlib.Order.Iterate
import ModelExpansion.NestedFixpoint
import ModelExpansion.Proofs.Evaluation.Positive
import ModelExpansion.Proofs.WellFounded.Supported

/-! # Iteration of one level
A monotone operator on sets of heads, applied again and again from nothing or from all heads on,
settles on its least or its greatest fixed set within as many rounds as there are heads. -/

namespace ModelExpansion

/-! ## Sets of atoms -/

namespace AtomSet

theorem mem_union {X Y : AtomSet} {a : Atom} : a ∈ X ∪ Y ↔ a ∈ X ∨ a ∈ Y :=
  Std.ExtTreeSet.mem_union_iff

theorem insertMany_toList (X Y : AtomSet) : X.insertMany Y.toList = X ∪ Y := by
  refine Std.ExtTreeSet.ext_mem fun a => ?_
  rw [mem_insertMany, mem_union, Std.ExtTreeSet.mem_toList]

theorem le_union_left (X Y : AtomSet) : X ≤ X ∪ Y := fun _ ha => mem_union.mpr (.inl ha)

theorem union_le_union {X X' Y Y' : AtomSet} (hX : X ≤ X') (hY : Y ≤ Y') : X ∪ Y ≤ X' ∪ Y' :=
  fun a ha =>
  mem_union.mpr ((mem_union.mp ha).imp (hX a) (hY a))

/-- The atoms of a set that are not in another one, added to that one, give both together. -/
theorem union_filter_not_contains {X Y : AtomSet} (h : X ≤ Y) :
    X ∪ Y.filter (fun a => !X.contains a) = Y := by
  refine Std.ExtTreeSet.ext_mem fun a => ?_
  rw [mem_union, Std.ExtTreeSet.mem_filter]
  simp only [Std.ExtTreeSet.get_eq, Bool.not_eq_true', ← Bool.not_eq_true,
    Std.ExtTreeSet.contains_iff_mem]
  constructor
  · rintro (ha | ⟨ha, -⟩)
    · exact h a ha
    · exact ha
  · intro ha
    by_cases hX : a ∈ X
    · exact .inl hX
    · exact .inr ⟨ha, hX⟩

end AtomSet

/-! ## Settling -/

/-- Where every round that changes something lowers a measure, as many rounds as it counts are
enough. -/
theorem iterate_settles {α : Type*} {T : α → α} {P : α → Prop} {m : α → Nat}
    (hP : ∀ x, P x → P (T x))
    (hless : ∀ x, P x → T x ≠ x → m (T x) < m x) {n : Nat} {x : α} (hx : P x)
    (hn : m x ≤ n) : T (T^[n] x) = T^[n] x := by
  induction n generalizing x with
  | zero =>
      by_contra hne
      have := hless x hx hne
      omega
  | succ n ih =>
      rw [Function.iterate_succ_apply]
      by_cases hfixed : T x = x
      · rw [hfixed, Function.iterate_fixed hfixed, hfixed]
      · refine ih (hP x hx) ?_
        have := hless x hx hfixed
        omega

/-- The least or the greatest of some sets of atoms. -/
def IsExtreme (least : Bool) (sets : Set AtomSet) (X : AtomSet) : Prop :=
  if least then IsLeast sets X else IsGreatest sets X

theorem IsExtreme.unique {least : Bool} {sets : Set AtomSet} {X Y : AtomSet}
    (hX : IsExtreme least sets X) (hY : IsExtreme least sets Y) : X = Y := by
  cases least with
  | true => exact IsLeast.unique hX hY
  | false => exact IsGreatest.unique hX hY

def start (least : Bool) (heads : AtomSet) : AtomSet := if least then ∅ else heads

section Monotone

variable {T : AtomSet → AtomSet} {heads : AtomSet} (hT : Monotone T) (hheads : ∀ X, T X ≤ heads)

include hT hheads

theorem iterate_start_settles (least : Bool) :
    T (T^[heads.size] (start least heads)) = T^[heads.size] (start least heads) := by
  cases least with
  | true =>
      refine iterate_settles (P := fun X => X ≤ T X) (m := fun X => heads.size - X.size)
        (fun X hX => hT hX) (fun X hX hne => ?_) (AtomSet.empty_le _) (Nat.sub_le _ _)
      have hless := AtomSet.size_lt hX hne.symm
      have hbound := AtomSet.size_le (hheads X)
      omega
  | false =>
      exact iterate_settles (P := fun X => T X ≤ X) (m := fun X => X.size)
        (fun X hX => hT hX) (fun X hX hne => AtomSet.size_lt hX hne) (hheads heads) le_rfl

theorem isExtreme_iterate_start (least : Bool) :
    IsExtreme least {X | T X = X} (T^[heads.size] (start least heads)) := by
  have hfixed := iterate_start_settles hT hheads least
  cases least with
  | true =>
      refine ⟨hfixed, fun X hX => ?_⟩
      calc T^[heads.size] ∅ ≤ T^[heads.size] X := hT.iterate _ (AtomSet.empty_le X)
        _ = X := Function.iterate_fixed hX _
  | false =>
      refine ⟨hfixed, fun X hX => ?_⟩
      have hbound : X ≤ heads := Eq.trans_le (Eq.symm hX) (hheads X)
      calc X = T^[heads.size] X := (Function.iterate_fixed hX _).symm
        _ ≤ T^[heads.size] heads := hT.iterate _ hbound

end Monotone

/-! ## Rounds of a level -/

/-- One round of a level: `N` adds the values of the levels inside to the atoms around them, and `R`
gives the heads of the rules whose body is true. -/
def levelRound (N R : AtomSet → AtomSet) (outer X : AtomSet) : AtomSet := R (N (outer ∪ X))

/-- A level that settles in time converges to the values of the levels inside on top of the set it
reaches. -/
theorem iterateLevel_eq {inner : AtomSet → Except Failure FixpointValue}
    {derive : AtomSet → Except Failure AtomSet}
    {N R : AtomSet → AtomSet} (hinner : ∀ C, inner C = .ok (.converged (N C)))
    (hderive : ∀ C, derive C = .ok (R C)) {outer heads own : AtomSet} {k n : Nat} (hk : k < n)
    (hsettled :
      levelRound N R outer ((levelRound N R outer)^[k] own) = (levelRound N R outer)^[k] own) :
    iterateLevel inner derive outer heads n own =
      .ok (.converged
        ((N (outer ∪ (levelRound N R outer)^[k] own)).filter fun a => !outer.contains a)) := by
  induction n generalizing own k with
  | zero => exact absurd hk (Nat.not_lt_zero k)
  | succ n ih =>
      simp only [iterateLevel, AtomSet.insertMany_toList, hinner, hderive, Except.ok_bind]
      by_cases hown : levelRound N R outer own = own
      · rw [Function.iterate_fixed hown]
        exact if_pos hown
      · cases k with
        | zero => exact absurd hsettled hown
        | succ k =>
            rw [Function.iterate_succ_apply] at hsettled ⊢
            exact (if_neg hown).trans (ih (Nat.lt_of_succ_lt_succ hk) hsettled)

end ModelExpansion
