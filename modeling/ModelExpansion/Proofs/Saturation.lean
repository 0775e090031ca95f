import Mathlib.Algebra.BigOperators.Group.List.Lemmas
import Mathlib.Algebra.Order.BigOperators.Group.List
import Mathlib.Tactic.Linarith
import ModelExpansion.Proofs.Evaluation.Environment

/-! # Aggregates that leave the 64 bits
Sums and products are clamped after each weight. The result is the exact one, clamped once, as long
as nothing that was cut off is missed afterwards. Which lists can be reordered without a change of
the result is characterised for every kind of aggregate. -/

namespace ModelExpansion

namespace Aggregate

/-! ## Clamping -/

theorem clamp_of_maxInt_le {n : Int} (h : maxInt ≤ n) : clamp n = maxInt := by
  simp only [clamp, minInt, maxInt] at *
  split_ifs <;> omega

theorem clamp_of_le_minInt {n : Int} (h : n ≤ minInt) : clamp n = minInt := by
  simp only [clamp, minInt, maxInt] at *
  split_ifs <;> omega

theorem clamp_of_mem {n : Int} (hlo : minInt ≤ n) (hhi : n ≤ maxInt) : clamp n = n := by
  rw [clamp, if_neg (not_lt.mpr hlo), if_neg (not_lt.mpr hhi)]

theorem minInt_le_clamp (n : Int) : minInt ≤ clamp n := by
  simp only [clamp, minInt, maxInt]
  split_ifs <;> omega

theorem clamp_le_maxInt (n : Int) : clamp n ≤ maxInt := by
  simp only [clamp, minInt, maxInt]
  split_ifs <;> omega

/-- Adding to what was cut off, or leading further away, makes no difference. -/
theorem clamp_clamp_add {n w : Int} (hhi : maxInt < n → 0 ≤ w) (hlo : n < minInt → w ≤ 0) :
    clamp (clamp n + w) = clamp (n + w) := by
  simp only [clamp, minInt, maxInt] at *
  split_ifs <;> omega

/-- A product that was cut off stays beyond the bounds. Only the negation of the greatest integer is
still one more than the least one. -/
theorem clamp_clamp_mul {n w : Int} (h : maxInt < n → w ≠ -1) :
    clamp (clamp n * w) = clamp (n * w) := by
  rcases lt_or_ge maxInt n with hhi | hhi
  · rw [clamp_of_maxInt_le hhi.le]
    rcases lt_trichotomy w 0 with hw | rfl | hw
    · have hw : w ≤ -2 := by
        have := h hhi
        omega
      rw [clamp_of_le_minInt, clamp_of_le_minInt] <;> simp only [minInt, maxInt] at * <;> nlinarith
    · simp
    · rw [clamp_of_maxInt_le, clamp_of_maxInt_le] <;> simp only [maxInt] at * <;> nlinarith
  · rcases lt_or_ge n minInt with hlo | hlo
    · rw [clamp_of_le_minInt hlo.le]
      rcases lt_trichotomy w 0 with hw | rfl | hw
      · rw [clamp_of_maxInt_le, clamp_of_maxInt_le] <;>
          simp only [minInt, maxInt] at * <;> nlinarith
      · simp
      · rw [clamp_of_le_minInt, clamp_of_le_minInt] <;> simp only [minInt] at * <;> nlinarith
    · rw [clamp_of_mem hlo hhi]

theorem fold_concat (k : Aggregate) (ws : List Int) (w : Int) :
    k.fold (ws ++ [w]) = k.combine (k.fold ws) w := by
  rw [fold, fold, List.foldl_append, List.foldl_cons, List.foldl_nil]

/-! ## Sums -/

/-- Whether partial sums that have left the 64 bits stay away: no exact partial sum beyond a bound
is followed by a weight that leads back. -/
def NeverReturns (ws : List Int) : Prop :=
  ∀ xs ys, ws = xs ++ ys → (maxInt < xs.sum → ∀ y ∈ ys, 0 ≤ y) ∧ (xs.sum < minInt → ∀ y ∈ ys, y ≤ 0)

theorem NeverReturns.dropLast {ws : List Int} {w : Int}
    (h : NeverReturns (ws ++ [w])) : NeverReturns ws := by
  rintro xs ys rfl
  have hsplit := h xs (ys ++ [w]) (List.append_assoc _ _ _)
  exact ⟨fun hhi y hy => hsplit.1 hhi y (List.mem_append_left _ hy),
    fun hlo y hy => hsplit.2 hlo y (List.mem_append_left _ hy)⟩

/-- Sums that never return are clamped once. -/
theorem sum_fold_of_neverReturns {ws : List Int} (h : NeverReturns ws) :
    sum.fold ws = some (clamp ws.sum) := by
  induction ws using List.reverseRecOn with
  | nil => rfl
  | append_singleton ws w ih =>
      obtain ⟨hhi, hlo⟩ := h ws [w] rfl
      rw [List.forall_mem_singleton] at hhi hlo
      rw [fold_concat, ih h.dropLast, combine, Option.getD_some, clamp_clamp_add hhi hlo,
        List.sum_append, List.sum_singleton]

/-! ### Weights of both signs -/

def gains (ws : List Int) : Int := (ws.filter fun w => 0 < w).sum

def losses (ws : List Int) : Int := (ws.filter fun w => w < 0).sum

theorem sum_nonpos {ws : List Int} (h : ∀ w ∈ ws, w ≤ 0) : ws.sum ≤ 0 := by
  simpa using List.sum_le_card_nsmul ws 0 h

section Signs

variable (xs ys : List Int)

theorem gains_nonneg : 0 ≤ gains xs :=
  List.sum_nonneg fun w hw => le_of_lt (a := 0) (b := w) (by simpa using (List.mem_filter.mp hw).2)

theorem losses_nonpos : losses xs ≤ 0 :=
  sum_nonpos fun w hw => le_of_lt (a := w) (b := 0) (by simpa using (List.mem_filter.mp hw).2)

theorem gains_append : gains (xs ++ ys) = gains xs + gains ys := by
  rw [gains, List.filter_append, List.sum_append, gains, gains]

theorem losses_append : losses (xs ++ ys) = losses xs + losses ys := by
  rw [losses, List.filter_append, List.sum_append, losses, losses]

theorem gains_add_losses : gains xs + losses xs = xs.sum := by
  induction xs with
  | nil => rfl
  | cons w ws ih =>
      rw [gains, losses] at ih
      rw [gains, losses, List.filter_cons, List.filter_cons, List.sum_cons, ← ih]
      split_ifs <;> simp only [decide_eq_true_eq, List.sum_cons] at * <;> omega

end Signs

variable {ws ws' : List Int}

theorem le_gains {w : Int} (h : w ∈ ws) : w ≤ gains ws := by
  obtain ⟨as, bs, rfl⟩ := List.append_of_mem h
  have hw : gains [w] + losses [w] = w := (gains_add_losses [w]).trans List.sum_singleton
  rw [← List.singleton_append, gains_append, gains_append]
  linarith [gains_nonneg as, gains_nonneg bs, losses_nonpos [w]]

theorem losses_le {w : Int} (h : w ∈ ws) : losses ws ≤ w := by
  obtain ⟨as, bs, rfl⟩ := List.append_of_mem h
  have hw : gains [w] + losses [w] = w := (gains_add_losses [w]).trans List.sum_singleton
  rw [← List.singleton_append, losses_append, losses_append]
  linarith [losses_nonpos as, losses_nonpos bs, gains_nonneg [w]]

/-- Whether no two weights have different signs. -/
def OneSign (ws : List Int) : Prop := (∀ w ∈ ws, 0 ≤ w) ∨ ∀ w ∈ ws, w ≤ 0

/-- Whether weights have one sign, or the positive ones and the negative ones each stay within 64
bits. -/
def Balanced (ws : List Int) : Prop := OneSign ws ∨ (gains ws ≤ maxInt ∧ minInt ≤ losses ws)

theorem Balanced.perm (h : Balanced ws) (hperm : ws'.Perm ws) : Balanced ws' := by
  have hgains : gains ws' = gains ws := (hperm.filter _).sum_eq
  have hlosses : losses ws' = losses ws := (hperm.filter _).sum_eq
  rw [Balanced, hgains, hlosses]
  refine h.imp_left (Or.imp (fun hpos w hw => ?_) fun hneg w hw => ?_)
  · exact hpos w (hperm.mem_iff.mp hw)
  · exact hneg w (hperm.mem_iff.mp hw)

/-- Behind a first weight within 64 bits, weights of one sign never lead back. -/
theorem neverReturns_cons {c : Int} (hlo : minInt ≤ c) (hhi : c ≤ maxInt) (h : OneSign ws) :
    NeverReturns (c :: ws) := by
  intro xs ys hsplit
  cases xs with
  | nil => exact ⟨fun hout => absurd hout (by decide), fun hout => absurd hout (by decide)⟩
  | cons x xs =>
      obtain ⟨rfl, rfl⟩ := List.cons.inj hsplit
      rw [List.sum_cons]
      rcases h with hpos | hneg
      · have hxs : 0 ≤ xs.sum := List.sum_nonneg fun w hw => hpos w (List.mem_append_left _ hw)
        exact ⟨fun _ w hw => hpos w (List.mem_append_right _ hw),
          fun hout => absurd hout (by omega)⟩
      · have hxs : xs.sum ≤ 0 := sum_nonpos fun w hw => hneg w (List.mem_append_left _ hw)
        exact ⟨fun hout => absurd hout (by omega), fun _ w hw =>
          hneg w (List.mem_append_right _ hw)⟩

theorem OneSign.neverReturns (h : OneSign ws) : NeverReturns ws := by
  intro xs ys hsplit
  have hcons :=
    neverReturns_cons (c := 0) (by decide) (by decide) h (0 :: xs) ys (by rw [hsplit]; rfl)
  rwa [List.sum_cons, zero_add] at hcons

theorem Balanced.neverReturns (h : Balanced ws) : NeverReturns ws := by
  rcases h with hsign | ⟨hhi, hlo⟩
  · exact hsign.neverReturns
  · rintro xs ys rfl
    rw [gains_append] at hhi
    rw [losses_append] at hlo
    have hsum : gains xs + losses xs = xs.sum := gains_add_losses xs
    have := gains_nonneg xs; have := gains_nonneg ys; have := losses_nonpos xs; have :=
      losses_nonpos ys
    exact ⟨fun hout => absurd hout (by omega), fun hout => absurd hout (by omega)⟩

theorem sum_fold_append (h : OneSign ws) (h' : OneSign ws') :
    sum.fold (ws ++ ws') = some (clamp (clamp ws.sum + ws'.sum)) := by
  have hcons : sum.fold (clamp ws.sum :: ws') = some (clamp (clamp ws.sum + ws'.sum)) := by
    rw [sum_fold_of_neverReturns (neverReturns_cons (minInt_le_clamp _) (clamp_le_maxInt _) h'),
      List.sum_cons]
  rw [← hcons, fold, List.foldl_append, ← fold, sum_fold_of_neverReturns h.neverReturns, fold,
    List.foldl_cons, identity, combine, Option.getD_some, zero_add,
    clamp_of_mem (minInt_le_clamp _) (clamp_le_maxInt _)]

/-- Taking all gains first and taking them last make a difference if either gains or losses leave
the 64 bits. -/
theorem clamp_gains_ne {p n : Int} (hp : 0 < p) (hn : n < 0) (h : p ≤ maxInt → n < minInt) :
    clamp (clamp p + n) ≠ clamp (clamp n + p) := by
  simp only [clamp, minInt, maxInt] at *
  split_ifs <;> omega

/-- Any other weights have an order in which they add up differently. -/
theorem exists_perm_sum_fold_ne (h : ¬ Balanced ws) :
    ∃ ws', ws'.Perm ws ∧ sum.fold ws' ≠ sum.fold ws := by
  obtain ⟨hsign, hbounds⟩ := not_or.mp h
  obtain ⟨hneg, hpos⟩ := not_or.mp hsign
  push Not at hneg hpos hbounds
  obtain ⟨l, hl, hl0⟩ := hneg
  obtain ⟨g, hg, hg0⟩ := hpos
  let first := ws.filter fun w => 0 < w
  let rest := ws.filter fun w => !decide (0 < w)
  have hperm : (first ++ rest).Perm ws := List.filter_append_perm _ ws
  have hfirst : OneSign first :=
    .inl fun w hw => le_of_lt (by simpa using (List.mem_filter.mp hw).2)
  have hrest : OneSign rest := .inr fun w hw => by simpa using (List.mem_filter.mp hw).2
  have hlosses : rest.sum = losses ws := by
    have hsum := hperm.sum_eq
    rw [List.sum_append, ← gains_add_losses ws] at hsum
    exact add_left_cancel hsum
  have hne : sum.fold (first ++ rest) ≠ sum.fold (rest ++ first) := by
    rw [sum_fold_append hfirst hrest, sum_fold_append hrest hfirst, hlosses]
    exact fun heq => clamp_gains_ne (hg0.trans_le (le_gains hg))
      ((losses_le hl).trans_lt hl0) hbounds
      (Option.some.inj heq)
  by_cases hfold : sum.fold (first ++ rest) = sum.fold ws
  · exact ⟨rest ++ first, List.perm_append_comm.trans hperm, fun heq => hne (hfold.trans heq.symm)⟩
  · exact ⟨first ++ rest, hperm, hfold⟩

/-! ## Products -/

/-- Whether a product beyond the greatest integer is negated, and then only multiplied by one. -/
def NegatedLast (ws : List Int) : Prop :=
  ∃ xs n, ws = xs ++ -1 :: List.replicate n 1 ∧ maxInt < xs.prod

theorem negatedLast_nil : ¬ NegatedLast [] := by
  rintro ⟨xs, n, h, -⟩
  exact List.append_ne_nil_of_right_ne_nil _ (List.cons_ne_nil _ _) h.symm

theorem negatedLast_concat {w : Int} :
    NegatedLast (ws ++ [w]) ↔ (w = -1 ∧ maxInt < ws.prod) ∨ (w = 1 ∧ NegatedLast ws) := by
  constructor
  · rintro ⟨xs, n, h, hxs⟩
    cases n with
    | zero =>
        obtain ⟨rfl, hw⟩ := List.append_inj' h rfl
        exact .inl ⟨List.singleton_inj.mp hw, hxs⟩
    | succ n =>
        rw [List.replicate_succ', ← List.cons_append, ← List.append_assoc] at h
        obtain ⟨rfl, hw⟩ := List.append_inj' h rfl
        exact .inr ⟨List.singleton_inj.mp hw, xs, n, rfl, hxs⟩
  · rintro (⟨rfl, h⟩ | ⟨rfl, xs, n, rfl, hxs⟩)
    · exact ⟨ws, 0, rfl, h⟩
    · exact ⟨xs, n + 1, by rw [List.replicate_succ', ← List.cons_append, List.append_assoc], hxs⟩

theorem NegatedLast.prod_le (h : NegatedLast ws) : ws.prod ≤ minInt := by
  obtain ⟨xs, n, rfl, hxs⟩ := h
  rw [List.prod_append, List.prod_cons, List.prod_replicate, one_pow]
  simp only [minInt, maxInt] at *
  omega

/-- The negation of the greatest integer goes on like any product below the bounds, unless it stays
what it is. -/
theorem clamp_negated_mul {n w : Int} (hn : n ≤ minInt) (hw : w ≠ 1) :
    clamp ((minInt + 1) * w) = clamp (n * w) := by
  rcases lt_trichotomy w 0 with hneg | rfl | hpos
  · rw [clamp_of_maxInt_le, clamp_of_maxInt_le] <;> simp only [minInt, maxInt] at * <;> nlinarith
  · simp
  · have : 2 ≤ w := by omega
    rw [clamp_of_le_minInt, clamp_of_le_minInt] <;> simp only [minInt] at * <;> nlinarith

/-- Products are clamped once, with the negation of the greatest integer as the only other
outcome. -/
theorem prod_fold (ws : List Int) :
    (NegatedLast ws → prod.fold ws = some (minInt + 1)) ∧
      (¬ NegatedLast ws → prod.fold ws = some (clamp ws.prod)) := by
  induction ws using List.reverseRecOn with
  | nil => exact ⟨fun h => absurd h negatedLast_nil, fun _ => rfl⟩
  | append_singleton ws w ih =>
      rw [negatedLast_concat, fold_concat, List.prod_append, List.prod_singleton]
      by_cases hws : NegatedLast ws
      · rw [ih.1 hws, combine, Option.getD_some]
        refine ⟨?_, fun h => ?_⟩
        · rintro (⟨-, hhi⟩ | ⟨rfl, -⟩)
          · exact absurd (hws.prod_le.trans_lt (by decide)) hhi.not_gt
          · rfl
        · rw [clamp_negated_mul hws.prod_le fun hw => h (.inr ⟨hw, hws⟩)]
      · rw [ih.2 hws, combine, Option.getD_some]
        refine ⟨?_, fun h => ?_⟩
        · rintro (⟨rfl, hhi⟩ | ⟨-, hlast⟩)
          · rw [clamp_of_maxInt_le hhi.le]
            rfl
          · exact absurd hlast hws
        · rw [clamp_clamp_mul fun hhi hw => h (.inl ⟨hw, hhi⟩)]

/-! ## Reordering -/

/-- Whether weights have the same value in every order: for a sum if they are balanced, for a
product if it does not reach the least integer or no weight is the one whose negation can be cut
off. -/
def Orderless : Aggregate → List Int → Prop
  | sum, ws => Balanced ws
  | prod, ws => -1 ∈ ws → minInt < ws.prod
  | _, _ => True

theorem prod_fold_of_orderless (h : prod.Orderless ws) : prod.fold ws = some (clamp ws.prod) := by
  refine (prod_fold ws).2 fun hlast => hlast.prod_le.not_gt (h ?_)
  obtain ⟨xs, n, rfl, -⟩ := hlast
  exact List.mem_append_right _ List.mem_cons_self

theorem Orderless.perm {k : Aggregate} (h : k.Orderless ws)
    (hperm : ws'.Perm ws) : k.Orderless ws' := by
  cases k with
  | sum => exact Balanced.perm h hperm
  | prod => exact fun hmem => hperm.prod_eq ▸ h (hperm.mem_iff.mp hmem)
  | card => trivial
  | min => trivial
  | max => trivial

/-- Counts and extremes are the same in every order. -/
theorem combine_right_comm {k : Aggregate} (hk : k ≠ sum ∧ k ≠ prod) (acc : Option Int)
    (w w' : Int) :
    k.combine (k.combine acc w) w' = k.combine (k.combine acc w') w := by
  cases k with
  | card => rfl
  | sum => exact absurd rfl hk.1
  | prod => exact absurd rfl hk.2
  | min =>
      cases acc <;> simp only [combine, Option.some.injEq] <;> split_ifs <;> omega
  | max =>
      cases acc <;> simp only [combine, Option.some.injEq] <;> split_ifs <;> omega

theorem Orderless.fold_perm {k : Aggregate} (h : k.Orderless ws) (hperm : ws'.Perm ws) :
    k.fold ws' = k.fold ws := by
  have h' := h.perm hperm
  cases k with
  | sum =>
      rw [sum_fold_of_neverReturns (Balanced.neverReturns h),
        sum_fold_of_neverReturns (Balanced.neverReturns h'), hperm.sum_eq]
  | prod => rw [prod_fold_of_orderless h, prod_fold_of_orderless h', hperm.prod_eq]
  | card => exact hperm.foldl_eq' (fun _ _ _ _ _ => combine_right_comm (by decide) _ _ _) _
  | min => exact hperm.foldl_eq' (fun _ _ _ _ _ => combine_right_comm (by decide) _ _ _) _
  | max => exact hperm.foldl_eq' (fun _ _ _ _ _ => combine_right_comm (by decide) _ _ _) _

/-- A product within 64 bits has a weight that is no unit unless it is a unit itself. -/
theorem exists_mem_of_prod_le (h : ws.prod ≤ minInt) : ∃ w ∈ ws, w ≠ 1 ∧ w ≠ -1 := by
  by_contra hunits
  push Not at hunits
  have hprod : IsUnit ws.prod := List.prod_isUnit fun w hw =>
    Int.isUnit_iff.mpr (or_iff_not_imp_left.mpr (hunits w hw))
  simp only [minInt] at h
  rcases Int.isUnit_iff.mp hprod with hone | hone <;> omega

/-- Any other weights have an order with a different product: one that ends with the negation, and
one that ends with a weight that leads beyond the bounds. -/
theorem exists_perm_prod_fold_ne (h : ¬ prod.Orderless ws) :
    ∃ ws', ws'.Perm ws ∧ prod.fold ws' ≠ prod.fold ws := by
  obtain ⟨hmem, hprod⟩ := Classical.not_imp.mp h
  rw [not_lt] at hprod
  obtain ⟨w, hw, hw1, hwneg⟩ := exists_mem_of_prod_le hprod
  have hlast : ∀ {x}, x ∈ ws → (ws.erase x ++ [x]).Perm ws := fun hx =>
    List.perm_append_comm.trans (List.perm_cons_erase hx).symm
  have hnegated : prod.fold (ws.erase (-1) ++ [-1]) = some (minInt + 1) := by
    have herase : -1 * (ws.erase (-1)).prod = ws.prod := List.prod_erase hmem
    refine (prod_fold _).1 (negatedLast_concat.mpr (.inl ⟨rfl, ?_⟩))
    simp only [minInt, maxInt] at *
    omega
  have hclamped : prod.fold (ws.erase w ++ [w]) = some minInt := by
    rw [(prod_fold _).2, (hlast hw).prod_eq, clamp_of_le_minInt hprod]
    rw [negatedLast_concat]
    rintro (⟨rfl, -⟩ | ⟨rfl, -⟩)
    · exact hwneg rfl
    · exact hw1 rfl
  by_cases hfold : prod.fold (ws.erase w ++ [w]) = prod.fold ws
  · refine ⟨_, hlast hmem, fun heq => ?_⟩
    rw [hnegated, ← hfold, hclamped] at heq
    exact absurd heq (by decide)
  · exact ⟨_, hlast hw, hfold⟩

/-- The weights with one value in all orders, for every kind of aggregate. -/
theorem orderless_iff {k : Aggregate} :
    k.Orderless ws ↔ ∀ ws', ws'.Perm ws → k.fold ws' = k.fold ws := by
  refine ⟨fun h ws' hperm => h.fold_perm hperm, fun h => ?_⟩
  by_contra hnot
  obtain ⟨ws', hperm, hne⟩ : ∃ ws', ws'.Perm ws ∧ k.fold ws' ≠ k.fold ws := by
    cases k with
    | sum => exact exists_perm_sum_fold_ne hnot
    | prod => exact exists_perm_prod_fold_ne hnot
    | card => exact absurd trivial hnot
    | min => exact absurd trivial hnot
    | max => exact absurd trivial hnot
  exact hne (h ws' hperm)

/-! ## Sets -/

end Aggregate

/-- What evaluation makes of a member: its truth and its weight, both open where evaluation
fails. -/
def Member.reading (v : Valuation) (positive : Bool) (m : Member) : Truth × TermValue :=
  ((evalFormula v positive m.1).toOption.getD .unknown,
    (evalTerm v positive m.2).toOption.getD .unknown)

namespace Aggregate

variable {v : Valuation} {positive : Bool}

theorem memberIs_reading (m : Member) : v.MemberIs positive m (m.reading v positive) :=
  ⟨fun x hx => by rw [Member.reading, hx]; rfl, fun x hx => by rw [Member.reading, hx]; rfl⟩

def foldedWeights (kind : Aggregate) (v : Valuation) (positive : Bool)
    (ms : List Member) : List Int :=
  (kind.certainWeights (ms.map fun m => m.reading v positive)).filterMap TermValue.integer?

theorem evalSet_eq_value {kind : Aggregate} {ms : List Member} {x : TermValue}
    (h : evalSet v positive kind (.enumerated ms) = .ok x) :
    x = kind.value kind.identity false (ms.map fun m => m.reading v positive) := by
  rw [evalSet] at h
  refine eq_value_of_evalMembers ?_ h
  rw [List.forall₂_map_right_iff, List.forall₂_same]
  exact fun m _ => memberIs_reading m

/-- Whether evaluation gets past a member: its condition is decided or open, and a weight that
matters is an integer or open. -/
def Passes (kind : Aggregate) (v : Valuation) (positive : Bool) (m : Member) : Prop :=
  ∃ c, evalFormula v positive m.1 = .ok c ∧
    (c = .yes → kind.usesWeights = true →
      (∃ n, evalTerm v positive m.2 = .ok (.known (.int n))) ∨
      evalTerm v positive m.2 = .ok .unknown)

/-- A set is evaluated to the end if evaluation gets past each member. -/
theorem evalMembers_of_passes {kind : Aggregate} {ms : List Member}
    (h : ∀ m ∈ ms, kind.Passes v positive m) :
    ∀ acc unknown, ∃ x, evalMembers v positive kind acc unknown ms = .ok x := by
  induction ms with
  | nil => exact fun acc unknown => ⟨_, by rw [evalMembers]; rfl⟩
  | cons m ms ih =>
      intro acc unknown
      obtain ⟨⟨c, hc, hw⟩, hms⟩ := List.forall_mem_cons.mp h
      rw [evalMembers, hc, Except.ok_bind]
      cases c with
      | no => exact ih hms _ _
      | unknown => exact ih hms _ _
      | yes =>
          by_cases hkind : kind.usesWeights = true
          · rcases hw rfl hkind with ⟨n, hn⟩ | hn
            · simpa only [if_pos hkind, hn, Except.ok_bind] using ih hms _ _
            · simpa only [if_pos hkind, hn, Except.ok_bind] using ih hms _ _
          · simpa only [if_neg hkind] using ih hms _ _

theorem passes_of_evalMembers {kind : Aggregate} {ms : List Member} {acc : Option Int}
    {unknown : Bool} {x : TermValue}
    (h : evalMembers v positive kind acc unknown ms = .ok x) (hx : x ≠ .undefined) :
    ∀ m ∈ ms, kind.Passes v positive m := by
  induction ms generalizing acc unknown with
  | nil => exact fun m hm => absurd hm List.not_mem_nil
  | cons m ms ih =>
      rw [evalMembers, Except.bind_eq_ok] at h
      obtain ⟨c, hc, h⟩ := h
      rw [List.forall_mem_cons]
      cases c with
      | no => exact ⟨⟨_, hc, nofun⟩, ih h⟩
      | unknown => exact ⟨⟨_, hc, nofun⟩, ih h⟩
      | yes =>
          by_cases hkind : kind.usesWeights = true
          · rw [if_pos hkind, Except.bind_eq_ok] at h
            obtain ⟨w, hw, h⟩ := h
            cases w with
            | undefined => exact absurd (Except.ok.inj h).symm hx
            | unknown => exact ⟨⟨_, hc, fun _ _ => .inr hw⟩, ih h⟩
            | known e =>
                cases e with
                | int n => exact ⟨⟨_, hc, fun _ _ => .inl ⟨n, hw⟩⟩, ih h⟩
                | name s => cases h
          · rw [if_neg hkind] at h
            exact ⟨⟨_, hc, fun _ hweights => absurd hweights hkind⟩, ih h⟩

theorem value_perm {kind : Aggregate} {members members' : List (Truth × TermValue)}
    (horder : kind.Orderless ((kind.certainWeights members).filterMap TermValue.integer?))
    (hperm : members'.Perm members) :
    kind.value kind.identity false members' = kind.value kind.identity false members := by
  have hweights : (kind.certainWeights members').Perm (kind.certainWeights members) :=
    (hperm.filter _).map _
  have hfold := horder.fold_perm (hweights.filterMap TermValue.integer?)
  rw [fold, fold] at hfold
  simp only [value, hweights.mem_iff, hfold, hperm.any_eq, hweights.contains_eq]

/-- An aggregate whose folded weights have one value in all orders has one value in all orders of
its members. Only a failure behind a weight without a value shows in one order and not in
another. -/
theorem evalSet_perm {kind : Aggregate} {ms ms' : List Member}
    (horder : kind.Orderless (kind.foldedWeights v positive ms)) (hperm : ms'.Perm ms)
    {x : TermValue} (h : evalSet v positive kind (.enumerated ms) = .ok x) :
    evalSet v positive kind (.enumerated ms') = .ok x ∨
      (x = .undefined ∧ ∃ e, evalSet v positive kind (.enumerated ms') = .error e) := by
  cases h' : evalSet v positive kind (.enumerated ms') with
  | ok x' =>
      rw [evalSet_eq_value h, evalSet_eq_value h', value_perm horder (hperm.map _)]
      exact .inl rfl
  | error e =>
      refine .inr ⟨?_, e, rfl⟩
      by_contra hx
      have hpasses := passes_of_evalMembers h hx
      obtain ⟨x', hx'⟩ :=
        evalMembers_of_passes (fun m hm => hpasses m (hperm.mem_iff.mp hm)) kind.identity false
      exact nomatch hx'.symm.trans h'

/-- What a fold that is clamped after each weight computes. A sum is the exact one, clamped once, if
it never returns from beyond the bounds, and so is a product unless it was negated last. A list has
one value in all of its orders exactly if it is orderless; that value is the exact one, clamped
once, and then the value of an aggregate over a set does not depend on the order of its members
either. -/
theorem fold_saturates :
    (∀ ws, NeverReturns ws → sum.fold ws = some (clamp ws.sum)) ∧
      (∀ ws, (¬ NegatedLast ws → prod.fold ws = some (clamp ws.prod)) ∧
        (NegatedLast ws → prod.fold ws = some (minInt + 1) ∧ clamp ws.prod = minInt)) ∧
      (∀ k ws, Orderless k ws ↔ ∀ ws', ws'.Perm ws → k.fold ws' = k.fold ws) ∧
      (∀ ws, sum.Orderless ws → sum.fold ws = some (clamp ws.sum)) ∧
      (∀ ws, prod.Orderless ws → prod.fold ws = some (clamp ws.prod)) ∧
      ∀ (kind : Aggregate) (v : Valuation) (positive : Bool) (ms ms' : List Member) (x : TermValue),
        kind.Orderless (kind.foldedWeights v positive ms) → ms'.Perm ms →
          evalTerm v positive (.aggregate kind (.enumerated ms)) = .ok x →
          evalTerm v positive (.aggregate kind (.enumerated ms')) = .ok x ∨
            (x = .undefined ∧ ∃ e, evalTerm v positive (.aggregate kind (.enumerated ms')) =
              .error e) := by
  refine ⟨fun ws h => sum_fold_of_neverReturns h,
    fun ws => ⟨(prod_fold ws).2, fun h => ⟨(prod_fold ws).1 h, ?_⟩⟩,
    fun k ws => orderless_iff, fun ws h => sum_fold_of_neverReturns (Balanced.neverReturns h),
    fun ws h => prod_fold_of_orderless h, fun kind v positive ms ms' x horder hperm h => ?_⟩
  · exact clamp_of_le_minInt h.prod_le
  · rw [evalTerm] at h ⊢
    exact evalSet_perm horder hperm h

/-- Weights within 64 bits with a sum and a product that depend on their order: in this one neither
is exact. -/
theorem fold_depends_on_order :
    (∀ w ∈ [maxInt, 1, -1], minInt ≤ w ∧ w ≤ maxInt) ∧ [1, -1, maxInt].Perm [maxInt, 1, -1] ∧
      sum.fold [maxInt, 1, -1] ≠ some (clamp [maxInt, 1, -1].sum) ∧
      sum.fold [1, -1, maxInt] ≠ sum.fold [maxInt, 1, -1] ∧
      (∀ w ∈ [maxInt, 2, -1], minInt ≤ w ∧ w ≤ maxInt) ∧ [maxInt, -1, 2].Perm [maxInt, 2, -1] ∧
      prod.fold [maxInt, 2, -1] ≠ some (clamp [maxInt, 2, -1].prod) ∧
      prod.fold [maxInt, -1, 2] ≠ prod.fold [maxInt, 2, -1] := by
  decide

/-- Two members that are always there, the greatest integer and five. -/
def heap : List Member :=
  [(.junction true true [], .element (.int maxInt)), (.junction true true [], .element (.int 5))]

/-- Five more than the greatest integer is the greatest integer, in either order; so is twice as
much, until it is negated. -/
theorem fold_saturates_heap :
    NeverReturns [maxInt, 5] ∧ sum.fold [maxInt, 5] = some maxInt ∧
      ¬ NegatedLast [maxInt, 2] ∧ prod.fold [maxInt, 2] = some maxInt ∧
      NegatedLast [maxInt, 2, -1] ∧ prod.fold [maxInt, 2, -1] = some (minInt + 1) ∧
      sum.Orderless [maxInt, 5] ∧ (∀ ws', ws'.Perm [maxInt, 5] → sum.fold ws' = some maxInt) ∧
      prod.Orderless [maxInt, 2] ∧ prod.fold [2, maxInt] = some maxInt ∧
      sum.Orderless (sum.foldedWeights (Structure.empty .empty).valuation true heap) ∧
      evalTerm (Structure.empty .empty).valuation true
      (.aggregate .sum (.enumerated heap.reverse)) =
        .ok (.known (.int maxInt)) := by
  obtain ⟨hsum, hprod, horder, hsum', hprod', heval⟩ := fold_saturates
  have hnever : NeverReturns [maxInt, 5] :=
    neverReturns_cons (by decide) (by decide) (.inl (by decide))
  have hpositive : ¬ NegatedLast [maxInt, 2] := fun h => absurd h.prod_le (by decide)
  have hnegated : NegatedLast [maxInt, 2, -1] := ⟨[maxInt, 2], 0, rfl, by decide⟩
  have hbalanced : sum.Orderless [maxInt, 5] := .inl (.inl (by decide))
  have hproduct : prod.Orderless [maxInt, 2] := fun hmem => absurd hmem (by decide)
  have hheap : sum.Orderless (sum.foldedWeights (Structure.empty .empty).valuation true heap) :=
    .inl (.inl (by decide))
  refine ⟨hnever, (hsum _ hnever).trans (by decide), hpositive,
    ((hprod _).1 hpositive).trans (by decide), hnegated,
    ((hprod _).2 hnegated).1, hbalanced, fun ws' hperm => ?_, hproduct, ?_, hheap, ?_⟩
  · rw [(horder sum _).mp hbalanced ws' hperm, hsum' _ hbalanced]
    decide
  · rw [(horder prod _).mp hproduct _ (.swap _ _ _), hprod' _ hproduct]
    decide
  · exact (heval sum _ true heap heap.reverse (.known (.int maxInt)) hheap
      (List.reverse_perm heap) rfl).resolve_right
      fun hundefined => nomatch hundefined.1

end Aggregate

end ModelExpansion
