import Mathlib.Algebra.Ring.Nat
import ModelExpansion.Sat.Search

/-! # The recursion of the Luby sequence
Below the last word no length overflows, and what is computed is the sequence that ends its first
`2 ^ k - 1` values with `2 ^ (k - 1)` and has repeated itself before. -/

namespace ModelExpansion.Sat

namespace Luby

variable {index k : Nat}

theorem wordBound_eq : wordBound = 2 ^ 64 := rfl

theorem lt_of_two_pow_le_wordBound (h : 2 ^ (k + 1) ≤ wordBound) : k < 64 := by
  rw [wordBound_eq] at h
  exact (Nat.pow_le_pow_iff_right Nat.one_lt_two).mp h

/-! ## The block of an index -/

/-- Blocks are doubled until one contains the index, and none of them is too long for a word. -/
theorem block?_eq {fuel exponent : Nat} (hk : 2 ^ k ≤ index + 1) (hindex : index + 1 < 2 ^ (k + 1))
    (hword : 2 ^ (k + 1) ≤ wordBound) (hexponent : exponent ≤ k) (hfuel : k < exponent + fuel) :
    block? fuel index (2 ^ (exponent + 1) - 1) exponent = some (2 ^ (k + 1) - 1, k) := by
  induction fuel generalizing exponent with
  | zero => omega
  | succ fuel ih =>
      rw [block?]
      rcases Nat.lt_or_eq_of_le hexponent with hlt | rfl
      · have hpos := Nat.two_pow_pos (exponent + 1)
        have hsmall : 2 ^ (exponent + 1) ≤ 2 ^ k := Nat.pow_le_pow_right Nat.two_pos hlt
        have hdouble : 2 * (2 ^ (exponent + 1) - 1) + 1 = 2 ^ (exponent + 1 + 1) - 1 := by
          rw [Nat.pow_succ 2 (exponent + 1)]
          omega
        have hfits : 2 ^ (exponent + 1 + 1) ≤ 2 ^ (k + 1) :=
          Nat.pow_le_pow_right Nat.two_pos (Nat.succ_le_succ hlt)
        rw [if_pos (by omega), hdouble, if_pos (by omega)]
        exact ih hlt (by omega)
      · rw [if_neg (by omega)]

theorem luby?_eq_descend? (hk : 2 ^ k ≤ index + 1) (hindex : index + 1 < 2 ^ (k + 1))
    (hword : 2 ^ (k + 1) ≤ wordBound) : luby? index = descend? index (2 ^ (k + 1) - 1) k := by
  have hk64 := lt_of_two_pow_le_wordBound hword
  have hblock : block? 65 index 1 0 = some (2 ^ (k + 1) - 1, k) :=
    block?_eq hk hindex hword (Nat.zero_le k) (by omega)
  rw [luby?, hblock]

/-! ## The descent into a block -/

theorem descend?_last (h : index + 2 = 2 ^ (k + 1)) :
    descend? index (2 ^ (k + 1) - 1) k = some (2 ^ k) := by
  have hlast : 2 ^ (k + 1) - 1 - 1 = index := by omega
  cases k with
  | zero => rw [descend?, if_pos hlast, Nat.pow_zero]
  | succ k =>
      rw [descend?, if_pos hlast]
      rfl

/-- Before the last index of a block the descent goes on in one of its halves, which is not
empty. -/
theorem descend?_half (h : index + 2 ≠ 2 ^ (k + 2)) :
    descend? index (2 ^ (k + 2) - 1) (k + 1) = descend? (index % (2 ^ (k + 1) - 1))
    (2 ^ (k + 1) - 1) k := by
  have hpow : 2 ^ (k + 2) = 2 * 2 ^ (k + 1) := Nat.pow_succ'
  have htwo : 2 ≤ 2 ^ (k + 1) := Nat.le_self_pow (Nat.succ_ne_zero k) 2
  have hhalf : (2 ^ (k + 2) - 1 - 1) / 2 = 2 ^ (k + 1) - 1 := by omega
  rw [descend?, if_neg (by omega), hhalf]
  exact if_neg (by omega)

theorem descend?_eq_luby? (hindex : index + 1 < 2 ^ (k + 1)) (hword : 2 ^ (k + 1) ≤ wordBound) :
    descend? index (2 ^ (k + 1) - 1) k = luby? index := by
  induction k with
  | zero => exact (luby?_eq_descend? (by omega) hindex hword).symm
  | succ k ih =>
      have hpow : 2 ^ (k + 2) = 2 * 2 ^ (k + 1) := Nat.pow_succ'
      by_cases hk : 2 ^ (k + 1) ≤ index + 1
      · exact (luby?_eq_descend? hk hindex hword).symm
      · rw [descend?_half (by omega), Nat.mod_eq_of_lt (by omega)]
        exact ih (by omega) (by omega)

/-! ## The recursion -/

theorem luby?_last (h : index + 2 = 2 ^ (k + 1)) (hword : 2 ^ (k + 1) ≤ wordBound) :
    luby? index = some (2 ^ k) := by
  rw [← descend?_eq_luby? (by omega) hword, descend?_last h]

theorem luby?_repeat (hk : 2 ^ k ≤ index + 1) (hindex : index + 2 < 2 ^ (k + 1))
    (hword : 2 ^ (k + 1) ≤ wordBound) :
    luby? index = luby? (index + 1 - 2 ^ k) := by
  cases k with
  | zero => omega
  | succ k =>
      have hpow : 2 ^ (k + 2) = 2 * 2 ^ (k + 1) := Nat.pow_succ'
      have hrest : index % (2 ^ (k + 1) - 1) = index + 1 - 2 ^ (k + 1) := by
        rw [Nat.mod_eq_sub_mod (by omega), Nat.mod_eq_of_lt (by omega)]
        omega
      rw [← descend?_eq_luby? (by omega) hword, descend?_half (by omega), hrest]
      exact descend?_eq_luby? (by omega) (by omega)

/-- An index lies in the second half of some block, or it is the last index of this block. -/
theorem exists_block (h : index + 1 < wordBound) :
    ∃ k, 2 ^ k ≤ index + 1 ∧ index + 1 < 2 ^ (k + 1) ∧ 2 ^ (k + 1) ≤ wordBound := by
  have hle : 2 ^ (index + 1).log2 ≤ index + 1 := Nat.log2_self_le (Nat.succ_ne_zero index)
  refine ⟨(index + 1).log2, hle, Nat.lt_log2_self, ?_⟩
  rw [wordBound_eq] at h ⊢
  exact Nat.pow_le_pow_right Nat.two_pos
    ((Nat.pow_lt_pow_iff_right Nat.one_lt_two).mp (Nat.lt_of_le_of_lt hle h))

/-- Every value below the last word is found, and it fits in a word. -/
theorem exists_luby? (h : index + 1 < wordBound) : ∃ n < wordBound, luby? index = some n := by
  induction index using Nat.strongRecOn with
  | ind index ih =>
      obtain ⟨k, hk, hindex, hword⟩ := exists_block h
      rcases Nat.lt_or_eq_of_le (Nat.succ_le_of_lt hindex) with hlt | hlast
      · rw [luby?_repeat hk hlt hword]
        have hpos := Nat.two_pow_pos k
        exact ih _ (by omega) (by omega)
      · refine ⟨2 ^ k, ?_, luby?_last hlast hword⟩
        exact Nat.lt_of_lt_of_le (Nat.pow_lt_pow_succ Nat.one_lt_two) hword

end Luby

theorem luby?_eq_luby {index : Nat} (h : index + 1 < Luby.wordBound) :
    luby? index = some (luby index) := by
  obtain ⟨n, -, hn⟩ := Luby.exists_luby? h
  rw [luby, hn, Option.getD_some]

/-- Below the last word the value at an index is computed without overflow. At the last of the first
`2 ^ k - 1` indices it is `2 ^ (k - 1)`; from the half of them on, the values before the last one
are those of the first half. -/
theorem luby_recursion (index : Nat) (h : index < 2 ^ 64 - 1) :
    (luby? index = some (luby index) ∧ luby index < 2 ^ 64) ∧
    (∀ k, index + 2 = 2 ^ k → luby index = 2 ^ (k - 1)) ∧
    ∀ k, 2 ^ (k - 1) - 1 ≤ index → index < 2 ^ k - 2 →
    luby index = luby (index + 1 - 2 ^ (k - 1)) := by
  have hword : index + 1 < Luby.wordBound := by
    rw [Luby.wordBound_eq]
    omega
  have hvalue := luby?_eq_luby hword
  refine ⟨⟨hvalue, ?_⟩, fun k hk => ?_, fun k hk hindex => ?_⟩
  · obtain ⟨n, hn, hfound⟩ := Luby.exists_luby? hword
    cases hvalue.symm.trans hfound
    exact hn
  · cases k with
    | zero => omega
    | succ k =>
        have hlast := Luby.luby?_last hk (by omega)
        exact Option.some.inj (hvalue.symm.trans hlast)
  · cases k with
    | zero => omega
    | succ k =>
        rw [Nat.add_sub_cancel] at hk ⊢
        have hblock : 2 ^ (k + 1) ≤ Luby.wordBound := by
          have hlt : 2 ^ k < 2 ^ 64 := by omega
          exact Nat.pow_le_pow_right Nat.two_pos ((Nat.pow_lt_pow_iff_right Nat.one_lt_two).mp hlt)
        have hrepeat : luby? index = luby? (index + 1 - 2 ^ k) :=
          Luby.luby?_repeat (by omega) (by omega) hblock
        have hpos := Nat.two_pow_pos k
        rw [hvalue, luby?_eq_luby (by omega)] at hrepeat
        exact Option.some.inj hrepeat

/-- The greatest value, at the end of the longest block, and the first one of the second half of
this block. -/
theorem luby_recursion_longest : luby (2 ^ 64 - 2) = 2 ^ 63 ∧ luby (2 ^ 63 - 1) = 1 := by
  obtain ⟨-, hlast, -⟩ := luby_recursion (2 ^ 64 - 2) (by decide)
  obtain ⟨-, -, hrepeat⟩ := luby_recursion (2 ^ 63 - 1) (by decide)
  exact ⟨hlast 64 (by decide), hrepeat 64 (by decide) (by decide)⟩

example : (List.range 15).map luby = [1, 1, 2, 1, 1, 2, 4, 1, 1, 2, 1, 1, 2, 4, 8] := by decide

end ModelExpansion.Sat
