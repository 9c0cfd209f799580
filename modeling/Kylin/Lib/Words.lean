import Mathlib.Algebra.BigOperators.Group.Finset.Basic
import Mathlib.Algebra.BigOperators.Intervals
import Mathlib.Tactic.Common

/-!
# Numbers of several words

The number whose digits, from the lowest on, are the words of an array, and its bits.

## Main definitions

* `number` — the number.

## Main results

* `testBit_number` — its bits are those of the words.
-/

namespace Lib

open Finset

variable {w : ℕ}

/-- The number with the first `n` words for digits. -/
def number (g : ℕ → BitVec w) (n : ℕ) : ℕ := ∑ i ∈ range n, (g i).toNat * 2 ^ (w * i)

section Number
variable (g : ℕ → BitVec w) (n : ℕ)

@[simp] theorem number_zero : number g 0 = 0 := rfl

theorem number_succ : number g (n + 1) = number g n + (g n).toNat * 2 ^ (w * n) :=
  sum_range_succ _ n

theorem number_lt : number g n < 2 ^ (w * n) := by
  induction n with
  | zero => simp
  | succ n ih =>
      have hw : (g n).toNat + 1 ≤ 2 ^ w := (g n).isLt
      calc number g (n + 1) = number g n + (g n).toNat * 2 ^ (w * n) := number_succ g n
        _ < 2 ^ (w * n) + (g n).toNat * 2 ^ (w * n) := Nat.add_lt_add_right ih _
        _ = ((g n).toNat + 1) * 2 ^ (w * n) := by rw [Nat.succ_mul, Nat.add_comm]
        _ ≤ 2 ^ w * 2 ^ (w * n) := Nat.mul_le_mul_right _ hw
        _ = 2 ^ (w * (n + 1)) := by rw [← Nat.pow_add, Nat.mul_succ, Nat.add_comm]

/-- **The bits of the number** are those of its words. -/
theorem testBit_number (i : ℕ) :
    (number g n).testBit i = (decide (i < w * n) && (g (i / w)).getLsbD (i % w)) := by
  induction n with
  | zero => simp
  | succ n ih =>
      rw [number_succ, Nat.add_comm, Nat.mul_comm,
        Nat.testBit_two_pow_mul_add _ (number_lt g n)]
      by_cases hlt : i < w * n
      · rw [if_pos hlt, ih]
        have hlt' : i < w * (n + 1) :=
          Nat.lt_of_lt_of_le hlt (Nat.mul_le_mul_left w (Nat.le_succ n))
        simp [hlt, hlt']
      · rw [if_neg hlt, BitVec.testBit_toNat]
        obtain ⟨k, rfl⟩ := Nat.exists_eq_add_of_le (Nat.not_lt.mp hlt)
        rw [Nat.add_sub_cancel_left]
        by_cases hk : k < w
        · have hdiv : (w * n + k) / w = n := by
            rw [Nat.mul_add_div (by omega), Nat.div_eq_of_lt hk, Nat.add_zero]
          have hmod : (w * n + k) % w = k := by
            rw [Nat.mul_add_mod, Nat.mod_eq_of_lt hk]
          have hin : w * n + k < w * (n + 1) := by
            rw [Nat.mul_succ]
            omega
          rw [hdiv, hmod, decide_eq_true hin, Bool.true_and]
        · have hout : ¬ w * n + k < w * (n + 1) := by
            rw [Nat.mul_succ]
            omega
          rw [decide_eq_false hout, Bool.false_and]
          exact BitVec.getLsbD_of_ge _ _ (Nat.not_lt.mp hk)

end Number

end Lib
