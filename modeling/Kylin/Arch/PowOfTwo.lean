import Kylin.Arch.Word
import Mathlib.Order.Bounds.Basic

/-!
# Rounding to powers of two

`kylin_roundup_pow_of_two` and `kylin_rounddown_pow_of_two` (`include/arch/kylin_bitops.h`) are
written for a `fls` that counts bits from one, where zero stands for a word without bits.
`kylin_fls` is the instruction `bsr`, which counts from zero and leaves zero undefined
(`include/arch/x86/kylin_bitops.h`).  Both results are half of what they should be, and `1` has
none.

## Main definitions

* `rounddownPowOfTwo` — `kylin_rounddown_pow_of_two`.
* `RoundsUp`, `RoundsDown` — what the two functions are for.

## Main results

* `roundupPowOfTwo_double`, `rounddownPowOfTwo_double` — how far off they are.
* `not_rounds` — they are never right.
-/

namespace Kylin

/-- `1UL << i`.  Shifting by the width of the word, or more, is undefined. -/
def shiftOne (i : ℕ) : Option ℕ := if i < 64 then some (2 ^ i) else none

/-- `kylin_rounddown_pow_of_two`. -/
def rounddownPowOfTwo (word : ℕ) : Option ℕ := (fls word).bind fun i => shiftOne (sizeSub i 1)

/-- **Rounding up**: the least power of two that is not below `n`. -/
def RoundsUp (n : ℕ) : Prop :=
  ∃ r, roundupPowOfTwo n = some r ∧ IsLeast {m | isPowOfTwo m = true ∧ n ≤ m} r

/-- **Rounding down**: the greatest power of two that is not above `n`. -/
def RoundsDown (n : ℕ) : Prop :=
  ∃ r, rounddownPowOfTwo n = some r ∧ IsGreatest {m | isPowOfTwo m = true ∧ m ≤ n} r

section Rounding
variable {n r : ℕ}

theorem isPowOfTwo_two_pow (k : ℕ) : isPowOfTwo (2 ^ k) = true := (isPowOfTwo_iff _).mpr ⟨k, rfl⟩

theorem log2_pos (h : 2 ≤ n) : 1 ≤ Nat.log2 n := (Nat.le_log2 (by omega)).mpr h

theorem log2_lt (h : 1 ≤ n) (hlt : n < 2 ^ 64) : Nat.log2 n < 64 :=
  (Nat.log2_lt (by omega)).mpr hlt

theorem rounddownPowOfTwo_eq (h : 2 ≤ n) (hlt : n < 2 ^ 64) :
    rounddownPowOfTwo n = some (2 ^ (Nat.log2 n - 1)) := by
  have hpos := log2_pos h
  have hlog := log2_lt (by omega) hlt
  rw [rounddownPowOfTwo, fls, if_neg (by omega), Option.bind_some,
    sizeSub_of_le hpos (by omega), shiftOne, if_pos (by omega)]

/-- `bsr` of zero, and a shift by `2 ^ 64 - 1`. -/
theorem not_defined_one : roundupPowOfTwo 1 = none ∧ rounddownPowOfTwo 1 = none := by decide

/-- Rounding up gives half of the power wanted. -/
theorem roundupPowOfTwo_double (h : 2 ≤ n) (hlt : n < 2 ^ 64) :
    ∃ r, roundupPowOfTwo n = some r ∧ IsLeast {m | isPowOfTwo m = true ∧ n ≤ m} (2 * r) := by
  refine ⟨_, roundupPowOfTwo_eq h hlt, ⟨?_, ?_⟩, ?_⟩
  · rw [← Nat.pow_succ']
    exact isPowOfTwo_two_pow _
  · have hlog : n - 1 < 2 ^ (Nat.log2 (n - 1) + 1) := Nat.lt_log2_self
    rw [Nat.pow_succ] at hlog
    omega
  · -- a smaller power of two does not reach `n`
    rintro m ⟨hpow, hle⟩
    rcases (isPowOfTwo_iff m).mp hpow with ⟨k, rfl⟩
    have hk : Nat.log2 (n - 1) < k := (Nat.log2_lt (by omega)).mpr (by omega)
    rw [← Nat.pow_succ']
    exact Nat.pow_le_pow_right (by omega) hk

/-- Rounding down gives half of the power wanted. -/
theorem rounddownPowOfTwo_double (h : 2 ≤ n) (hlt : n < 2 ^ 64) :
    ∃ r, rounddownPowOfTwo n = some r ∧ IsGreatest {m | isPowOfTwo m = true ∧ m ≤ n} (2 * r) := by
  have hpos := log2_pos h
  refine ⟨_, rounddownPowOfTwo_eq h hlt, ?_⟩
  rw [← Nat.pow_succ', Nat.succ_eq_add_one, Nat.sub_add_cancel hpos]
  refine ⟨⟨isPowOfTwo_two_pow _, Nat.log2_self_le (by omega)⟩, ?_⟩
  rintro m ⟨hpow, hle⟩
  rcases (isPowOfTwo_iff m).mp hpow with ⟨k, rfl⟩
  exact Nat.pow_le_pow_right (by omega) ((Nat.le_log2 (by omega)).mpr hle)

end Rounding

/-- **Rounding is never right**, in either direction, and no number is left as it is. -/
theorem not_rounds {n : ℕ} (hpos : 1 ≤ n) (hle : n ≤ 2 ^ 63) :
    ¬ RoundsUp n ∧ ¬ RoundsDown n ∧ roundupPowOfTwo n ≠ some n ∧ rounddownPowOfTwo n ≠ some n := by
  rcases Nat.eq_or_lt_of_le hpos with rfl | h
  · simp [RoundsUp, RoundsDown, not_defined_one]
  have hlt : n < 2 ^ 64 := by omega
  rcases roundupPowOfTwo_double h hlt with ⟨u, hu, hleast⟩
  rcases rounddownPowOfTwo_double h hlt with ⟨d, hd, hgreatest⟩
  have hbelow : u < n := by
    have hlog : 2 ^ Nat.log2 (n - 1) ≤ n - 1 := Nat.log2_self_le (by omega)
    rw [roundupPowOfTwo_eq h hlt, Option.some.injEq] at hu
    omega
  have hdouble : 2 * d ≤ n := hgreatest.1.2
  have hdpos : 1 ≤ 2 * d := hgreatest.2 ⟨isPowOfTwo_two_pow 0, hpos⟩
  rw [RoundsUp, RoundsDown, hu, hd]
  refine ⟨?_, ?_, ?_, ?_⟩
  · rintro ⟨r, hr, hleast'⟩
    have hreach : n ≤ r := hleast'.1.2
    rw [Option.some.injEq] at hr
    omega
  · rintro ⟨r, hr, hgreatest'⟩
    have heq : r = 2 * d := hgreatest'.unique hgreatest
    rw [Option.some.injEq] at hr
    omega
  · rw [ne_eq, Option.some.injEq]
    omega
  · rw [ne_eq, Option.some.injEq]
    omega

theorem not_rounds_eight :
    ¬ RoundsUp 8 ∧ ¬ RoundsDown 8 ∧ roundupPowOfTwo 8 ≠ some 8 ∧ rounddownPowOfTwo 8 ≠ some 8 :=
  not_rounds (by decide) (by decide)

/-- Eight is rounded up to four, and down to four. -/
theorem rounds_eight_to_four : roundupPowOfTwo 8 = some 4 ∧ rounddownPowOfTwo 8 = some 4 ∧
    ¬ RoundsUp 8 ∧ ¬ RoundsDown 8 := by
  have hup : roundupPowOfTwo 8 = some 4 := by decide
  have hdown : rounddownPowOfTwo 8 = some 4 := by decide
  refine ⟨hup, hdown, ?_, ?_⟩
  · rintro ⟨r, hr, hleast⟩
    obtain rfl : 4 = r := Option.some.inj (hup.symm.trans hr)
    exact absurd hleast.1.2 (by decide)
  · rintro ⟨r, hr, hgreatest⟩
    obtain rfl : 4 = r := Option.some.inj (hdown.symm.trans hr)
    exact absurd (hgreatest.2 ⟨isPowOfTwo_two_pow 3, Nat.le_refl 8⟩) (by decide)

end Kylin
