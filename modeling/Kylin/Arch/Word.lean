import Mathlib.Data.Int.Notation
import Mathlib.Data.Nat.Bitwise
import Mathlib.Tactic.Common

/-!
# Machine words

The arithmetic the library performs on `size_t`, `uint32_t` and `int`, on a
64-bit machine.  Words are natural numbers below their modulus; every operation
that can leave the range wraps explicitly, so that an overflow is visible in the
statement it affects.

## Main definitions

* `intLimit` — where a counter of type `int` ends.
* `sizeAdd`, `sizeSub` — `size_t` arithmetic, modulo `2 ^ 64`.
* `toInt` — conversion of a `size_t` to the return type `int`.
* `isPowOfTwo` — `kylin_is_pow_of_two` (`include/kylin.h`).
* `fls`, `roundupPowOfTwo` — `kylin_fls` and `kylin_roundup_pow_of_two`
  (`include/arch/kylin_bitops.h`).
* `atomic32Cmpset`, `atomic32Inc`, `atomic32Dec` — the atomic operations
  (`include/arch/x86/kylin_atomic.h`).
-/

namespace Kylin

/-- A byte, `kbyte_t`. -/
abbrev Byte := UInt8

/-- Counting an `int` from `2 ^ 31 - 1` on is undefined. -/
def intLimit : ℕ := 2 ^ 31

/-- Addition on `size_t`. -/
def sizeAdd (a b : ℕ) : ℕ := (a + b) % 2 ^ 64

/-- Subtraction on `size_t`, for `b` below `2 ^ 64`. -/
def sizeSub (a b : ℕ) : ℕ := (a + (2 ^ 64 - b)) % 2 ^ 64

/-- Conversion of a `size_t` to `int`: the low 32 bits, read in two's complement. -/
def toInt (n : ℕ) : ℤ :=
  if n % 2 ^ 32 < 2 ^ 31 then (n % 2 ^ 32 : ℕ) else (n % 2 ^ 32 : ℕ) - 2 ^ 32

theorem sizeAdd_of_lt {a b : ℕ} (h : a + b < 2 ^ 64) : sizeAdd a b = a + b :=
  Nat.mod_eq_of_lt h

theorem sizeSub_of_le {a b : ℕ} (hb : b ≤ a) (ha : a < 2 ^ 64) : sizeSub a b = a - b := by
  unfold sizeSub
  omega

/-- A length converts to `-1` exactly when its low 32 bits are all ones. -/
theorem toInt_eq_neg_one_iff (n : ℕ) : toInt n = -1 ↔ n % 2 ^ 32 = 2 ^ 32 - 1 := by
  unfold toInt
  split <;> omega

/-! ## Powers of two -/

/-- `kylin_is_pow_of_two`: non-zero, and clearing the lowest set bit gives zero. -/
def isPowOfTwo (n : ℕ) : Bool := n != 0 && (n &&& (n - 1)) == 0

theorem isPowOfTwo_iff (n : ℕ) : isPowOfTwo n = true ↔ ∃ k, n = 2 ^ k := by
  rw [isPowOfTwo, Bool.and_eq_true, bne_iff_ne, beq_iff_eq]
  exact Nat.ne_zero_and_sub_one_eq_zero_iff_isPowerOfTwo

/-- Masking with one less than a power of two is reduction modulo it. -/
theorem and_pred_eq_mod {n : ℕ} (h : isPowOfTwo n = true) (x : ℕ) :
    x &&& (n - 1) = x % n := by
  obtain ⟨k, rfl⟩ := (isPowOfTwo_iff n).mp h
  exact Nat.and_two_pow_sub_one_eq_mod x k

/-- `kylin_fls`: the instruction `bsr`, the index of the highest set bit.  Its
result on zero is undefined. -/
def fls (word : ℕ) : Option ℕ := if word = 0 then none else some (Nat.log2 word)

/-- `kylin_roundup_pow_of_two`. -/
def roundupPowOfTwo (word : ℕ) : Option ℕ :=
  (fls (sizeSub word 1)).map fun i => 2 ^ i

theorem roundupPowOfTwo_eq {n : ℕ} (h : 2 ≤ n) (hlt : n < 2 ^ 64) :
    roundupPowOfTwo n = some (2 ^ Nat.log2 (n - 1)) := by
  rw [roundupPowOfTwo, sizeSub_of_le (by omega) hlt, fls, if_neg (by omega)]
  rfl

/-! ## Atomic operations -/

/-- `kylin_atomic32_cmpset`: store `src` if the cell holds `exp`; the flag says
whether it did. -/
def atomic32Cmpset (dst exp src : ℕ) : Bool × ℕ := if dst = exp then (true, src) else (false, dst)

/-- `kylin_atomic32_inc`. -/
def atomic32Inc (n : ℕ) : ℕ := (n + 1) % 2 ^ 32

/-- `kylin_atomic32_dec`. -/
def atomic32Dec (n : ℕ) : ℕ := (n + (2 ^ 32 - 1)) % 2 ^ 32

end Kylin
