import Kylin.Arch.Word
import Kylin.Lib.BufferLoop
import Kylin.Lib.Words
import Kylin.Math.Bitmap

/-!
# Shifting a bitmap

`kylin_bitmap_shift_right` and `kylin_bitmap_shift_left` compute the shifted words in a block of
their own and copy them back.  A word of the result is put together from two neighbours, except
at the end of the bitmap and when the shift is a whole number of words, where the other shift
would be by 64.

With the words for digits a bitmap is a number, and the two functions are the division by and
the multiplication with a power of two.

## Main definitions

* `shiftRight`, `shiftLeft` — the functions.
* `Kbitmap.number` — a bitmap as a number.

## Main results

* `shiftRight_spec`, `shiftLeft_spec` — the bits afterwards.
* `shifts_arithmetically` — the numbers afterwards.
-/

namespace Kylin.Kbitmap

open Lib

/-- A turn of the loop of `kylin_bitmap_shift_right`.  The sums are of an `int` and an
`unsigned` below `2 ^ 26` and do not wrap. -/
def rightTurn (val : Buffer (BitVec 64)) (offset remainder i : ℕ) (dst : Buffer (BitVec 64)) :
    Option (Buffer (BitVec 64)) := do
  let upper ←
    (if remainder = 0 ∨ val.size ≤ offset + i + 1 then some 0
    else (val.load (offset + i + 1)).map fun x : BitVec 64 => x <<< (64 - remainder))
  let lower ← (val.load (offset + i)).map fun x : BitVec 64 => x >>> remainder
  dst.store i (lower ||| upper)

/-- A turn of the loop of `kylin_bitmap_shift_left`. -/
def leftTurn (val : Buffer (BitVec 64)) (offset remainder i : ℕ) (dst : Buffer (BitVec 64)) :
    Option (Buffer (BitVec 64)) := do
  let lower ←
    (if remainder ≠ 0 ∧ 0 < i then
      (val.load (i - 1)).map fun x : BitVec 64 => x >>> (64 - remainder)
    else some 0)
  let upper ← (val.load i).map fun x : BitVec 64 => x <<< remainder
  dst.store (i + offset) (lower ||| upper)

/-- `memset` of `offset` words at `first`, if there are any, and `memcpy` back to the bitmap. -/
def conclude (bm : Kbitmap) (offset first : ℕ) (dst : Buffer (BitVec 64)) :
    Option (Kerr × Kbitmap) := do
  let dst ← (if offset = 0 then some dst else dst.write first (List.replicate offset 0))
  let words ← dst.read 0 bm.val.size
  let val ← bm.val.write 0 words
  some (.ok, ⟨val⟩)

/-- The guard of both functions. -/
def TooFar (bm : Kbitmap) (shift : BitVec 32) : Prop :=
  bm.val.size < shift.toNat / 64 ∨ shift.toNat / 64 = bm.val.size ∧ shift.toNat % 64 ≠ 0

instance (bm : Kbitmap) (shift : BitVec 32) : Decidable (bm.TooFar shift) := by
  unfold TooFar
  infer_instance

/-- `kylin_bitmap_shift_right`; `mem` says whether `kylin_malloc` returns memory, which it has
cleared. -/
def shiftRight (bm : Kbitmap) (shift : BitVec 32) (mem : Bool) : Option (Kerr × Kbitmap) :=
  let size := bm.val.size
  let offset := shift.toNat / 64
  let remainder := shift.toNat % 64
  if bm.TooFar shift then some (.inval, bm)
  else if mem = false then some (.nomem, bm)
  else do
    let dst ← forLoop intLimit (rightTurn bm.val offset remainder) (size - offset) 0
      ⟨size, fun _ => 0⟩
    conclude bm offset (size - offset) dst

/-- `kylin_bitmap_shift_left`; the first index of the loop is a `size_t` converted to `int`. -/
def shiftLeft (bm : Kbitmap) (shift : BitVec 32) (mem : Bool) : Option (Kerr × Kbitmap) :=
  let size := bm.val.size
  let offset := shift.toNat / 64
  let remainder := shift.toNat % 64
  let first : ℤ := (BitVec.ofInt 32 ((size : ℤ) - offset - 1)).toInt
  if bm.TooFar shift then some (.inval, bm)
  else if mem = false then some (.nomem, bm)
  else do
    let dst ← downLoop (leftTurn bm.val offset remainder) (first + 1).toNat ⟨size, fun _ => 0⟩
    conclude bm offset 0 dst

/-- A bitmap as a number. -/
def number (bm : Kbitmap) : ℕ := Lib.number bm.val.get bm.val.size

/-! ## Words -/

section Words
variable {bm : Kbitmap} {offset remainder first : ℕ} {dst : Buffer (BitVec 64)}

/-- The words that are copied back. -/
theorem conclude_spec (hsize : dst.size = bm.val.size) (hfit : first + offset ≤ bm.val.size) :
    ∃ bm', conclude bm offset first dst = some (.ok, bm') ∧ bm'.val.size = bm.val.size ∧
      ∀ j, j < bm.val.size →
        bm'.val.get j = if first ≤ j ∧ j < first + offset then 0 else dst.get j := by
  obtain ⟨d, hd, hdsize, hget⟩ : ∃ d, (if offset = 0 then some dst
      else dst.write first (List.replicate offset 0)) = some d ∧ d.size = bm.val.size ∧
      ∀ j, d.get j = if first ≤ j ∧ j < first + offset then 0 else dst.get j := by
    by_cases hz : offset = 0
    · refine ⟨dst, if_pos hz, hsize, fun j => ?_⟩
      rw [if_neg (by omega)]
    · have hin : first + (List.replicate offset (0 : BitVec 64)).length ≤ dst.size := by
        rw [List.length_replicate]
        omega
      refine ⟨_, (if_neg hz).trans (Buffer.write_of_le hin), hsize, fun j => ?_⟩
      dsimp only
      split
      · next hj =>
          rw [overlay_of_mem _ _ hj.1 (by rw [List.length_replicate]; omega),
            List.getElem_replicate]
      · next hj =>
          rcases Nat.lt_or_ge j first with hlt | hge
          · exact overlay_of_lt _ _ hlt
          · exact overlay_of_ge _ _ (by rw [List.length_replicate]; omega)
  have hread : d.read 0 bm.val.size = some (slice d.get 0 bm.val.size) :=
    Buffer.read_of_le (by omega)
  have hback : 0 + (slice d.get 0 bm.val.size).length ≤ bm.val.size := by
    rw [length_slice, Nat.zero_add]
  refine ⟨⟨{ bm.val with get := overlay bm.val.get 0 (slice d.get 0 bm.val.size) }⟩, ?_, rfl,
    fun j hj => ?_⟩
  · rw [conclude, hd, Option.bind_eq_bind, Option.bind_some, hread, Option.bind_eq_bind,
      Option.bind_some, Buffer.write_of_le hback]
    rfl
  · dsimp only
    rw [overlay_of_mem _ _ (Nat.zero_le j) (by rw [length_slice]; omega), getElem_slice, hget]
    simp

end Words

section Right
variable {val : Buffer (BitVec 64)} {offset remainder : ℕ}

/-- The word that `kylin_bitmap_shift_right` stores at `j`. -/
def rightWord (val : Buffer (BitVec 64)) (offset remainder j : ℕ) : BitVec 64 :=
  val.get (offset + j) >>> remainder |||
    if remainder = 0 ∨ val.size ≤ offset + j + 1 then 0
    else val.get (offset + j + 1) <<< (64 - remainder)

theorem rightTurn_spec {i : ℕ} {dst : Buffer (BitVec 64)} (hval : offset + i < val.size)
    (hdst : i < dst.size) :
    rightTurn val offset remainder i dst =
      some { dst with get := Function.update dst.get i (rightWord val offset remainder i) } := by
  have hupper : (if remainder = 0 ∨ val.size ≤ offset + i + 1 then some 0
      else (val.load (offset + i + 1)).map fun x : BitVec 64 => x <<< (64 - remainder)) =
      some (if remainder = 0 ∨ val.size ≤ offset + i + 1 then 0
        else val.get (offset + i + 1) <<< (64 - remainder)) := by
    split
    · rfl
    · rw [Buffer.load_of_lt (by omega), Option.map_some]
  rw [rightTurn, hupper, Option.bind_eq_bind, Option.bind_some, Buffer.load_of_lt hval,
    Option.map_some, Option.bind_some, Buffer.store_of_lt hdst]
  rfl

/-- All words, from the lowest on. -/
theorem rightLoop_spec (val : Buffer (BitVec 64)) (offset remainder : ℕ)
    (hlimit : val.size < intLimit) :
    ∃ dst, forLoop intLimit (rightTurn val offset remainder) (val.size - offset) 0
        ⟨val.size, fun _ => 0⟩ = some dst ∧ dst.size = val.size ∧
      ∀ j, dst.get j = if j < val.size - offset then rightWord val offset remainder j else 0 := by
  apply writeLoop_spec ⟨val.size, fun _ => 0⟩ (by omega)
  intro i dst hi hsize
  change dst.size = val.size at hsize
  exact rightTurn_spec (by omega) (by omega)

/-- The bits of a word of the result. -/
theorem getLsbD_rightWord {j t : ℕ} (hr : remainder < 64) (hval : offset + j < val.size)
    (ht : t < 64) :
    (rightWord val offset remainder j).getLsbD t =
      (decide (64 * (offset + j) + t + remainder < 64 * val.size) &&
        bitOf val (64 * (offset + j) + t + remainder)) := by
  rw [rightWord, BitVec.getLsbD_or, BitVec.getLsbD_ushiftRight, bitOf]
  rcases Nat.lt_or_ge (t + remainder) 64 with hlow | hhigh
  · -- the bit comes from the lower word
    have hdiv : (64 * (offset + j) + t + remainder) / 64 = offset + j := by omega
    have hmod : (64 * (offset + j) + t + remainder) % 64 = remainder + t := by omega
    have hupper : (if remainder = 0 ∨ val.size ≤ offset + j + 1 then 0
        else val.get (offset + j + 1) <<< (64 - remainder)).getLsbD t = false := by
      split
      · exact BitVec.getLsbD_zero
      · rw [BitVec.getLsbD_shiftLeft]
        have : t < 64 - remainder := by omega
        simp [this]
    rw [hupper, hdiv, hmod, decide_eq_true (by omega), Bool.or_false, Bool.true_and]
  · have hdiv : (64 * (offset + j) + t + remainder) / 64 = offset + j + 1 := by omega
    have hmod : (64 * (offset + j) + t + remainder) % 64 = t + remainder - 64 := by omega
    rw [BitVec.getLsbD_of_ge _ _ (by omega), Bool.false_or, hdiv, hmod]
    by_cases hlast : val.size ≤ offset + j + 1
    · rw [if_pos (Or.inr hlast), decide_eq_false (by omega), Bool.false_and]
      exact BitVec.getLsbD_zero
    · rw [if_neg (by omega), decide_eq_true (by omega), Bool.true_and, BitVec.getLsbD_shiftLeft,
        decide_eq_true ht, decide_eq_false (by omega)]
      have hsub : t - (64 - remainder) = t + remainder - 64 := by omega
      rw [hsub]
      rfl

end Right

section Left
variable {val : Buffer (BitVec 64)} {offset remainder : ℕ}

/-- The word that `kylin_bitmap_shift_left` stores at `j + offset`. -/
def leftWord (val : Buffer (BitVec 64)) (remainder j : ℕ) : BitVec 64 :=
  (if remainder ≠ 0 ∧ 0 < j then val.get (j - 1) >>> (64 - remainder) else 0) |||
    val.get j <<< remainder

theorem leftTurn_spec {i : ℕ} {dst : Buffer (BitVec 64)} (hval : i < val.size)
    (hdst : i + offset < dst.size) :
    leftTurn val offset remainder i dst =
      some { dst with
        get := Function.update dst.get (i + offset) (leftWord val remainder i) } := by
  have hlower : (if remainder ≠ 0 ∧ 0 < i then
      (val.load (i - 1)).map fun x : BitVec 64 => x >>> (64 - remainder) else some 0) =
      some (if remainder ≠ 0 ∧ 0 < i then val.get (i - 1) >>> (64 - remainder) else 0) := by
    split
    · rw [Buffer.load_of_lt (by omega), Option.map_some]
    · rfl
  rw [leftTurn, hlower, Option.bind_eq_bind, Option.bind_some, Buffer.load_of_lt hval,
    Option.map_some, Option.bind_some, Buffer.store_of_lt hdst]
  rfl

/-- All words, from the highest on. -/
theorem leftLoop_spec (val : Buffer (BitVec 64)) {offset : ℕ} (remainder : ℕ)
    (hoff : offset ≤ val.size) :
    ∃ dst, downLoop (leftTurn val offset remainder) (val.size - offset)
        ⟨val.size, fun _ => 0⟩ = some dst ∧ dst.size = val.size ∧
      ∀ j, j < val.size - offset → dst.get (j + offset) = leftWord val remainder j := by
  have hloop := @downLoop_spec _ (leftTurn val offset remainder) ⟨val.size, fun _ => 0⟩
    (fun k dst => dst.size = val.size ∧ ∀ j, k ≤ j → j < val.size - offset →
      dst.get (j + offset) = leftWord val remainder j) (val.size - offset)
    ⟨rfl, fun j hle hlt => by omega⟩ ?_
  · rcases hloop with ⟨dst, hrun, hsize, hget⟩
    exact ⟨dst, hrun, hsize, fun j => hget j (Nat.zero_le j)⟩
  · rintro i dst hi ⟨hsize, hget⟩
    refine ⟨_, leftTurn_spec (by omega) (by omega), hsize, fun j hle hlt => ?_⟩
    dsimp only
    by_cases hj : j = i
    · subst hj
      rw [Function.update_self]
    · rw [Function.update_of_ne (by omega), hget j (by omega) hlt]

/-- The bits of a word of the result. -/
theorem getLsbD_leftWord {j t : ℕ} (hr : remainder < 64) (ht : t < 64) :
    (leftWord val remainder j).getLsbD t =
      (decide (remainder ≤ 64 * j + t) && bitOf val (64 * j + t - remainder)) := by
  rw [leftWord, BitVec.getLsbD_or, BitVec.getLsbD_shiftLeft, bitOf, decide_eq_true ht,
    Bool.true_and]
  rcases Nat.lt_or_ge t remainder with hlow | hhigh
  · rw [decide_eq_true hlow]
    by_cases hj : 0 < j
    · -- the bit comes from the word below
      have hdiv : (64 * j + t - remainder) / 64 = j - 1 := by omega
      have hmod : (64 * j + t - remainder) % 64 = 64 - remainder + t := by omega
      rw [if_pos ⟨by omega, hj⟩, BitVec.getLsbD_ushiftRight, hdiv, hmod,
        decide_eq_true (by omega)]
      simp
    · rw [if_neg fun h => hj h.2, decide_eq_false (by omega)]
      simp
  · have hdiv : (64 * j + t - remainder) / 64 = j := by omega
    have hmod : (64 * j + t - remainder) % 64 = t - remainder := by omega
    have hlower : (if remainder ≠ 0 ∧ 0 < j then val.get (j - 1) >>> (64 - remainder)
        else 0).getLsbD t = false := by
      split
      · rw [BitVec.getLsbD_ushiftRight]
        exact BitVec.getLsbD_of_ge _ _ (by omega)
      · exact BitVec.getLsbD_zero
    rw [hlower, hdiv, hmod, decide_eq_false (by omega), decide_eq_true (by omega)]
    simp

end Left

/-! ## Bits and numbers -/

section Shift
variable {bm : Kbitmap} {shift : BitVec 32}

theorem tooFar_iff : bm.TooFar shift ↔ 64 * bm.val.size < shift.toNat := by
  rw [TooFar]
  omega

/-- **The bits after a shift to the right.** -/
theorem shiftRight_spec (hlimit : bm.val.size < intLimit) (h : shift.toNat ≤ 64 * bm.val.size) :
    ∃ bm', bm.shiftRight shift true = some (.ok, bm') ∧ bm'.val.size = bm.val.size ∧
      ∀ i, i < 64 * bm.val.size → bm'.bit i =
        (decide (i + shift.toNat < 64 * bm.val.size) && bm.bit (i + shift.toNat)) := by
  rcases rightLoop_spec bm.val (shift.toNat / 64) (shift.toNat % 64) hlimit
    with ⟨dst, hrun, hsize, hget⟩
  have hfit : bm.val.size - shift.toNat / 64 + shift.toNat / 64 ≤ bm.val.size := by omega
  rcases conclude_spec hsize hfit with ⟨bm', hend, hsize', hget'⟩
  refine ⟨bm', ?_, hsize', fun i hi => ?_⟩
  · rw [shiftRight, if_neg (mt tooFar_iff.mp (by omega)), if_neg (by decide), hrun]
    exact hend
  · rw [bit, bitOf, hget' (i / 64) (by omega), hget]
    by_cases hj : i / 64 < bm.val.size - shift.toNat / 64
    · have hi' : 64 * (shift.toNat / 64 + i / 64) + i % 64 + shift.toNat % 64 =
          i + shift.toNat := by omega
      rw [if_neg (by omega), if_pos hj, getLsbD_rightWord (Nat.mod_lt _ (by decide)) (by omega)
        (Nat.mod_lt _ (by decide)), hi']
      rfl
    · rw [if_pos (by omega), decide_eq_false (by omega), Bool.false_and]
      exact BitVec.getLsbD_zero

/-- **The bits after a shift to the left.** -/
theorem shiftLeft_spec (hlimit : bm.val.size < intLimit) (h : shift.toNat ≤ 64 * bm.val.size) :
    ∃ bm', bm.shiftLeft shift true = some (.ok, bm') ∧ bm'.val.size = bm.val.size ∧
      ∀ i, i < 64 * bm.val.size → bm'.bit i =
        (decide (shift.toNat ≤ i) && bm.bit (i - shift.toNat)) := by
  have hoff : shift.toNat / 64 ≤ bm.val.size := by omega
  have hfit : 0 + shift.toNat / 64 ≤ bm.val.size := by omega
  rcases leftLoop_spec bm.val (shift.toNat % 64) hoff with ⟨dst, hrun, hsize, hget⟩
  rcases conclude_spec hsize hfit with ⟨bm', hend, hsize', hget'⟩
  have hfirst : (((BitVec.ofInt 32 ((bm.val.size : ℤ) - (shift.toNat / 64 : ℕ) - 1)).toInt) +
      1).toNat = bm.val.size - shift.toNat / 64 := by
    have hbound : bm.val.size < 2 ^ 31 := hlimit
    rw [BitVec.toInt_ofInt, Int.bmod_eq_of_le (by omega) (by omega)]
    omega
  refine ⟨bm', ?_, hsize', fun i hi => ?_⟩
  · rw [shiftLeft, if_neg (mt tooFar_iff.mp (by omega)), if_neg (by decide), hfirst, hrun]
    exact hend
  · rw [bit, bitOf, hget' (i / 64) (by omega)]
    by_cases hj : i / 64 < shift.toNat / 64
    · rw [if_pos (by omega), decide_eq_false (by omega), Bool.false_and]
      exact BitVec.getLsbD_zero
    · obtain ⟨j, hj⟩ := Nat.exists_eq_add_of_le (Nat.not_lt.mp hj)
      have hi₁ : 64 * j + i % 64 - shift.toNat % 64 = i - shift.toNat := by omega
      have hi₂ : shift.toNat % 64 ≤ 64 * j + i % 64 ↔ shift.toNat ≤ i := by omega
      rw [if_neg (by omega), hj, Nat.add_comm (shift.toNat / 64) j, hget j (by omega),
        getLsbD_leftWord (Nat.mod_lt _ (by decide)) (Nat.mod_lt _ (by decide)), hi₁,
        decide_eq_decide.mpr hi₂]
      rfl

theorem testBit_kbitmap (bm : Kbitmap) (i : ℕ) :
    bm.number.testBit i = (decide (i < 64 * bm.val.size) && bm.bit i) :=
  testBit_number bm.val.get bm.val.size i

theorem number_shiftRight {bm' : Kbitmap} (hsize : bm'.val.size = bm.val.size)
    (hbit : ∀ i, i < 64 * bm.val.size → bm'.bit i =
      (decide (i + shift.toNat < 64 * bm.val.size) && bm.bit (i + shift.toNat))) :
    bm'.number = bm.number / 2 ^ shift.toNat := by
  apply Nat.eq_of_testBit_eq
  intro i
  rw [Nat.testBit_div_two_pow, testBit_kbitmap, testBit_kbitmap, hsize]
  by_cases hi : i < 64 * bm.val.size
  · rw [hbit i hi, decide_eq_true hi, Bool.true_and]
  · rw [decide_eq_false hi, decide_eq_false (by omega), Bool.false_and, Bool.false_and]

theorem number_shiftLeft {bm' : Kbitmap} (hsize : bm'.val.size = bm.val.size)
    (hbit : ∀ i, i < 64 * bm.val.size → bm'.bit i =
      (decide (shift.toNat ≤ i) && bm.bit (i - shift.toNat))) :
    bm'.number = bm.number * 2 ^ shift.toNat % 2 ^ (64 * bm.val.size) := by
  apply Nat.eq_of_testBit_eq
  intro i
  rw [Nat.testBit_mod_two_pow, Nat.testBit_mul_two_pow, testBit_kbitmap, testBit_kbitmap, hsize]
  by_cases hi : i < 64 * bm.val.size
  · rw [hbit i hi, decide_eq_true (p := i - shift.toNat < _) (by omega), Bool.true_and]
  · rw [decide_eq_false hi, Bool.false_and, Bool.false_and]

/-- What a shift to the left and back leaves. -/
theorem mul_mod_div_two_pow (N : ℕ) {k s : ℕ} (hs : s ≤ k) :
    N * 2 ^ s % 2 ^ k / 2 ^ s = N % 2 ^ (k - s) := by
  obtain ⟨m, rfl⟩ := Nat.exists_eq_add_of_le hs
  rw [Nat.add_sub_cancel_left, Nat.pow_add, Nat.mul_comm (2 ^ s) (2 ^ m),
    Nat.mul_mod_mul_right, Nat.mul_div_cancel _ (Nat.two_pow_pos s)]

end Shift

/-- What the two functions are for, when there is memory.  They refuse a shift that is longer
than the bitmap, and otherwise divide by a power of two, and multiply with it; a shift to the
left and back clears the highest bits. -/
structure Shifts (bm : Kbitmap) (shift : BitVec 32) : Prop where
  refused : 64 * bm.val.size < shift.toNat →
    bm.shiftRight shift true = some (.inval, bm) ∧ bm.shiftLeft shift true = some (.inval, bm)
  right : shift.toNat ≤ 64 * bm.val.size → ∃ bm', bm.shiftRight shift true = some (.ok, bm') ∧
    bm'.val.size = bm.val.size ∧ bm'.number = bm.number / 2 ^ shift.toNat
  left : shift.toNat ≤ 64 * bm.val.size → ∃ bm', bm.shiftLeft shift true = some (.ok, bm') ∧
    bm'.val.size = bm.val.size ∧
    bm'.number = bm.number * 2 ^ shift.toNat % 2 ^ (64 * bm.val.size)
  back : shift.toNat ≤ 64 * bm.val.size → ∃ bm₁ bm₂,
    bm.shiftLeft shift true = some (.ok, bm₁) ∧ bm₁.shiftRight shift true = some (.ok, bm₂) ∧
    bm₂.val.size = bm.val.size ∧ bm₂.number = bm.number % 2 ^ (64 * bm.val.size - shift.toNat)

/-- **Shifts are arithmetic shifts**, on every bitmap that an `int` can count. -/
theorem shifts_arithmetically (bm : Kbitmap) (hsize : bm.val.size < 2 ^ 31) (shift : BitVec 32) :
    Shifts bm shift where
  refused h := by
    have hfar := tooFar_iff.mpr h
    exact ⟨if_pos hfar, if_pos hfar⟩
  right h := by
    rcases shiftRight_spec hsize h with ⟨bm', hrun, hs, hbit⟩
    exact ⟨bm', hrun, hs, number_shiftRight hs hbit⟩
  left h := by
    rcases shiftLeft_spec hsize h with ⟨bm', hrun, hs, hbit⟩
    exact ⟨bm', hrun, hs, number_shiftLeft hs hbit⟩
  back h := by
    rcases shiftLeft_spec hsize h with ⟨bm₁, hrun₁, hs₁, hbit₁⟩
    have hsize₁ : bm₁.val.size < intLimit := by rwa [hs₁]
    have h₁ : shift.toNat ≤ 64 * bm₁.val.size := by rwa [hs₁]
    rcases shiftRight_spec hsize₁ h₁ with ⟨bm₂, hrun₂, hs₂, hbit₂⟩
    refine ⟨bm₁, bm₂, hrun₁, hrun₂, hs₂.trans hs₁, ?_⟩
    rw [number_shiftRight hs₂ hbit₂, number_shiftLeft hs₁ hbit₁, mul_mod_div_two_pow _ h]

/-- A bitmap of two words, shifted by a word and a bit. -/
theorem shifts_arithmetically_two : Shifts ⟨⟨2, fun _ => 0x8000000000000001⟩⟩ 65 :=
  shifts_arithmetically _ (by decide) 65

example : (shiftRight ⟨⟨2, fun _ => 3⟩⟩ 65 true).map (fun r => r.2.number) = some 1 := by
  decide

end Kylin.Kbitmap
