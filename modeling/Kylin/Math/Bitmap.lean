import Kylin.Lib.Buffer
import Kylin.Math.Val

/-!
# Ranges of bits in a bitmap

`kylin_bitmap_set` and `kylin_bitmap_clear` (`lib/core/math/kylin_bitmap.c`) change a range of
bits: a masked first word, whole words, and a masked last word.  They differ in how a mask is
applied to a word.  A load or a store outside the words of the bitmap is a fault.

The length is consumed on the way, and the mask of the last word is computed from the start
and what is *left* of the length.  That is the place of the end in its word when nothing was
consumed before or the start is at the beginning of a word, and no other.

## Main definitions

* `Kbitmap`, `Kbitmap.bit` — bitmaps and their bits.
* `Kbitmap.set`, `Kbitmap.clear` — the two functions, both `Kbitmap.change`.
* `Kbitmap.Covered` — the bits they change.

## Main results

* `Kbitmap.change_spec` — a change covers these bits and no other.
* `Kbitmap.set_clear_iff` — the ranges for which these are the right ones.
-/

namespace Kylin

open Lib

/-- `kbitmap_t`: its `size` words. -/
structure Kbitmap where
  val : Buffer (BitVec 64)

namespace Kbitmap

/-- `BITS_TO_WORDS`, on an `unsigned int`. -/
def bitsToWords (bits : BitVec 32) : ℕ := (bits + 64 - 1).toNat / 64

/-- `BITMAP_FIRST_WORD_MASK`. -/
def firstWordMask (start : BitVec 32) : BitVec 64 := BitVec.allOnes 64 <<< (start &&& 63).toNat

/-- `BITMAP_LAST_WORD_MASK`. -/
def lastWordMask (nbits : BitVec 32) : BitVec 64 := BitVec.allOnes 64 >>> (-nbits &&& 63).toNat

/-- `*val = op(*val, mask)`. -/
def apply (op : BitVec 64 → BitVec 64 → BitVec 64) (b : Buffer (BitVec 64)) (val : ℕ)
    (mask : BitVec 64) : Option (Buffer (BitVec 64)) := do
  let x ← b.load val
  b.store val (op x mask)

/-- The loop of the two functions, with the locals `val`, `mask`, `len` and `bits`.  The last
two are `int`s, and their difference is taken to wrap. -/
def wordLoop (op : BitVec 64 → BitVec 64 → BitVec 64) :
    ℕ → Buffer (BitVec 64) → ℕ → BitVec 64 → BitVec 32 → BitVec 32 →
      Option (Buffer (BitVec 64) × ℕ × BitVec 64 × BitVec 32)
  | 0, _, _, _, _, _ => none
  | fuel + 1, b, val, mask, len, bits =>
      if (len - bits).toInt ≥ 0 then do
        let b ← apply op b val mask
        wordLoop op fuel b (val + 1) (BitVec.allOnes 64) (len - bits) 64
      else some (b, val, mask, len)

/-- The guard of both functions, in 32-bit arithmetic. -/
def Refused (bm : Kbitmap) (start len : BitVec 32) : Prop :=
  bm.val.size < bitsToWords start ∨ bm.val.size < bitsToWords (start + len)

instance (bm : Kbitmap) (start len : BitVec 32) : Decidable (bm.Refused start len) := by
  unfold Refused
  infer_instance

/-- `kylin_bitmap_set` and `kylin_bitmap_clear`, with how a mask is applied to a word. -/
def change (op : BitVec 64 → BitVec 64 → BitVec 64) (bm : Kbitmap) (start len : BitVec 32) :
    Option (Kerr × Kbitmap) :=
  if bm.Refused start len then some (.inval, bm)
  else do
    -- every turn stores into the next word, so that more turns than words are a fault anyway
    let (b, val, mask, len) ← wordLoop op (bm.val.size + 1) bm.val (start.toNat / 64)
      (firstWordMask start) len (64 - start % 64)
    if len = 0 then some (.ok, ⟨b⟩)
    else do
      let mask := mask &&& lastWordMask (start + len)
      let b ← apply op b val mask
      some (.ok, ⟨b⟩)

/-- `kylin_bitmap_set`. -/
def set : Kbitmap → BitVec 32 → BitVec 32 → Option (Kerr × Kbitmap) :=
  change fun x mask => x ||| mask

/-- `kylin_bitmap_clear`. -/
def clear : Kbitmap → BitVec 32 → BitVec 32 → Option (Kerr × Kbitmap) :=
  change fun x mask => x &&& ~~~mask

/-- The bit `i` of the words of a bitmap. -/
def bitOf (b : Buffer (BitVec 64)) (i : ℕ) : Bool := (b.get (i / 64)).getLsbD (i % 64)

/-- The bit `i` of a bitmap. -/
def bit (bm : Kbitmap) (i : ℕ) : Bool := bitOf bm.val i

/-! ## Masks -/

/-- The first mask has the bits from the start on. -/
theorem getLsbD_firstWordMask (start : BitVec 32) {i : ℕ} (hi : i < 64) :
    (firstWordMask start).getLsbD i = decide (start.toNat % 64 ≤ i) := by
  have hstart : (start &&& 63).toNat = start.toNat % 64 := by
    rw [BitVec.toNat_and]
    exact Nat.and_two_pow_sub_one_eq_mod start.toNat 6
  have hlt : i - start.toNat % 64 < 64 := by omega
  rw [firstWordMask, hstart, BitVec.getLsbD_shiftLeft, BitVec.getLsbD_allOnes, Bool.eq_iff_iff]
  simp [hi, hlt]

/-- The last mask has the bits before the end, or all of them when the end is at the end of
a word. -/
theorem getLsbD_lastWordMask (nbits : BitVec 32) {i : ℕ} (hi : i < 64) :
    (lastWordMask nbits).getLsbD i = decide (nbits.toNat % 64 = 0 ∨ i < nbits.toNat % 64) := by
  have hshift : (-nbits &&& 63).toNat = (64 - nbits.toNat % 64) % 64 := by
    have hlt := nbits.isLt
    have hmod : (-nbits &&& 63).toNat = (2 ^ 32 - nbits.toNat) % 2 ^ 32 % 64 := by
      rw [BitVec.toNat_and, BitVec.toNat_neg]
      exact Nat.and_two_pow_sub_one_eq_mod _ 6
    omega
  rw [lastWordMask, hshift, BitVec.getLsbD_ushiftRight, BitVec.getLsbD_allOnes]
  refine decide_eq_decide.mpr ?_
  omega

/-! ## Changing words -/

section Change
variable {op : BitVec 64 → BitVec 64 → BitVec 64} {v : Bool}

/-- Applying a mask with `op` writes `v` to the bits of the mask. -/
def Writes (op : BitVec 64 → BitVec 64 → BitVec 64) (v : Bool) : Prop :=
  ∀ x mask i, i < 64 → (op x mask).getLsbD i = if mask.getLsbD i then v else x.getLsbD i

theorem writes_or : Writes (fun x mask => x ||| mask) true := by
  intro x mask i _
  cases h : mask.getLsbD i <;> simp [h]

theorem writes_andNot : Writes (fun x mask => x &&& ~~~mask) false := by
  intro x mask i hi
  rw [BitVec.getLsbD_and, BitVec.getLsbD_not]
  cases mask.getLsbD i <;> simp [hi]

theorem apply_spec (hop : Writes op v) (b : Buffer (BitVec 64)) {val : ℕ} (hval : val < b.size)
    (mask : BitVec 64) :
    ∃ b', apply op b val mask = some b' ∧ b'.size = b.size ∧
      ∀ i, bitOf b' i = if i / 64 = val ∧ mask.getLsbD (i % 64) then v else bitOf b i := by
  refine ⟨{ b with get := Function.update b.get val (op (b.get val) mask) }, ?_, rfl, fun i => ?_⟩
  · rw [apply, Buffer.load_of_lt hval, Option.bind_eq_bind, Option.bind_some,
      Buffer.store_of_lt hval]
  · by_cases hi : i / 64 = val
    · subst hi
      simp [bitOf, hop _ _ _ (Nat.mod_lt i (by decide))]
    · simp [bitOf, hi]

/-- The test of the loop, and what it leaves of the length. -/
theorem sub_toInt_nonneg_iff {n k : ℕ} (hn : n < 2 ^ 31) (hk : k ≤ 64) :
    (BitVec.ofNat 32 n - BitVec.ofNat 32 k).toInt ≥ 0 ↔ k ≤ n := by
  rw [BitVec.toInt_eq_toNat_cond, BitVec.toNat_sub, BitVec.toNat_ofNat, BitVec.toNat_ofNat]
  omega

theorem ofNat_sub_ofNat {n k : ℕ} (hn : n < 2 ^ 31) (h : k ≤ n) :
    BitVec.ofNat 32 n - BitVec.ofNat 32 k = BitVec.ofNat 32 (n - k) := by
  apply BitVec.eq_of_toNat_eq
  rw [BitVec.toNat_sub, BitVec.toNat_ofNat, BitVec.toNat_ofNat, BitVec.toNat_ofNat]
  omega

theorem bits_eq (start : BitVec 32) :
    64 - start % 64 = BitVec.ofNat 32 (64 - start.toNat % 64) := by
  apply BitVec.eq_of_toNat_eq
  have hmod : (start % 64).toNat = start.toNat % 64 := rfl
  rw [BitVec.toNat_sub, BitVec.toNat_ofNat, hmod]
  change (2 ^ 32 - start.toNat % 64 + 64) % 2 ^ 32 = _
  omega

/-- One turn of the loop. -/
theorem wordLoop_turn {n k : ℕ} (hn : n < 2 ^ 31) (hk : k ≤ 64) (fuel : ℕ) (b : Buffer (BitVec 64))
    (val : ℕ) (mask : BitVec 64) :
    wordLoop op (fuel + 1) b val mask (BitVec.ofNat 32 n) (BitVec.ofNat 32 k) =
      if k ≤ n then do
        let b ← apply op b val mask
        wordLoop op fuel b (val + 1) (BitVec.allOnes 64) (BitVec.ofNat 32 (n - k)) 64
      else some (b, val, mask, BitVec.ofNat 32 n) := by
  rw [wordLoop]
  by_cases h : k ≤ n
  · rw [if_pos ((sub_toInt_nonneg_iff hn hk).mpr h), if_pos h, ofNat_sub_ofNat hn h]
  · rw [if_neg (mt (sub_toInt_nonneg_iff hn hk).mp h), if_neg h]

/-- The loop on whole words. -/
theorem wordLoop_spec (hop : Writes op v) (b : Buffer (BitVec 64)) (val : ℕ) {n fuel : ℕ}
    (hlt : n < 2 ^ 31) (hn : val + n / 64 ≤ b.size) (hfuel : n / 64 < fuel) :
    ∃ b', wordLoop op fuel b val (BitVec.allOnes 64) (BitVec.ofNat 32 n) 64 =
        some (b', val + n / 64, BitVec.allOnes 64, BitVec.ofNat 32 (n % 64)) ∧
      b'.size = b.size ∧
      ∀ i, bitOf b' i = if 64 * val ≤ i ∧ i < 64 * (val + n / 64) then v else bitOf b i := by
  induction fuel generalizing b val n with
  | zero => omega
  | succ fuel ih =>
      rw [show (64 : BitVec 32) = BitVec.ofNat 32 64 from rfl, wordLoop_turn hlt (Nat.le_refl 64)]
      by_cases hlen : 64 ≤ n
      · obtain ⟨m, rfl⟩ : ∃ m, n = m + 64 := ⟨n - 64, by omega⟩
        have hval : val < b.size := by omega
        obtain ⟨b₁, hrun₁, hsize₁, hbit₁⟩ := apply_spec hop b hval (BitVec.allOnes 64)
        obtain ⟨b', hrun, hsize, hbit⟩ := ih b₁ (val + 1) (n := m) (by omega) (by omega) (by omega)
        refine ⟨b', ?_, hsize.trans hsize₁, fun i => ?_⟩
        · rw [if_pos hlen, hrun₁, Option.bind_eq_bind, Option.bind_some, Nat.add_sub_cancel, hrun,
            Nat.add_div_right m (by decide), Nat.add_mod_right, Nat.add_right_comm]
          rfl
        · have hones : (BitVec.allOnes 64).getLsbD (i % 64) = true := by
            rw [BitVec.getLsbD_allOnes]
            exact decide_eq_true (Nat.mod_lt i (by decide))
          by_cases hhead : i / 64 = val
          · rw [hbit, if_neg (by omega), hbit₁, if_pos ⟨hhead, hones⟩, if_pos (by omega)]
          · rw [hbit, hbit₁, if_neg (c := i / 64 = val ∧ _) fun h => hhead h.1]
            exact if_congr (by omega) rfl rfl
      · refine ⟨b, ?_, rfl, fun i => ?_⟩
        · rw [if_neg hlen, Nat.div_eq_of_lt (by omega), Nat.mod_eq_of_lt (by omega), Nat.add_zero]
        · rw [if_neg (by omega)]

/-- The bits that are changed: those of the range when it ends in its first word, and
otherwise those up to the last whole word and, when bits are left, those of the last word
that the mask for the start plus these bits has. -/
def Covered (start len i : ℕ) : Prop :=
  if start % 64 + len < 64 then start ≤ i ∧ i < start + len
  else start ≤ i ∧ i < (start + len) / 64 * 64 ∨
    (start + len) % 64 ≠ 0 ∧ i / 64 = (start + len) / 64 ∧
      ((start + (start + len)) % 64 = 0 ∨ i % 64 < (start + (start + len)) % 64)

instance (start len i : ℕ) : Decidable (Covered start len i) := by
  unfold Covered
  infer_instance

theorem covered_of_short {start len i : ℕ} (h : start % 64 + len < 64) :
    Covered start len i ↔ start ≤ i ∧ i < start + len := by
  rw [Covered, if_pos h]

theorem covered_of_long {start len i : ℕ} (h : ¬ start % 64 + len < 64) :
    Covered start len i ↔ start ≤ i ∧ i < (start + len) / 64 * 64 ∨
      (start + len) % 64 ≠ 0 ∧ i / 64 = (start + len) / 64 ∧
        ((start + (start + len)) % 64 = 0 ∨ i % 64 < (start + (start + len)) % 64) := by
  rw [Covered, if_neg h]

/-- The masked store behind the loop. -/
def finish (op : BitVec 64 → BitVec 64 → BitVec 64) (start : BitVec 32)
    (r : Buffer (BitVec 64) × ℕ × BitVec 64 × BitVec 32) : Option (Kerr × Kbitmap) :=
  if r.2.2.2 = 0 then some (.ok, ⟨r.1⟩)
  else do
    let b ← apply op r.1 r.2.1 (r.2.2.1 &&& lastWordMask (start + r.2.2.2))
    some (.ok, ⟨b⟩)

/-- A call that is not refused. -/
theorem change_eq (op : BitVec 64 → BitVec 64 → BitVec 64) {bm : Kbitmap} {start len : BitVec 32}
    (hok : ¬ bm.Refused start len) :
    change op bm start len =
      wordLoop op (bm.val.size + 1) bm.val (start.toNat / 64) (firstWordMask start) len
        (BitVec.ofNat 32 (64 - start.toNat % 64)) >>= finish op start := by
  rw [change, if_neg hok, bits_eq]
  rfl

theorem finish_spec (hop : Writes op v) (start : BitVec 32) (b : Buffer (BitVec 64)) {val : ℕ}
    (mask : BitVec 64) {len : BitVec 32} (hlen : len ≠ 0) (hval : val < b.size) :
    ∃ b', finish op start (b, val, mask, len) = some (.ok, ⟨b'⟩) ∧ b'.size = b.size ∧
      ∀ i, bitOf b' i =
        if i / 64 = val ∧ mask.getLsbD (i % 64) ∧
          ((start.toNat + len.toNat) % 64 = 0 ∨ i % 64 < (start.toNat + len.toNat) % 64) then v
        else bitOf b i := by
  have hsum : (start + len).toNat % 64 = (start.toNat + len.toNat) % 64 := by
    rw [BitVec.toNat_add]
    omega
  obtain ⟨b', hrun, hsize, hbit⟩ := apply_spec hop b hval (mask &&& lastWordMask (start + len))
  refine ⟨b', ?_, hsize, fun i => ?_⟩
  · rw [finish, if_neg hlen, hrun]
    rfl
  · rw [hbit, BitVec.getLsbD_and, getLsbD_lastWordMask _ (Nat.mod_lt i (by decide)), hsum]
    simp

/-- A range that ends in its first word. -/
theorem change_inside (hop : Writes op v) {bm : Kbitmap} {start : BitVec 32} {n : ℕ}
    (hok : ¬ bm.Refused start (BitVec.ofNat 32 n)) (hin : start.toNat + n ≤ 64 * bm.val.size)
    (hshort : start.toNat % 64 + n < 64) :
    ∃ bm', change op bm start (BitVec.ofNat 32 n) = some (.ok, bm') ∧
      bm'.val.size = bm.val.size ∧
      ∀ i, bm'.bit i = if Covered start.toNat n i then v else bm.bit i := by
  rw [change_eq op hok, wordLoop_turn (by omega) (by omega), if_neg (by omega),
    Option.bind_eq_bind, Option.bind_some]
  by_cases hn : n = 0
  · subst hn
    refine ⟨bm, rfl, rfl, fun i => ?_⟩
    rw [if_neg]
    rw [covered_of_short hshort]
    omega
  · have hlen : (BitVec.ofNat 32 n).toNat = n := by
      rw [BitVec.toNat_ofNat]
      omega
    have hne : BitVec.ofNat 32 n ≠ 0 := fun h => hn (by rw [← hlen, h]; rfl)
    have hval : start.toNat / 64 < bm.val.size := by omega
    obtain ⟨b', hrun, hsize', hbit⟩ := finish_spec hop start bm.val (firstWordMask start) hne hval
    refine ⟨⟨b'⟩, hrun, hsize', fun i => ?_⟩
    rw [bit, hbit, getLsbD_firstWordMask _ (Nat.mod_lt i (by decide)), hlen]
    refine if_congr ?_ rfl rfl
    rw [covered_of_short hshort, decide_eq_true_eq]
    omega

/-- The loop on a range that reaches the end of its first word changes the bits up to its
last whole word. -/
theorem wordLoop_across (hop : Writes op v) (b : Buffer (BitVec 64)) {start : BitVec 32} {n : ℕ}
    (hn : n < 2 ^ 31) (hin : start.toNat + n ≤ 64 * b.size)
    (hlong : ¬ start.toNat % 64 + n < 64) :
    ∃ b', wordLoop op (b.size + 1) b (start.toNat / 64) (firstWordMask start) (BitVec.ofNat 32 n)
        (BitVec.ofNat 32 (64 - start.toNat % 64)) =
          some (b', (start.toNat + n) / 64, BitVec.allOnes 64,
            BitVec.ofNat 32 ((start.toNat + n) % 64)) ∧
      b'.size = b.size ∧
      ∀ i, bitOf b' i =
        if start.toNat ≤ i ∧ i < (start.toNat + n) / 64 * 64 then v else bitOf b i := by
  obtain ⟨m, hm⟩ : ∃ m, n = m + (64 - start.toNat % 64) :=
    ⟨n - (64 - start.toNat % 64), by omega⟩
  have hhead : start.toNat / 64 < b.size := by omega
  have hlast : (start.toNat + n) / 64 = start.toNat / 64 + 1 + m / 64 := by omega
  have hleft : (start.toNat + n) % 64 = m % 64 := by omega
  have hrest : n - (64 - start.toNat % 64) = m := by omega
  obtain ⟨b₁, hrun₁, hsize₁, hbit₁⟩ := apply_spec hop b hhead (firstWordMask start)
  have hwords : start.toNat / 64 + 1 + m / 64 ≤ b₁.size := by omega
  have hfuel : m / 64 < b.size := by omega
  obtain ⟨b', hrun, hsize, hbit⟩ :=
    wordLoop_spec hop b₁ (start.toNat / 64 + 1) (by omega) hwords hfuel
  refine ⟨b', ?_, hsize.trans hsize₁, fun i => ?_⟩
  · rw [wordLoop_turn hn (by omega), if_pos (by omega), hrun₁, Option.bind_eq_bind,
      Option.bind_some, hrest, hrun, hlast, hleft]
  · by_cases hi : i / 64 = start.toNat / 64
    · rw [hbit, if_neg (by omega), hbit₁, getLsbD_firstWordMask _ (Nat.mod_lt i (by decide))]
      refine if_congr ?_ rfl rfl
      rw [decide_eq_true_eq]
      omega
    · rw [hbit, hbit₁, if_neg (c := i / 64 = start.toNat / 64 ∧ _) fun h => hi h.1]
      exact if_congr (by omega) rfl rfl

/-- A range that reaches the end of its first word. -/
theorem change_across (hop : Writes op v) {bm : Kbitmap} {start : BitVec 32} {n : ℕ}
    (hok : ¬ bm.Refused start (BitVec.ofNat 32 n)) (hn : n < 2 ^ 31)
    (hin : start.toNat + n ≤ 64 * bm.val.size) (hlong : ¬ start.toNat % 64 + n < 64) :
    ∃ bm', change op bm start (BitVec.ofNat 32 n) = some (.ok, bm') ∧
      bm'.val.size = bm.val.size ∧
      ∀ i, bm'.bit i = if Covered start.toNat n i then v else bm.bit i := by
  obtain ⟨b₁, hloop, hsize₁, hbit₁⟩ := wordLoop_across hop bm.val hn hin hlong
  rw [change_eq op hok, hloop, Option.bind_eq_bind, Option.bind_some]
  by_cases hz : (start.toNat + n) % 64 = 0
  · refine ⟨⟨b₁⟩, ?_, hsize₁, fun i => ?_⟩
    · rw [finish, hz]
      rfl
    · rw [bit, hbit₁]
      refine if_congr ?_ rfl rfl
      rw [covered_of_long hlong]
      omega
  · have hlen : (BitVec.ofNat 32 ((start.toNat + n) % 64)).toNat = (start.toNat + n) % 64 := by
      rw [BitVec.toNat_ofNat]
      omega
    have hne : BitVec.ofNat 32 ((start.toNat + n) % 64) ≠ 0 := fun h => hz (by rw [← hlen, h]; rfl)
    have hval : (start.toNat + n) / 64 < b₁.size := by omega
    obtain ⟨b', hrun, hsize', hbit⟩ := finish_spec hop start b₁ (BitVec.allOnes 64) hne hval
    refine ⟨⟨b'⟩, hrun, hsize'.trans hsize₁, fun i => ?_⟩
    have hones : (BitVec.allOnes 64).getLsbD (i % 64) = true := by
      rw [BitVec.getLsbD_allOnes]
      exact decide_eq_true (Nat.mod_lt i (by decide))
    have hmod : (start.toNat + (start.toNat + n) % 64) % 64 =
        (start.toNat + (start.toNat + n)) % 64 := Nat.add_mod_mod _ _ _
    rw [hlen, hmod] at hbit
    by_cases hi : i / 64 = (start.toNat + n) / 64
    · rw [bit, hbit, hbit₁, if_neg (c := start.toNat ≤ i ∧ _) (by omega)]
      refine if_congr ?_ rfl rfl
      rw [covered_of_long hlong, hones, eq_self_iff_true, true_and]
      omega
    · rw [bit, hbit, hbit₁, if_neg (c := i / 64 = _ ∧ _) fun h => hi h.1]
      refine if_congr ?_ rfl rfl
      rw [covered_of_long hlong]
      omega

theorem toInt_of_nonneg {len : BitVec 32} (h : 0 ≤ len.toInt) :
    len.toInt = len.toNat ∧ len.toNat < 2 ^ 31 := by
  rw [BitVec.toInt_eq_toNat_cond] at h ⊢
  have := len.isLt
  omega

/-- **What a change does** to a range inside the bitmap, when it is not refused. -/
theorem change_spec (hop : Writes op v) {bm : Kbitmap} {start len : BitVec 32}
    (hok : ¬ bm.Refused start len) (hlen : 0 ≤ len.toInt)
    (hin : start.toNat + len.toInt ≤ 64 * bm.val.size) :
    ∃ bm', change op bm start len = some (.ok, bm') ∧ bm'.val.size = bm.val.size ∧
      ∀ i, bm'.bit i = if Covered start.toNat len.toNat i then v else bm.bit i := by
  obtain ⟨hn, hlt⟩ := toInt_of_nonneg hlen
  have hin' : start.toNat + len.toNat ≤ 64 * bm.val.size := by omega
  have hlen' : BitVec.ofNat 32 len.toNat = len := by simp
  rw [← hlen'] at hok
  by_cases hshort : start.toNat % 64 + len.toNat < 64
  · have h := change_inside hop hok hin' hshort
    rwa [hlen'] at h
  · have h := change_across hop hok hlt hin' hshort
    rwa [hlen'] at h

theorem toNat_bitsToWords {bits : BitVec 32} (h : bits.toNat < 2 ^ 31) :
    bitsToWords bits = (bits.toNat + 63) / 64 := by
  have hbits : (bits + 64 - 1).toNat = bits.toNat + 63 := by bv_omega
  rw [bitsToWords, hbits]

/-- A range inside a bitmap that is not too large is not refused. -/
theorem not_refused {bm : Kbitmap} {start len : BitVec 32} (hsize : bm.val.size < 2 ^ 25)
    (hlen : 0 ≤ len.toInt) (hin : start.toNat + len.toInt ≤ 64 * bm.val.size) :
    ¬ bm.Refused start len := by
  have hn := (toInt_of_nonneg hlen).1
  have hsum : (start + len).toNat = start.toNat + len.toNat := by
    rw [BitVec.toNat_add]
    omega
  rw [Refused, toNat_bitsToWords (by omega), toNat_bitsToWords (by omega), hsum]
  omega

end Change

/-- What setting and clearing a range are for: the bits of the range get a value, and no other
bit changes. -/
def Fills (v : Bool) (f : Kbitmap → BitVec 32 → BitVec 32 → Option (Kerr × Kbitmap))
    (bm : Kbitmap) (start len : BitVec 32) : Prop :=
  ∃ bm', f bm start len = some (.ok, bm') ∧ bm'.val.size = bm.val.size ∧
    ∀ i < 64 * bm.val.size, bm'.bit i =
      if start.toNat ≤ i ∧ (i : ℤ) < start.toNat + len.toInt then v else bm.bit i

/-- The ranges for which the mask of the last word is right. -/
def Aligned (start len : ℕ) : Prop :=
  start % 64 = 0 ∨ start % 64 + len < 64 ∨ (start + len) % 64 = 0

/-- For these the bits changed are those of the range, -/
theorem covered_iff_of_aligned {start len : ℕ} (h : Aligned start len) (i : ℕ) :
    Covered start len i ↔ start ≤ i ∧ i < start + len := by
  unfold Aligned at h
  by_cases hshort : start % 64 + len < 64
  · exact covered_of_short hshort
  · rw [covered_of_long hshort]
    omega

/-- and for others there is a bit inside the bitmap for which this is wrong. -/
theorem exists_not_covered_iff {start len : ℕ} (h : ¬ Aligned start len) :
    ∃ i < (start + len + 63) / 64 * 64, ¬ (Covered start len i ↔ start ≤ i ∧ i < start + len) := by
  unfold Aligned at h
  have hshort : ¬ start % 64 + len < 64 := by omega
  by_cases hfew : (start + (start + len)) % 64 ≠ 0 ∧
      (start + (start + len)) % 64 < (start + len) % 64
  · -- the mask ends before the range does
    refine ⟨(start + len) / 64 * 64 + (start + (start + len)) % 64, by omega, ?_⟩
    rw [covered_of_long hshort]
    omega
  · refine ⟨start + len, by omega, ?_⟩
    rw [covered_of_long hshort]
    omega

/-- **Setting and clearing a range of bits** do so exactly when the range begins with a word,
ends in its first word, or ends with a word. -/
theorem set_clear_iff (bm : Kbitmap) {start len : BitVec 32} (hsize : bm.val.size < 2 ^ 25)
    (hlen : 0 ≤ len.toInt) (hin : start.toNat + len.toInt ≤ 64 * bm.val.size) :
    Fills true set bm start len ∧ Fills false clear bm start len ↔
      Aligned start.toNat len.toNat := by
  have hn : len.toInt = len.toNat := (toInt_of_nonneg hlen).1
  have hok := not_refused hsize hlen hin
  obtain ⟨bm₁, hset, hsize₁, hbit₁⟩ := change_spec writes_or hok hlen hin
  obtain ⟨bm₀, hclear, hsize₀, hbit₀⟩ := change_spec writes_andNot hok hlen hin
  constructor
  · rintro ⟨⟨bm₁', hset', -, hfill₁⟩, bm₀', hclear', -, hfill₀⟩
    cases hset.symm.trans hset'
    cases hclear.symm.trans hclear'
    by_contra hal
    obtain ⟨i, hi, hdiff⟩ := exists_not_covered_iff hal
    have h₁ := (hbit₁ i).symm.trans (hfill₁ i (by omega))
    have h₀ := (hbit₀ i).symm.trans (hfill₀ i (by omega))
    have hrange : (start.toNat ≤ i ∧ (i : ℤ) < start.toNat + len.toInt) ↔
        (start.toNat ≤ i ∧ i < start.toNat + len.toNat) := by omega
    -- the bit would have to be set and clear before the call
    by_cases hcov : Covered start.toNat len.toNat i
    · have hout : ¬ (start.toNat ≤ i ∧ (i : ℤ) < start.toNat + len.toInt) := fun h =>
        hdiff (iff_of_true hcov (hrange.mp h))
      rw [if_pos hcov, if_neg hout] at h₁ h₀
      cases h₁.trans h₀.symm
    · have hmem : start.toNat ≤ i ∧ (i : ℤ) < start.toNat + len.toInt := by
        by_contra h
        exact hdiff (iff_of_false hcov (mt hrange.mpr h))
      rw [if_neg hcov, if_pos hmem] at h₁ h₀
      cases h₁.symm.trans h₀
  · intro hal
    have hrange : ∀ i, Covered start.toNat len.toNat i ↔
        start.toNat ≤ i ∧ (i : ℤ) < start.toNat + len.toInt := by
      intro i
      rw [covered_iff_of_aligned hal, hn]
      omega
    refine ⟨⟨bm₁, hset, hsize₁, fun i _ => ?_⟩, bm₀, hclear, hsize₀, fun i _ => ?_⟩
    · rw [hbit₁]
      exact if_congr (hrange i) rfl rfl
    · rw [hbit₀]
      exact if_congr (hrange i) rfl rfl

/-- Two words without a bit. -/
def blank : Kbitmap := ⟨⟨2, fun _ => 0⟩⟩

/-- A range from the middle of the first word to the end of the second. -/
theorem set_clear_iff_blank : Fills true set blank 16 112 ∧ Fills false clear blank 16 112 :=
  (set_clear_iff blank (by decide) (by decide) (by decide)).mpr (Or.inr (Or.inr (by decide)))

/-- A range that ends in the middle of the second word sets the bit behind it. -/
theorem set_blank :
    (∃ bm', set blank 16 64 = some (.ok, bm') ∧ bm'.bit 80 = true) ∧
      ¬ Fills true set blank 16 64 := by
  have hrun : ∃ bm', set blank 16 64 = some (.ok, bm') ∧ bm'.bit 80 = true :=
    ⟨_, rfl, by decide⟩
  refine ⟨hrun, ?_⟩
  rintro ⟨bm, hset, -, hfill⟩
  obtain ⟨bm', hset', hbit⟩ := hrun
  cases hset.symm.trans hset'
  have h := hfill 80 (by decide)
  rw [hbit] at h
  revert h
  decide

end Kbitmap

end Kylin
