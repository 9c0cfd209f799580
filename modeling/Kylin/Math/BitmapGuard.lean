import Kylin.Math.Bitmap

/-!
# What the guard of a bitmap lets through

`kylin_bitmap_set` and `kylin_bitmap_clear` refuse a range whose ends, rounded up to words in
32-bit arithmetic, are behind the bitmap.  A start or an end within 63 bits of `2 ^ 32` rounds
to no word at all, and nothing is asked about the sign of the length: a negative one still
stores into the word of the start, and one so negative that the first subtraction wraps goes
on through the memory behind it.

## Main definitions

* `Guarded` — what the guard is for.
* `Harmless` — the arguments for which nothing but the range is touched.

## Main results

* `change_fault` — a range that leaves the bitmap faults when it is not refused.
* `guarded_iff` — the arguments for which the guard does what it is for.
-/

namespace Kylin.Kbitmap

open Lib

/-- **What the guard is for**: a call is refused and changes nothing, or it stays inside the
words of the bitmap and changes bits of the range only. -/
def Guarded (f : Kbitmap → BitVec 32 → BitVec 32 → Option (Kerr × Kbitmap)) (bm : Kbitmap)
    (start len : BitVec 32) : Prop :=
  ∃ err bm', f bm start len = some (err, bm') ∧
    (err = .inval ∧ bm' = bm ∨ err = .ok ∧ bm'.val.size = bm.val.size ∧
      ∀ i, bm'.bit i ≠ bm.bit i → start.toNat ≤ i ∧ (i : ℤ) < start.toNat + len.toInt)

/-- The arguments with which only bits of the range are touched, in a bitmap of `size` words.
A range of bits ends inside the bitmap, and in its last word the mask does not reach behind
the end.  With a negative length there is no range, and the one mask that is applied has to
be empty. -/
def Harmless (size : ℕ) (start len : BitVec 32) : Prop :=
  if 0 ≤ len.toInt then
    len = 0 ∨ start.toNat + len.toNat ≤ 64 * size ∧
      (start.toNat % 64 + len.toNat < 64 ∨ start.toNat % 64 = 0 ∨
        (start.toNat + len.toNat) % 64 = 0 ∨
        64 < start.toNat % 64 + (start.toNat + len.toNat) % 64)
  else
    start.toNat < 64 * size ∧ 64 - start.toNat % 64 ≤ len.toInt + 2 ^ 31 ∧
      0 < (start.toNat + len.toNat) % 64 ∧ (start.toNat + len.toNat) % 64 ≤ start.toNat % 64

section Guard
variable {op : BitVec 64 → BitVec 64 → BitVec 64} {v : Bool} {bm : Kbitmap}
  {start len : BitVec 32}

/-! ## Ranges that leave the bitmap -/

theorem apply_of_le {b : Buffer (BitVec 64)} {val : ℕ} (h : b.size ≤ val) (mask : BitVec 64) :
    apply op b val mask = none := by
  simp [apply, Buffer.load, Nat.not_lt.mpr h]

theorem finish_of_le {b : Buffer (BitVec 64)} {val : ℕ} (h : b.size ≤ val) (mask : BitVec 64)
    (hlen : len ≠ 0) : finish op start (b, val, mask, len) = none := by
  rw [finish, if_neg hlen]
  simp [apply_of_le h]

theorem ofNat_ne_zero {n : ℕ} (hpos : 0 < n) (hn : n < 2 ^ 31) : BitVec.ofNat 32 n ≠ 0 := by
  intro h
  have := congrArg BitVec.toNat h
  rw [BitVec.toNat_ofNat] at this
  change n % 2 ^ 32 = 0 at this
  omega

/-- The stores reach the first word behind the bitmap. -/
theorem wordLoop_fault (hop : Writes op v) {n k fuel val : ℕ} {b : Buffer (BitVec 64)}
    {mask : BitVec 64} (hpos : 0 < n) (hn : n < 2 ^ 31) (hk : k ≤ 64)
    (h : 64 * b.size < 64 * val + (64 - k) + n) :
    wordLoop op fuel b val mask (BitVec.ofNat 32 n) (BitVec.ofNat 32 k) >>= finish op start =
      none := by
  induction fuel generalizing b val mask n k with
  | zero => rfl
  | succ fuel ih =>
      rw [wordLoop_turn hn hk]
      by_cases hle : k ≤ n
      · rw [if_pos hle]
        rcases Nat.lt_or_ge val b.size with hval | hval
        · rcases apply_spec hop b hval mask with ⟨b', hrun, hsize, -⟩
          rw [hrun]
          exact ih (k := 64) (by omega) (by omega) (by omega) (by omega)
        · rw [apply_of_le hval]
          rfl
      · rw [if_neg hle]
        exact finish_of_le (by omega) mask (ofNat_ne_zero hpos hn)

/-- **A range that leaves the bitmap** faults when it is not refused. -/
theorem change_fault (hop : Writes op v) (hok : ¬ bm.Refused start len) (hlen : 0 < len.toInt)
    (hout : 64 * bm.val.size < start.toNat + len.toNat) : change op bm start len = none := by
  rcases toInt_of_nonneg (Int.le_of_lt hlen) with ⟨hn, hlt⟩
  have hlen' : BitVec.ofNat 32 len.toNat = len := by simp
  rw [change_eq op hok, ← hlen']
  apply wordLoop_fault hop
  · omega
  · exact hlt
  · omega
  · omega

/-! ## Negative lengths -/

/-- The loop is not entered, and the mask of the first word is cut at the end. -/
theorem change_negative (hop : Writes op v) (hok : ¬ bm.Refused start len) (hneg : len.toInt < 0)
    (hstop : (len - BitVec.ofNat 32 (64 - start.toNat % 64)).toInt < 0)
    (hin : start.toNat < 64 * bm.val.size) :
    ∃ bm', change op bm start len = some (.ok, bm') ∧ bm'.val.size = bm.val.size ∧
      ∀ i, bm'.bit i =
        if i / 64 = start.toNat / 64 ∧ start.toNat % 64 ≤ i % 64 ∧
          ((start.toNat + len.toNat) % 64 = 0 ∨ i % 64 < (start.toNat + len.toNat) % 64) then v
        else bm.bit i := by
  have hne : len ≠ 0 := by
    rintro rfl
    exact absurd hneg (by decide)
  have hval : start.toNat / 64 < bm.val.size := by omega
  rcases finish_spec hop start bm.val (firstWordMask start) hne hval with ⟨b', hrun, hsize, hbit⟩
  refine ⟨⟨b'⟩, ?_, hsize, fun i => ?_⟩
  · rw [change_eq op hok, wordLoop, if_neg (by omega)]
    exact hrun
  · rw [bit, hbit, getLsbD_firstWordMask _ (Nat.mod_lt i (by decide))]
    simp [bit]

theorem change_negative_fault (hok : ¬ bm.Refused start len) (hneg : len.toInt < 0)
    (hstop : (len - BitVec.ofNat 32 (64 - start.toNat % 64)).toInt < 0)
    (hout : 64 * bm.val.size ≤ start.toNat) : change op bm start len = none := by
  have hne : len ≠ 0 := by
    rintro rfl
    exact absurd hneg (by decide)
  rw [change_eq op hok, wordLoop, if_neg (by omega)]
  exact finish_of_le (by omega) _ hne

/-- Whatever is stored, a bit keeps its value or gets the one that is written. -/
theorem apply_bit (hop : Writes op v) {b b' : Buffer (BitVec 64)} {val : ℕ} {mask : BitVec 64}
    (h : apply op b val mask = some b') (i : ℕ) : bitOf b' i = v ∨ bitOf b' i = bitOf b i := by
  rcases Nat.lt_or_ge val b.size with hval | hval
  · rcases apply_spec hop b hval mask with ⟨b₁, hrun, -, hbit⟩
    rw [hrun] at h
    cases h
    rw [hbit]
    split
    · exact Or.inl rfl
    · exact Or.inr rfl
  · rw [apply_of_le hval] at h
    cases h

theorem wordLoop_bit (hop : Writes op v) {fuel val : ℕ} {b : Buffer (BitVec 64)}
    {mask : BitVec 64} {bits : BitVec 32}
    {r : Buffer (BitVec 64) × ℕ × BitVec 64 × BitVec 32}
    (h : wordLoop op fuel b val mask len bits = some r) (i : ℕ) :
    bitOf r.1 i = v ∨ bitOf r.1 i = bitOf b i := by
  induction fuel generalizing b val mask len bits with
  | zero => cases h
  | succ fuel ih =>
      rw [wordLoop] at h
      split at h
      · rcases Option.bind_eq_some_iff.mp h with ⟨b', hb', hr⟩
        rcases ih hr with hv | hv
        · exact Or.inl hv
        · rw [hv]
          exact apply_bit hop hb' i
      · cases h
        exact Or.inr rfl

theorem finish_bit (hop : Writes op v) {r : Buffer (BitVec 64) × ℕ × BitVec 64 × BitVec 32}
    {err : Kerr} {bm' : Kbitmap} (h : finish op start r = some (err, bm')) (i : ℕ) :
    bm'.bit i = v ∨ bm'.bit i = bitOf r.1 i := by
  rw [finish] at h
  split at h
  · cases h
    exact Or.inr rfl
  · rcases Option.bind_eq_some_iff.mp h with ⟨b', hb', hr⟩
    cases hr
    exact apply_bit hop hb' i

/-- The subtraction wraps and the loop is entered: the last bit of the first word is written. -/
theorem change_wraps (hop : Writes op v) (hok : ¬ bm.Refused start len)
    (hgo : (len - BitVec.ofNat 32 (64 - start.toNat % 64)).toInt ≥ 0) {err : Kerr} {bm' : Kbitmap}
    (h : change op bm start len = some (err, bm')) :
    bm'.bit (64 * (start.toNat / 64) + 63) = v := by
  rw [change_eq op hok] at h
  rcases Option.bind_eq_some_iff.mp h with ⟨r, hr, hfin⟩
  rw [wordLoop, if_pos hgo] at hr
  rcases Option.bind_eq_some_iff.mp hr with ⟨b, hb, hr⟩
  have hval : start.toNat / 64 < bm.val.size := by
    by_contra hval
    rw [apply_of_le (Nat.not_lt.mp hval)] at hb
    cases hb
  have hfirst : bitOf b (64 * (start.toNat / 64) + 63) = v := by
    rcases apply_spec hop bm.val hval (firstWordMask start) with ⟨b₁, hrun, -, hbit⟩
    rw [hrun] at hb
    cases hb
    rw [hbit, if_pos]
    refine ⟨by omega, ?_⟩
    rw [getLsbD_firstWordMask _ (Nat.mod_lt _ (by decide)), decide_eq_true_iff]
    omega
  rcases finish_bit hop hfin (64 * (start.toNat / 64) + 63) with hv | hv
  · exact hv
  · rcases wordLoop_bit hop hr (64 * (start.toNat / 64) + 63) with hw | hw
    · exact hv.trans hw
    · exact hv.trans (hw.trans hfirst)

end Guard

/-! ## The guard -/

section Both
variable {bm bm₁ bm₀ : Kbitmap} {C R : ℕ → Prop} [DecidablePred C]

/-- When the same bits are set by one call and cleared by another, both leave the other bits
alone only if these are the only ones written. -/
theorem forall_written_iff (hset : ∀ i, bm₁.bit i = if C i then true else bm.bit i)
    (hclear : ∀ i, bm₀.bit i = if C i then false else bm.bit i) :
    ((∀ i, bm₁.bit i ≠ bm.bit i → R i) ∧ ∀ i, bm₀.bit i ≠ bm.bit i → R i) ↔ ∀ i, C i → R i := by
  constructor
  · rintro ⟨h₁, h₀⟩ i hi
    cases hbit : bm.bit i with
    | false =>
        apply h₁
        rw [hset, if_pos hi, hbit]
        decide
    | true =>
        apply h₀
        rw [hclear, if_pos hi, hbit]
        decide
  · intro h
    constructor
    · intro i hi
      by_cases hC : C i
      · exact h i hC
      · rw [hset, if_neg hC] at hi
        exact absurd rfl hi
    · intro i hi
      by_cases hC : C i
      · exact h i hC
      · rw [hclear, if_neg hC] at hi
        exact absurd rfl hi

end Both

section Cases
variable {bm : Kbitmap} {start len : BitVec 32}

theorem guarded_of_ok {f : Kbitmap → BitVec 32 → BitVec 32 → Option (Kerr × Kbitmap)}
    {bm' : Kbitmap} (hrun : f bm start len = some (.ok, bm'))
    (hsize : bm'.val.size = bm.val.size) :
    Guarded f bm start len ↔
      ∀ i, bm'.bit i ≠ bm.bit i → start.toNat ≤ i ∧ (i : ℤ) < start.toNat + len.toInt := by
  constructor
  · rintro ⟨err, bm₁, hrun₁, h⟩
    rw [hrun] at hrun₁
    cases hrun₁
    rcases h with h | h
    · cases h.1
    · exact h.2.2
  · intro h
    exact ⟨.ok, bm', hrun, Or.inr ⟨rfl, hsize, h⟩⟩

/-- A bit outside the range keeps its value. -/
theorem Guarded.bit_eq {f : Kbitmap → BitVec 32 → BitVec 32 → Option (Kerr × Kbitmap)}
    (h : Guarded f bm start len) {i : ℕ}
    (hi : ¬ (start.toNat ≤ i ∧ (i : ℤ) < start.toNat + len.toInt)) :
    ∃ err bm', f bm start len = some (err, bm') ∧ bm'.bit i = bm.bit i := by
  rcases h with ⟨err, bm', hrun, ⟨-, rfl⟩ | ⟨-, -, hout⟩⟩
  · exact ⟨err, bm', hrun, rfl⟩
  · exact ⟨err, bm', hrun, by_contra fun hne => hi (hout i hne)⟩

theorem not_guarded_of_none {f : Kbitmap → BitVec 32 → BitVec 32 → Option (Kerr × Kbitmap)}
    (h : f bm start len = none) : ¬ Guarded f bm start len := by
  rintro ⟨err, bm', hrun, -⟩
  rw [h] at hrun
  cases hrun

/-- The bits covered are bits of the range unless the mask of the last word reaches behind
its end. -/
theorem covered_imp_iff {s n : ℕ} :
    (∀ i, Covered s n i → s ≤ i ∧ i < s + n) ↔
      s % 64 + n < 64 ∨ s % 64 = 0 ∨ (s + n) % 64 = 0 ∨ 64 < s % 64 + (s + n) % 64 := by
  by_cases hshort : s % 64 + n < 64
  · simp [covered_of_short hshort, hshort]
  · constructor
    · intro h
      by_contra hnot
      -- the bit at the end is covered
      have hend := h (s + n) (by
        rw [covered_of_long hshort]
        omega)
      omega
    · intro hcond i hi
      rw [covered_of_long hshort] at hi
      omega

theorem guarded_iff_of_pos (hok : ¬ bm.Refused start len) (hlen : 0 < len.toInt) :
    Guarded set bm start len ∧ Guarded clear bm start len ↔
      Harmless bm.val.size start len := by
  rcases toInt_of_nonneg (Int.le_of_lt hlen) with ⟨hn, -⟩
  have hne : len ≠ 0 := by
    rintro rfl
    exact absurd hlen (by decide)
  rw [Harmless, if_pos (Int.le_of_lt hlen), or_iff_right hne]
  by_cases hin : start.toNat + len.toNat ≤ 64 * bm.val.size
  · rcases change_spec writes_or hok (Int.le_of_lt hlen) (by omega) with ⟨bm₁, hset, hs₁, hbit₁⟩
    rcases change_spec writes_andNot hok (Int.le_of_lt hlen) (by omega)
      with ⟨bm₀, hclear, hs₀, hbit₀⟩
    rw [guarded_of_ok (f := set) hset hs₁, guarded_of_ok (f := clear) hclear hs₀,
      forall_written_iff hbit₁ hbit₀, ← covered_imp_iff, and_iff_right hin, hn]
    exact forall_congr' fun i => imp_congr Iff.rfl (and_congr Iff.rfl (by omega))
  · have hfault : set bm start len = none := change_fault writes_or hok hlen (by omega)
    exact iff_of_false (fun h => not_guarded_of_none hfault h.1) fun h => hin h.1

theorem guarded_iff_of_neg (hok : ¬ bm.Refused start len) (hneg : len.toInt < 0) :
    Guarded set bm start len ∧ Guarded clear bm start len ↔
      Harmless bm.val.size start len := by
  have hstop : (len - BitVec.ofNat 32 (64 - start.toNat % 64)).toInt < 0 ↔
      64 - start.toNat % 64 ≤ len.toInt + 2 ^ 31 := by
    rw [BitVec.toInt_eq_toNat_cond] at hneg ⊢
    rw [BitVec.toInt_eq_toNat_cond, BitVec.toNat_sub, BitVec.toNat_ofNat]
    have := len.isLt
    omega
  rw [Harmless, if_neg (by omega), ← hstop]
  by_cases hgo : (len - BitVec.ofNat 32 (64 - start.toNat % 64)).toInt < 0
  · rw [and_iff_right hgo]
    by_cases hin : start.toNat < 64 * bm.val.size
    · rcases change_negative writes_or hok hneg hgo hin with ⟨bm₁, hset, hs₁, hbit₁⟩
      rcases change_negative writes_andNot hok hneg hgo hin with ⟨bm₀, hclear, hs₀, hbit₀⟩
      rw [guarded_of_ok (f := set) hset hs₁, guarded_of_ok (f := clear) hclear hs₀,
        forall_written_iff hbit₁ hbit₀, and_iff_right hin]
      constructor
      · intro h
        by_contra hnot
        -- the bit of the start is written
        have hstart := h start.toNat (by omega)
        omega
      · intro hcond i hi
        omega
    · have hfault : set bm start len = none := change_negative_fault hok hneg hgo (by omega)
      exact iff_of_false (fun h => not_guarded_of_none hfault h.1) fun h => hin h.1
  · refine iff_of_false ?_ fun h => hgo h.2.1
    rintro ⟨hset, hclear⟩
    have hout : ¬ (start.toNat ≤ 64 * (start.toNat / 64) + 63 ∧
        ((64 * (start.toNat / 64) + 63 : ℕ) : ℤ) < start.toNat + len.toInt) := by omega
    rcases hset.bit_eq hout with ⟨err₁, bm₁, hset, h₁⟩
    rcases hclear.bit_eq hout with ⟨err₀, bm₀, hclear, h₀⟩
    -- the bit would have to be set and clear before the call
    rw [change_wraps writes_or hok (Int.not_lt.mp hgo) hset] at h₁
    rw [change_wraps writes_andNot hok (Int.not_lt.mp hgo) hclear] at h₀
    cases h₁.trans h₀.symm

end Cases

/-- **What the guard lets through.**  A call is refused, or it touches only bits of its range,
exactly when the guard refuses or the arguments are harmless. -/
theorem guarded_iff (bm : Kbitmap) (start len : BitVec 32) :
    Guarded set bm start len ∧ Guarded clear bm start len ↔
      bm.Refused start len ∨ Harmless bm.val.size start len := by
  by_cases href : bm.Refused start len
  · have hset : set bm start len = some (.inval, bm) := if_pos href
    have hclear : clear bm start len = some (.inval, bm) := if_pos href
    exact iff_of_true ⟨⟨_, _, hset, Or.inl ⟨rfl, rfl⟩⟩, _, _, hclear, Or.inl ⟨rfl, rfl⟩⟩
      (Or.inl href)
  · rw [or_iff_right href]
    rcases Int.lt_trichotomy len.toInt 0 with hneg | hzero | hpos
    · exact guarded_iff_of_neg href hneg
    · have hlen : len = 0 := BitVec.eq_of_toInt_eq hzero
      subst hlen
      have hloop : ∀ op, change op bm start 0 = some (.ok, bm) := by
        intro op
        rw [change_eq op href, show (0 : BitVec 32) = BitVec.ofNat 32 0 from rfl,
          wordLoop_turn (by decide) (by omega), if_neg (by omega)]
        rfl
      have hharm : Harmless bm.val.size start 0 := by
        rw [Harmless, if_pos (by decide)]
        exact Or.inl rfl
      refine iff_of_true ⟨(guarded_of_ok (hloop _) rfl).mpr ?_,
        (guarded_of_ok (hloop _) rfl).mpr ?_⟩ hharm
      · exact fun i hi => absurd rfl hi
      · exact fun i hi => absurd rfl hi
    · exact guarded_iff_of_pos href hpos

/-- The last bit of the address range, in a bitmap of one word: its rounding wraps to no word
at all, and the store is far behind the bitmap. -/
theorem not_guarded_wrapped :
    set ⟨⟨1, fun _ => 0⟩⟩ 0xffffffff 1 = none ∧
      ¬ Guarded set ⟨⟨1, fun _ => 0⟩⟩ 0xffffffff 1 := by
  have hfault : set ⟨⟨1, fun _ => 0⟩⟩ 0xffffffff 1 = none := by decide
  exact ⟨hfault, not_guarded_of_none hfault⟩

end Kylin.Kbitmap
