import Kylin.Lib.Loop
import Kylin.Utils.Addr

/-!
# Network masks

The conversions between a number of bits and the mask that has them, and the broadcast address of a
network (`include/utils/kylin_addr.h`).  A mask is written byte by byte: whole bytes of ones, the
byte the last bit is in, and zeros.  It is read back by counting bytes of ones and then the shifts
that empty the next byte.

## Main definitions

* `maskbits2Maskaddr`, `maskaddr2Maskbits`, `broadaddr` — the functions.
* `bit`, `IsMask` — the bits of an address, and the masks of a number of bits.
* `PrefixLaws` — how the functions go together.

## Main results

* `maskbits2Maskaddr_spec`, `maskaddr2Maskbits_of_isMask`, `broadaddr_spec` — the functions.
* `prefixLaws` — the laws hold, for every family.
-/

namespace Kylin.Kaddr

open Lib

/-- `addr8[n] = v`, which must lie in the address. -/
def put (a : Kaddr) (n : ℕ) (v : Byte) : Option Kaddr :=
  if h : n < 16 then some ⟨Function.update a.addr8 ⟨n, h⟩ v⟩ else none

/-- The counters are of type `int`. -/
def intMax : ℕ := 2 ^ 31

/-- At most as many bits as the family has. -/
def clampBits (af netmaskBits : UInt8) : UInt8 :=
  if af = afInet ∧ netmaskBits > 32 then 32
  else if netmaskBits > 128 then 128
  else netmaskBits

/-- `while(netmask_bits >= 8)`. -/
def fillOnes (netmaskBits : UInt8) (n : ℕ) (maskAddr : Kaddr) : Option (UInt8 × ℕ × Kaddr) :=
  if h : netmaskBits ≥ 8 then do
    let maskAddr ← put maskAddr n 0xff
    fillOnes (netmaskBits - 8) (n + 1) maskAddr
  else some (netmaskBits, n, maskAddr)
termination_by netmaskBits.toNat
decreasing_by
  rw [UInt8.toNat_sub_of_le _ _ h]
  have : (8 : UInt8).toNat ≤ netmaskBits.toNat := UInt8.le_iff_toNat_le.mp h
  have : (8 : UInt8).toNat = 8 := rfl
  omega

/-- `~((1LL << (8 - netmask_bits)) - 1)`, as a byte. -/
def lastByte (netmaskBits : UInt8) : Byte :=
  UInt8.ofBitVec (((~~~((1#64 <<< (8 - netmaskBits.toNat)) - 1#64)).truncate 8))

/-- `if(netmask_bits > 0)`: the byte the last bit is in. -/
def putRest (netmaskBits : UInt8) (n : ℕ) (maskAddr : Kaddr) : Option (ℕ × Kaddr) :=
  if netmaskBits > 0 then do
    let maskAddr ← put maskAddr n (lastByte netmaskBits)
    some (n + 1, maskAddr)
  else some (n, maskAddr)

/-- `kylin_addr_maskbits_2_maskaddr`. -/
def maskbits2Maskaddr (af netmaskBits : UInt8) (maskAddr : Kaddr) : Option Kaddr := do
  let max := width af
  let (netmaskBits, n, maskAddr) ← fillOnes (clampBits af netmaskBits) 0 maskAddr
  let (n, maskAddr) ← putRest netmaskBits n maskAddr
  forLoop intMax (fun i maskAddr => put maskAddr i 0x00) (max - n) n maskAddr

/-- How often a byte can be shifted before it is empty. -/
def shifts (value : UInt8) : ℕ := (List.range 8).countP fun k => value.toNat * 2 ^ k % 256 ≠ 0

theorem shifts_lt {value : UInt8} (h : value > 0) : shifts (value <<< 1) < shifts value := by
  have hall : ∀ v, v < 256 → v ≠ 0 →
      ((List.range 8).countP fun k => v * 2 % 256 * 2 ^ k % 256 ≠ 0) <
        (List.range 8).countP fun k => v * 2 ^ k % 256 ≠ 0 := by decide +kernel
  have hne : value.toNat ≠ 0 := Nat.ne_of_gt (UInt8.lt_iff_toNat_lt.mp h)
  have hshift : (value <<< 1).toNat = value.toNat * 2 % 256 := by
    rw [UInt8.toNat_shiftLeft, Nat.shiftLeft_eq]
    rfl
  rw [shifts, hshift]
  exact hall _ value.toNat_lt hne

/-- `while(value > 0)`. -/
def shiftOut (value netmaskBits : UInt8) : UInt8 :=
  if h : value > 0 then shiftOut (value <<< 1) (netmaskBits + 1) else netmaskBits
termination_by shifts value
decreasing_by exact shifts_lt h

/-- The loop over the bytes, which is left at the first that is not all ones. -/
def countBits (maskAddr : Kaddr) : ℕ → ℕ → UInt8 → UInt8
  | 0, _, netmaskBits => netmaskBits
  | left + 1, i, netmaskBits =>
      let value := maskAddr.byte i
      if value = 0xff then countBits maskAddr left (i + 1) (netmaskBits + 8)
      else shiftOut value netmaskBits

/-- `kylin_addr_maskaddr_2_maskbits`. -/
def maskaddr2Maskbits (af : UInt8) (maskAddr : Kaddr) : UInt8 := countBits maskAddr (width af) 0 0

/-- `kylin_addr_broadaddr`. -/
def broadaddr (af : UInt8) (addr maskAddr broadcastAddr : Kaddr) : Option Kaddr :=
  forLoop intMax (fun i broadcastAddr =>
    put broadcastAddr i (addr.byte i ||| ~~~ maskAddr.byte i)) (width af) 0 broadcastAddr

/-! ## Bits -/

/-- The bits of an address, in network order. -/
def bit (a : Kaddr) (i : ℕ) : Bool := (a.byte (i / 8)).toBitVec.getLsbD (7 - i % 8)

/-- The first `p` bits are ones and the others zeros. -/
def IsMask (af : UInt8) (p : ℕ) (m : Kaddr) : Prop :=
  ∀ i, i < 8 * width af → m.bit i = decide (i < p)

section Bits
variable {af : UInt8} {a b m : Kaddr} {p : ℕ}

theorem width_le (af : UInt8) : width af ≤ 16 := by
  rw [width]
  split <;> decide

theorem put_spec {n : ℕ} (a : Kaddr) (hn : n < 16) (v : Byte) :
    ∃ a', put a n v = some a' ∧ ∀ j, a'.byte j = if j = n then v else a.byte j := by
  refine ⟨_, dif_pos hn, fun j => ?_⟩
  by_cases hj : j < 16
  · simp only [byte, dif_pos hj, Function.update_apply, Fin.mk.injEq]
  · rw [byte, dif_neg hj, byte, dif_neg hj, if_neg (by omega)]

/-- Bytes are given by their bits. -/
theorem byte_eq_iff {j : ℕ} :
    a.byte j = b.byte j ↔ ∀ r, r < 8 → a.bit (8 * j + r) = b.bit (8 * j + r) := by
  have hbit : ∀ (c : Kaddr) r, r < 8 → c.bit (8 * j + r) = (c.byte j).toBitVec.getLsbD (7 - r) := by
    intro c r hr
    rw [bit, (by omega : (8 * j + r) / 8 = j), (by omega : (8 * j + r) % 8 = r)]
  constructor
  · intro h r hr
    rw [hbit a r hr, hbit b r hr, h]
  · intro h
    apply UInt8.eq_of_toBitVec_eq
    apply BitVec.eq_of_getLsbD_eq
    intro i hi
    have hi' := h (7 - i) (by omega)
    rw [hbit a _ (by omega), hbit b _ (by omega), (by omega : 7 - (7 - i) = i)] at hi'
    exact hi'

/-- The same bits are the same bytes. -/
theorem forall_bit_iff : (∀ i, i < 8 * width af → a.bit i = b.bit i) ↔
    ∀ j, j < width af → a.byte j = b.byte j := by
  constructor
  · exact fun h j hj => byte_eq_iff.mpr fun r hr => h _ (by omega)
  · intro h i hi
    have hbits := byte_eq_iff.mp (h (i / 8) (by omega)) (i % 8) (by omega)
    rwa [Nat.div_add_mod] at hbits

/-- No more bits than the family has. -/
theorem isMask_min_iff : IsMask af (min p (8 * width af)) m ↔ IsMask af p m := by
  refine forall_congr' fun i => imp_congr_right fun hi => ?_
  rw [decide_eq_decide.mpr (by omega : i < min p (8 * width af) ↔ i < p)]

theorem IsMask.byte_congr (h : IsMask af p m) (hb : IsMask af p b) :
    ∀ j, j < width af → m.byte j = b.byte j :=
  forall_bit_iff.mp fun i hi => (h i hi).trans (hb i hi).symm

theorem IsMask.of_byte_eq (h : IsMask af p m) (hb : ∀ j, j < width af → m.byte j = b.byte j) :
    IsMask af p b := fun i hi => by rw [← forall_bit_iff.mpr hb i hi, h i hi]

end Bits

/-! ## From bits to masks -/

section Masks
variable {af p : UInt8}

/-- The byte of a mask of `p` bits at `j`. -/
def maskByte (p j : ℕ) : Byte :=
  if 8 * (j + 1) ≤ p then 0xff else if 8 * j < p then lastByte (UInt8.ofNat (p % 8)) else 0

/-- The bits of a last byte. -/
theorem getLsbD_lastByte {r i : ℕ} (hr : r < 8) (hi : i < 8) :
    (lastByte (UInt8.ofNat r)).toBitVec.getLsbD (7 - i) = decide (i < r) := by
  have hall : ∀ r, r < 8 → ∀ i, i < 8 →
      (lastByte (UInt8.ofNat r)).toBitVec.getLsbD (7 - i) = decide (i < r) := by decide +kernel
  exact hall r hr i hi

theorem isMask_of_byte {m : Kaddr} {p : ℕ} (h : ∀ j, j < width af → m.byte j = maskByte p j) :
    IsMask af p m := by
  intro i hi
  have hmod : i % 8 < 8 := Nat.mod_lt i (by decide)
  rw [bit, h _ (by omega), maskByte]
  split
  · have hones : ∀ r, r < 8 → (0xff : UInt8).toBitVec.getLsbD (7 - r) = true := by decide
    rw [hones _ hmod, eq_comm, decide_eq_true_iff]
    omega
  · split
    · rw [getLsbD_lastByte (by omega) hmod, decide_eq_decide]
      omega
    · have hzeros : ∀ r, r < 8 → (0 : UInt8).toBitVec.getLsbD (7 - r) = false := by decide
      rw [hzeros _ hmod, eq_comm, decide_eq_false_iff_not]
      omega

theorem toNat_clampBits : (clampBits af p).toNat = min p.toNat (8 * width af) := by
  have h32 : p > 32 ↔ 32 < p.toNat := UInt8.lt_iff_toNat_lt
  have h128 : p > 128 ↔ 128 < p.toNat := UInt8.lt_iff_toNat_lt
  have ht32 : (32 : UInt8).toNat = 32 := rfl
  have ht128 : (128 : UInt8).toNat = 128 := rfl
  by_cases haf : af = afInet
  · simp only [clampBits, width, h32, h128, haf, true_and, if_true]
    split_ifs <;> omega
  · simp only [clampBits, width, h32, h128, haf, false_and, if_false]
    split_ifs <;> omega

/-- The bytes of ones. -/
theorem fillOnes_spec (n : ℕ) (m : Kaddr) (h : n + p.toNat / 8 ≤ 16) :
    ∃ m', fillOnes p n m = some (UInt8.ofNat (p.toNat % 8), n + p.toNat / 8, m') ∧
      ∀ j, m'.byte j = if n ≤ j ∧ j < n + p.toNat / 8 then 0xff else m.byte j := by
  induction p, n, m using fillOnes.induct with
  | case1 p n m hge ih =>
      have h8 : 8 ≤ p.toNat := UInt8.le_iff_toNat_le.mp hge
      have hsub : (p - 8).toNat = p.toNat - 8 := UInt8.toNat_sub_of_le _ _ hge
      rcases put_spec m (by omega : n < 16) 0xff with ⟨m₁, hput, hbyte₁⟩
      rcases ih m₁ (by omega) with ⟨m', hfill, hbyte⟩
      refine ⟨m', ?_, fun j => ?_⟩
      · rw [fillOnes, dif_pos hge, hput, Option.bind_eq_bind, Option.bind_some, hfill, hsub,
          (by omega : (p.toNat - 8) % 8 = p.toNat % 8),
          (by omega : n + 1 + (p.toNat - 8) / 8 = n + p.toNat / 8)]
      · rw [hbyte, hbyte₁, hsub]
        split_ifs <;> first | rfl | omega
  | case2 p n m hlt =>
      have h8 : p.toNat < 8 := by
        rw [← Nat.not_le]
        exact fun h => hlt (UInt8.le_iff_toNat_le.mpr h)
      refine ⟨m, ?_, fun j => ?_⟩
      · rw [fillOnes, dif_neg hlt, Nat.mod_eq_of_lt h8, UInt8.ofNat_toNat, Nat.div_eq_of_lt h8,
          Nat.add_zero]
      · rw [if_neg (by omega)]

/-- A loop whose turns each write their byte. -/
theorem putLoop_spec (g : ℕ → Byte) (n left : ℕ) (a : Kaddr) (h : n + left ≤ 16) :
    ∃ a', forLoop intMax (fun i a => put a i (g i)) left n a = some a' ∧
      ∀ j, a'.byte j = if n ≤ j ∧ j < n + left then g j else a.byte j := by
  have hloop := @forLoop_spec _ intMax left n (fun i a => put a i (g i)) a
    (fun k b => ∀ j, b.byte j = if n ≤ j ∧ j < k then g j else a.byte j)
    (h.trans_lt (by decide)) (fun j => by rw [if_neg (by omega)]) ?_
  · exact hloop
  · intro i b hi hlt hb
    rcases put_spec b (by omega : i < 16) (g i) with ⟨b', hput, hbyte⟩
    refine ⟨b', hput, fun j => ?_⟩
    rw [hbyte, hb]
    by_cases hj : j = i
    · rw [if_pos hj, if_pos (by omega), hj]
    · rw [if_neg hj]
      exact if_congr (by omega) rfl rfl

/-- The bytes up to the one with the last bit. -/
theorem putRest_spec (p : UInt8) (out : Kaddr) (h : (p.toNat + 7) / 8 ≤ 16) :
    ∃ m m', fillOnes p 0 out = some (UInt8.ofNat (p.toNat % 8), p.toNat / 8, m) ∧
      putRest (UInt8.ofNat (p.toNat % 8)) (p.toNat / 8) m = some ((p.toNat + 7) / 8, m') ∧
      ∀ j, m'.byte j = if j < (p.toNat + 7) / 8 then maskByte p.toNat j else out.byte j := by
  rcases fillOnes_spec (p := p) 0 out (by omega) with ⟨m, hfill, hbyte⟩
  rw [Nat.zero_add] at hfill hbyte
  have hrest : (UInt8.ofNat (p.toNat % 8)).toNat = p.toNat % 8 := by
    rw [UInt8.toNat_ofNat']
    omega
  have hpos : UInt8.ofNat (p.toNat % 8) > 0 ↔ 0 < p.toNat % 8 := by
    rw [gt_iff_lt, UInt8.lt_iff_toNat_lt, hrest]
    rfl
  by_cases h0 : 0 < p.toNat % 8
  · rcases put_spec m (by omega : p.toNat / 8 < 16) (lastByte (UInt8.ofNat (p.toNat % 8)))
      with ⟨m', hput, hbyte'⟩
    refine ⟨m, m', hfill, ?_, fun j => ?_⟩
    · rw [putRest, if_pos (hpos.mpr h0), hput, (by omega : (p.toNat + 7) / 8 = p.toNat / 8 + 1)]
      rfl
    · rw [hbyte', hbyte, maskByte]
      split_ifs <;> first | rfl | omega
  · refine ⟨m, m, hfill, ?_, fun j => ?_⟩
    · rw [putRest, if_neg (fun h => h0 (hpos.mp h)), (by omega : (p.toNat + 7) / 8 = p.toNat / 8)]
    · rw [hbyte, maskByte]
      split_ifs <;> first | rfl | omega

/-- **The mask of a number of bits.** -/
theorem maskbits2Maskaddr_spec (af p : UInt8) (out : Kaddr) :
    ∃ m, maskbits2Maskaddr af p out = some m ∧ IsMask af p.toNat m ∧
      ∀ j, width af ≤ j → m.byte j = out.byte j := by
  have hq : (clampBits af p).toNat = min p.toNat (8 * width af) := toNat_clampBits
  have hw := width_le af
  rcases putRest_spec (clampBits af p) out (by omega) with ⟨m₁, m₂, hfill, hrest, hbyte₂⟩
  rcases putLoop_spec (fun _ => 0) (((clampBits af p).toNat + 7) / 8)
    (width af - ((clampBits af p).toNat + 7) / 8) m₂ (by omega) with ⟨m, hzeros, hbyte⟩
  refine ⟨m, ?_, ?_, fun j hj => ?_⟩
  · simp only [maskbits2Maskaddr, hfill, hrest, Option.bind_eq_bind, Option.bind_some, hzeros]
  · rw [← isMask_min_iff, ← hq]
    refine isMask_of_byte fun j hj => ?_
    rw [hbyte, hbyte₂, maskByte]
    split_ifs <;> first | rfl | omega
  · rw [hbyte, hbyte₂, if_neg (by omega), if_neg (by omega)]

end Masks

/-! ## From masks to bits -/

section Count
variable {af : UInt8} {a b m : Kaddr} {p : ℕ}

/-- A mask has the bytes that are written for it. -/
theorem IsMask.byte_eq (h : IsMask af p m) {j : ℕ} (hj : j < width af) :
    m.byte j = maskByte p j := by
  have hbytes : ∀ i, i < width af → (⟨fun k => maskByte p k⟩ : Kaddr).byte i = maskByte p i :=
    fun i hi => dif_pos (hi.trans_le (width_le af))
  rw [← hbytes j hj]
  exact h.byte_congr (isMask_of_byte hbytes) j hj

/-- A last byte is empty after as many shifts as it has bits. -/
theorem shiftOut_lastByte {r : ℕ} (hr : r < 8) (bits : UInt8) :
    shiftOut (lastByte (UInt8.ofNat r)) bits = bits + UInt8.ofNat r := by
  have hshift : ∀ r, r < 7 → lastByte (UInt8.ofNat (r + 1)) > 0 ∧
      lastByte (UInt8.ofNat (r + 1)) <<< 1 = lastByte (UInt8.ofNat r) := by decide +kernel
  induction r generalizing bits with
  | zero =>
      rw [shiftOut, dif_neg (by decide)]
      exact (UInt8.add_zero bits).symm
  | succ r ih =>
      rcases hshift r (by omega) with ⟨hpos, hnext⟩
      rw [shiftOut, dif_pos hpos, hnext, ih (by omega), UInt8.add_assoc, UInt8.ofNat_add,
        UInt8.add_comm 1]
      rfl

/-- What is counted from the byte `i` on, once those before it are full. -/
theorem countBits_of_isMask (h : IsMask af p m) {left i : ℕ} (hwidth : i + left = width af)
    (hi : 8 * i ≤ p) (hp : p ≤ 8 * width af) :
    countBits m left i (UInt8.ofNat (8 * i)) = UInt8.ofNat p := by
  have hlast : ∀ r, r < 8 → lastByte (UInt8.ofNat r) ≠ 0xff := by decide +kernel
  induction left generalizing i with
  | zero => rw [countBits, (by omega : 8 * i = p)]
  | succ left ih =>
      rw [countBits, h.byte_eq (by omega)]
      by_cases hfull : 8 * (i + 1) ≤ p
      · have hbits : UInt8.ofNat (8 * i) + 8 = UInt8.ofNat (8 * (i + 1)) := by
          rw [Nat.mul_succ, UInt8.ofNat_add]
          rfl
        simp only [maskByte, if_pos hfull, if_true, hbits]
        exact ih (by omega) hfull
      · have hbyte : maskByte p i = lastByte (UInt8.ofNat (p - 8 * i)) := by
          rw [maskByte, if_neg hfull]
          split
          · rw [(by omega : p % 8 = p - 8 * i)]
          · rw [(by omega : p - 8 * i = 0)]
            rfl
        rw [hbyte, if_neg (hlast _ (by omega)), shiftOut_lastByte (by omega), ← UInt8.ofNat_add,
          Nat.add_sub_cancel' hi]

/-- **The bits of a mask are counted.** -/
theorem maskaddr2Maskbits_of_isMask (h : IsMask af p m) (hp : p ≤ 8 * width af) :
    (maskaddr2Maskbits af m).toNat = p := by
  have hw := width_le af
  have hcount := countBits_of_isMask h (Nat.zero_add (width af)) (Nat.zero_le p) hp
  rw [maskaddr2Maskbits, show (0 : UInt8) = UInt8.ofNat (8 * 0) from rfl, hcount,
    UInt8.toNat_ofNat']
  omega

end Count

/-! ## Broadcast addresses -/

section Broad
variable {af : UInt8} {a m b : Kaddr} {p : ℕ}

theorem broadaddr_spec (af : UInt8) (a m dst : Kaddr) : ∃ b, broadaddr af a m dst = some b ∧
    (∀ i, i < 8 * width af → b.bit i = (a.bit i || !m.bit i)) ∧
      ∀ j, width af ≤ j → b.byte j = dst.byte j := by
  have hw := width_le af
  rcases putLoop_spec (fun j => a.byte j ||| ~~~ m.byte j) 0 (width af) dst (by omega)
    with ⟨b, hloop, hbyte⟩
  refine ⟨b, hloop, fun i hi => ?_, fun j hj => ?_⟩
  · rw [bit, hbyte, if_pos (by omega), bit, bit, UInt8.toBitVec_or, UInt8.toBitVec_not,
      BitVec.getLsbD_or, BitVec.getLsbD_not, decide_eq_true (by omega), Bool.true_and]
  · rw [hbyte, if_neg (by omega)]

end Broad

/-! ## Laws -/

/-- **How the functions go together.** -/
structure PrefixLaws (af : UInt8) : Prop where
  mask : ∀ p out, p.toNat ≤ 8 * width af → ∃ m, maskbits2Maskaddr af p out = some m ∧
    IsMask af p.toNat m ∧ (∀ j, width af ≤ j → m.byte j = out.byte j) ∧ maskaddr2Maskbits af m = p
  back : ∀ m out, ∃ m', maskbits2Maskaddr af (maskaddr2Maskbits af m) out = some m' ∧
    ((∀ j, j < width af → m'.byte j = m.byte j) ↔ ∃ p, p ≤ 8 * width af ∧ IsMask af p m)
  broad : ∀ p out m a dst, p.toNat ≤ 8 * width af → maskbits2Maskaddr af p out = some m →
    ∃ b, broadaddr af a m dst = some b ∧
      (∀ i, i < 8 * width af → b.bit i = if i < p.toNat then a.bit i else true) ∧
      (∀ j, width af ≤ j → b.byte j = dst.byte j) ∧ broadaddr af b m b = some b

/-- **The laws hold**, for every family. -/
theorem prefixLaws (af : UInt8) : PrefixLaws af where
  mask p out hp := by
    rcases maskbits2Maskaddr_spec af p out with ⟨m, hm, hmask, hframe⟩
    exact ⟨m, hm, hmask, hframe, UInt8.toNat_inj.mp (maskaddr2Maskbits_of_isMask hmask hp)⟩
  back m out := by
    rcases maskbits2Maskaddr_spec af (maskaddr2Maskbits af m) out with ⟨m', hm', hmask, -⟩
    refine ⟨m', hm', fun h => ?_, fun ⟨p, hp, hrun⟩ => ?_⟩
    · exact ⟨_, Nat.min_le_right _ _, isMask_min_iff.mpr (hmask.of_byte_eq h)⟩
    · rw [maskaddr2Maskbits_of_isMask hrun hp] at hmask
      exact hmask.byte_congr hrun
  broad p out m a dst hp hm := by
    rcases maskbits2Maskaddr_spec af p out with ⟨m', hm', hmask, -⟩
    obtain rfl : m' = m := Option.some.inj (hm'.symm.trans hm)
    rcases broadaddr_spec af a m' dst with ⟨b, hb, hbit, hframe⟩
    rcases broadaddr_spec af b m' b with ⟨b', hb', hbit', hframe'⟩
    refine ⟨b, hb, fun i hi => ?_, hframe, ?_⟩
    · rw [hbit i hi, hmask i hi]
      by_cases hlt : i < p.toNat <;> simp [hlt]
    · -- the bits that are set are set again
      have hagain : ∀ i, i < 8 * width af → b'.bit i = b.bit i := by
        intro i hi
        rw [hbit' i hi, hbit i hi, Bool.or_assoc, Bool.or_self]
      have hbyte := forall_bit_iff.mp hagain
      rw [hb']
      refine congrArg some (ext_byte fun j _ => ?_)
      by_cases hj : j < width af
      · exact hbyte j hj
      · exact hframe' j (by omega)

end Kylin.Kaddr
