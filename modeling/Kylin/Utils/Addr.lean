import Kylin.Arch.Word
import Kylin.Lib.Endian
import Mathlib.Data.Int.Order.Basic

/-!
# Network addresses

`include/utils/kylin_addr.h`.  An address is sixteen bytes in network order, of which an IPv4
address uses the first four; every family other than `AF_INET` is treated as IPv6.  The functions
read and write the bytes as words of 32 or 64 bits, in the byte order of the machine.

`kylin_addr_comp` compares addresses as big-endian numbers.  `kylin_addr_is_zero` adds the two
halves of an IPv6 address, and takes some addresses for zero whose halves cancel.

## Main definitions

* `Kaddr`, `addr32`, `addr64`, `setAddr32` — addresses and the words in them.
* `addrComp`, `addrZero`, `addrCopy`, `addrIsZero`, `addrIsMax` — the functions.
* `number` — the address as a big-endian number.
* `OrdersLike` — how comparison, zero and maximum go together.

## Main results

* `addrComp_eq` — comparison is the order of the numbers.
* `ordersLike_iff` — the addresses for which all three go together.
-/

namespace Kylin

open Lib

/-- `AF_INET`. -/
def afInet : UInt8 := 2

/-- `AF_INET6`. -/
def afInet6 : UInt8 := 10

/-- `struct kylin_addr`, by its bytes. -/
@[ext]
structure Kaddr where
  addr8 : Fin 16 → Byte
  deriving DecidableEq

namespace Kaddr

/-- The bytes by their places. -/
def byte (a : Kaddr) : ℕ → Byte := fun i => if h : i < 16 then a.addr8 ⟨i, h⟩ else 0

/-- `addr32[i]`. -/
def addr32 (o : Order) (a : Kaddr) (i : ℕ) : BitVec 32 := o.load 4 a.byte (4 * i)

/-- `addr64[i]`. -/
def addr64 (o : Order) (a : Kaddr) (i : ℕ) : BitVec 64 := o.load 8 a.byte (8 * i)

/-- `addr32[i] = v`. -/
def setAddr32 (o : Order) (a : Kaddr) (i : ℕ) (v : BitVec 32) : Kaddr :=
  ⟨fun j => overlay a.byte (4 * i) (o.encode 4 v.toNat) j⟩

/-- How many bytes an address of the family has. -/
def width (af : UInt8) : ℕ := if af = afInet then 4 else 16

/-- `ntohl`. -/
def ntohl (o : Order) (v : BitVec 32) : ℕ := Order.big.decode (o.encode 4 v.toNat)

/-- Two comparisons of `addr32[i]`, and what follows if it is equal. -/
def compWord (o : Order) (a b : Kaddr) (i : ℕ) (rest : ℤ) : ℤ :=
  if ntohl o (addr32 o b i) < ntohl o (addr32 o a i) then 1
  else if ntohl o (addr32 o a i) < ntohl o (addr32 o b i) then -1
  else rest

/-- `kylin_addr_comp`, on a machine of byte order `o`; `v4.s_addr` is `addr32[0]`. -/
def addrComp (o : Order) (af : UInt8) (a b : Kaddr) : ℤ :=
  if af = afInet then compWord o a b 0 0
  else compWord o a b 0 (compWord o a b 1 (compWord o a b 2 (compWord o a b 3 0)))

/-- `kylin_addr_zero`. -/
def addrZero (o : Order) (af : UInt8) (addr : Kaddr) : Kaddr :=
  if af = afInet then setAddr32 o addr 0 0
  else
    let addr := setAddr32 o addr 0 0
    let addr := setAddr32 o addr 1 0
    let addr := setAddr32 o addr 2 0
    setAddr32 o addr 3 0

/-- `kylin_addr_copy`. -/
def addrCopy (o : Order) (af : UInt8) (dst src : Kaddr) : Kaddr :=
  if af = afInet then setAddr32 o dst 0 (addr32 o src 0)
  else
    let dst := setAddr32 o dst 0 (addr32 o src 0)
    let dst := setAddr32 o dst 1 (addr32 o src 1)
    let dst := setAddr32 o dst 2 (addr32 o src 2)
    setAddr32 o dst 3 (addr32 o src 3)

/-- `kylin_addr_is_zero`. -/
def addrIsZero (o : Order) (af : UInt8) (addr : Kaddr) : ℤ :=
  if af = afInet then if addr32 o addr 0 = 0 then 1 else 0
  else if addr64 o addr 0 + addr64 o addr 1 = 0 then 1 else 0

/-- `kylin_addr_is_max`. -/
def addrIsMax (o : Order) (af : UInt8) (addr : Kaddr) : ℤ :=
  if af = afInet then if addr32 o addr 0 = 0xffffffff then 1 else 0
  else
    if addr64 o addr 0 = 0xffffffffffffffff ∧ addr64 o addr 1 = 0xffffffffffffffff then 1 else 0

/-- The address as a big-endian number. -/
def number (af : UInt8) (a : Kaddr) : ℕ := Order.big.decode (slice a.byte 0 (width af))

/-! ## Words -/

section Words
variable (o : Order) (a b : Kaddr) {i j : ℕ}

theorem byte_setAddr32 (v : BitVec 32) (hi : i < 4) : (setAddr32 o a i v).byte j =
    if 4 * i ≤ j ∧ j < 4 * i + 4 then (o.encode 4 v.toNat).getD (j - 4 * i) 0 else a.byte j := by
  have hlen : (o.encode 4 v.toNat).length = 4 := o.length_encode 4 _
  rw [byte]
  by_cases hj : j < 16
  · rw [dif_pos hj]
    simp only [setAddr32]
    split
    · next hin =>
        rw [overlay_of_mem a.byte _ hin.1 (by omega), List.getD_eq_getElem _ _ (by omega)]
    · next hout =>
        by_cases hlt : j < 4 * i
        · exact overlay_of_lt a.byte _ hlt
        · exact overlay_of_ge a.byte _ (by omega)
  · rw [dif_neg hj, if_neg (by omega), byte, dif_neg hj]

/-- A word set to zero. -/
theorem byte_setAddr32_zero (hi : i < 4) :
    (setAddr32 o a i 0).byte j = if 4 * i ≤ j ∧ j < 4 * i + 4 then 0 else a.byte j := by
  have hzero : o.encode 4 (0 : BitVec 32).toNat = [0, 0, 0, 0] := by cases o <;> rfl
  rw [byte_setAddr32 o a 0 hi, hzero]
  split
  · rcases (by omega : j - 4 * i = 0 ∨ j - 4 * i = 1 ∨ j - 4 * i = 2 ∨ j - 4 * i = 3 ∨
      4 ≤ j - 4 * i) with h | h | h | h | h
    all_goals simp [h]
  · rfl

/-- A word copied from another address. -/
theorem byte_setAddr32_addr32 (hi : i < 4) : (setAddr32 o a i (addr32 o b i)).byte j =
    if 4 * i ≤ j ∧ j < 4 * i + 4 then b.byte j else a.byte j := by
  have hbytes : o.encode 4 (addr32 o b i).toNat = slice b.byte (4 * i) 4 := o.encode_load 4 _ _
  rw [byte_setAddr32 o a _ hi, hbytes]
  split
  · next h =>
      rw [List.getD_eq_getElem _ _ (by rw [length_slice]; omega), getElem_slice,
        Nat.add_sub_cancel' h.1]
  · rfl

theorem ext_byte {a b : Kaddr} (h : ∀ j, j < 16 → a.byte j = b.byte j) : a = b := by
  ext j
  have hj := h j j.isLt
  simp only [byte, dif_pos j.isLt] at hj
  rw [hj]

theorem ntohl_addr32 : ntohl o (addr32 o a i) = Order.big.decode (slice a.byte (4 * i) 4) := by
  have hbytes : o.encode 4 (addr32 o a i).toNat = slice a.byte (4 * i) 4 := o.encode_load 4 _ _
  rw [ntohl, hbytes]

theorem byte_addrZero (af : UInt8) :
    (addrZero o af a).byte j = if j < width af then 0 else a.byte j := by
  have h : ∀ (c : Kaddr) i, i < 4 → (setAddr32 o c i 0).byte j =
      if 4 * i ≤ j ∧ j < 4 * i + 4 then 0 else c.byte j := fun c _ hi => byte_setAddr32_zero o c hi
  rw [addrZero, width]
  split
  · rw [h a 0 (by omega)]
    simp
  · simp only [h _ 3 (by omega), h _ 2 (by omega), h _ 1 (by omega), h _ 0 (by omega)]
    split_ifs <;> first | rfl | omega

theorem byte_addrCopy (af : UInt8) :
    (addrCopy o af a b).byte j = if j < width af then b.byte j else a.byte j := by
  have h : ∀ (c : Kaddr) i, i < 4 → (setAddr32 o c i (addr32 o b i)).byte j =
      if 4 * i ≤ j ∧ j < 4 * i + 4 then b.byte j else c.byte j :=
    fun c _ hi => byte_setAddr32_addr32 o c b hi
  rw [addrCopy, width]
  split
  · rw [h a 0 (by omega)]
    simp
  · simp only [h _ 3 (by omega), h _ 2 (by omega), h _ 1 (by omega), h _ 0 (by omega)]
    split_ifs <;> first | rfl | omega

end Words

/-! ## Comparison -/

section Comparison
variable {o : Order} {af : UInt8} {a b c : Kaddr}

/-- Addresses with the same number have the same bytes. -/
theorem number_inj : number af a = number af b ↔ ∀ i, i < width af → a.byte i = b.byte i := by
  rw [number, number, Order.decode_inj _ (by rw [length_slice, length_slice]), slice_eq_iff]
  simp only [Nat.zero_add]

/-- A word decides, or the words behind it do. -/
theorem compWord_sign {rest : ℤ} (i n : ℕ)
    (h : rest = ((Order.big.decode (slice a.byte (4 * i + 4) n) : ℤ) -
      Order.big.decode (slice b.byte (4 * i + 4) n)).sign) :
    compWord o a b i rest = ((Order.big.decode (slice a.byte (4 * i) (4 + n)) : ℤ) -
      Order.big.decode (slice b.byte (4 * i) (4 + n))).sign := by
  rw [slice_append, slice_append,
    Order.sign_big_decode_append _ _ (by rw [length_slice, length_slice]),
    compWord, ntohl_addr32, ntohl_addr32, h]

/-- **Comparison is the order of the numbers.** -/
theorem addrComp_eq (o : Order) (af : UInt8) (a b : Kaddr) :
    addrComp o af a b = ((number af a : ℤ) - number af b).sign := by
  have hend : ∀ off, (0 : ℤ) = ((Order.big.decode (slice a.byte off 0) : ℤ) -
      Order.big.decode (slice b.byte off 0)).sign := by
    intro off
    rw [slice_zero, slice_zero, sub_self]
    rfl
  rw [addrComp, number, number, width]
  split
  · exact compWord_sign 0 0 (hend _)
  · exact compWord_sign 0 12 <| compWord_sign 1 8 <| compWord_sign 2 4 <| compWord_sign 3 0 (hend _)

theorem addrComp_eq_zero_iff :
    addrComp o af a b = 0 ↔ ∀ i, i < width af → a.byte i = b.byte i := by
  rw [addrComp_eq, Int.sign_eq_zero_iff_zero, sub_eq_zero, Nat.cast_inj, number_inj]

theorem addrComp_nonneg_iff : 0 ≤ addrComp o af a b ↔ number af b ≤ number af a := by
  rw [addrComp_eq, Int.sign_nonneg_iff]
  omega

theorem addrComp_swap : addrComp o af b a = -addrComp o af a b := by
  rw [addrComp_eq, addrComp_eq, ← Int.sign_neg, neg_sub]

theorem addrComp_trans (hab : 0 ≤ addrComp o af a b) (hbc : 0 ≤ addrComp o af b c) :
    0 ≤ addrComp o af a c := by
  rw [addrComp_nonneg_iff] at *
  exact hbc.trans hab

end Comparison

/-! ## Zero and the maximum -/

section Extremes
variable {o : Order} {af : UInt8} {a : Kaddr}

theorem addrComp_addrZero_iff (z : Kaddr) :
    addrComp o af a (addrZero o af z) = 0 ↔ ∀ i, i < width af → a.byte i = 0 := by
  rw [addrComp_eq_zero_iff]
  refine forall_congr' fun i => imp_congr_right fun hi => ?_
  rw [byte_addrZero, if_pos hi]

theorem addr32_eq_iff {v : BitVec 32} {x : Byte} (h : o.load 4 (fun _ => x) 0 = v) (i : ℕ) :
    addr32 o a i = v ↔ ∀ j, j < 4 → a.byte (4 * i + j) = x := o.load_eq_iff_of_const 4 _ _ h

theorem addr64_eq_iff {v : BitVec 64} {x : Byte} (h : o.load 8 (fun _ => x) 0 = v) (i : ℕ) :
    addr64 o a i = v ↔ ∀ j, j < 8 → a.byte (8 * i + j) = x := o.load_eq_iff_of_const 8 _ _ h

/-- Both halves of sixteen bytes. -/
theorem forall_halves (f : ℕ → Prop) :
    ((∀ j, j < 8 → f (8 * 0 + j)) ∧ ∀ j, j < 8 → f (8 * 1 + j)) ↔ ∀ i, i < 16 → f i := by
  constructor
  · rintro ⟨hlow, hhigh⟩ i hi
    by_cases h8 : i < 8
    · simpa using hlow i h8
    · have h := hhigh (i - 8) (by omega)
      rwa [Nat.mul_one, Nat.add_sub_cancel' (by omega)] at h
  · exact fun h => ⟨fun j hj => h _ (by omega), fun j hj => h _ (by omega)⟩

/-- The sum of the halves is zero if both are, or if they cancel. -/
theorem add_eq_zero_iff_cancel (x y : BitVec 64) :
    x + y = 0 ↔ x = 0 ∧ y = 0 ∨ x.toNat + y.toNat = 2 ^ 64 := by
  rw [← BitVec.toNat_inj, ← BitVec.toNat_inj, ← BitVec.toNat_inj, BitVec.toNat_add]
  have hx := x.isLt
  have hy := y.isLt
  simp only [BitVec.ofNat_eq_ofNat, BitVec.toNat_ofNat, Nat.zero_mod]
  omega

theorem flag_eq_one_iff {p : Prop} [Decidable p] : (if p then (1 : ℤ) else 0) = 1 ↔ p := by simp

theorem addrIsZero_eq_one_iff : addrIsZero o af a = 1 ↔
    (∀ i, i < width af → a.byte i = 0) ∨
      af ≠ afInet ∧ (addr64 o a 0).toNat + (addr64 o a 1).toNat = 2 ^ 64 := by
  have h32 : o.load 4 (fun _ => (0 : UInt8)) 0 = 0 := by cases o <;> decide
  have h64 : o.load 8 (fun _ => (0 : UInt8)) 0 = 0 := by cases o <;> decide
  rw [addrIsZero, width]
  split
  · next h =>
      rw [flag_eq_one_iff, addr32_eq_iff h32]
      simp [h]
  · next h =>
      rw [flag_eq_one_iff, ← forall_halves fun i => a.byte i = 0, ← addr64_eq_iff h64,
        ← addr64_eq_iff h64, add_eq_zero_iff_cancel]
      simp only [ne_eq, h, not_false_eq_true, true_and]

theorem addrIsMax_eq_one_iff : addrIsMax o af a = 1 ↔ ∀ i, i < width af → a.byte i = 0xff := by
  have h32 : o.load 4 (fun _ => (0xff : UInt8)) 0 = 0xffffffff := by cases o <;> decide
  have h64 : o.load 8 (fun _ => (0xff : UInt8)) 0 = 0xffffffffffffffff := by cases o <;> decide
  rw [addrIsMax, width]
  split
  · rw [flag_eq_one_iff, addr32_eq_iff h32]
    simp
  · rw [flag_eq_one_iff, ← forall_halves fun i => a.byte i = 0xff, ← addr64_eq_iff h64,
      ← addr64_eq_iff h64]

/-- The address whose bytes are all ones. -/
def top : Kaddr := ⟨fun _ => 0xff⟩

theorem number_le_top (af : UInt8) (b : Kaddr) : number af b ≤ number af top := by
  have hlt := Order.big.decode_lt (slice b.byte 0 (width af))
  have htop : number af top + 1 = 256 ^ width af := by
    rw [number, width]
    split <;> decide
  rw [length_slice] at hlt
  rw [number]
  omega

/-- The maximum is the address of ones. -/
theorem forall_nonneg_iff :
    (∀ b, 0 ≤ addrComp o af a b) ↔ ∀ i, i < width af → a.byte i = 0xff := by
  have htop : ∀ i, i < width af → top.byte i = 0xff := by
    intro i hi
    have hwidth : width af ≤ 16 := by
      rw [width]
      split <;> decide
    exact dif_pos (by omega)
  constructor
  · intro h i hi
    have hle := addrComp_nonneg_iff.mp (h top)
    rw [number_inj.mp (Nat.le_antisymm (number_le_top af a) hle) i hi, htop i hi]
  · intro h b
    have hnumber : number af a = number af top :=
      number_inj.mpr fun i hi => by rw [h i hi, htop i hi]
    rw [addrComp_nonneg_iff, hnumber]
    exact number_le_top af b

end Extremes

/-- **How the predicates and the order go together** at an address. -/
structure OrdersLike (o : Order) (af : UInt8) (a : Kaddr) : Prop where
  zero : ∀ z, addrIsZero o af a = 1 ↔ addrComp o af a (addrZero o af z) = 0
  max : addrIsMax o af a = 1 ↔ ∀ b, 0 ≤ addrComp o af a b
  order : ∀ b, addrComp o af a b = ((number af a : ℤ) - number af b).sign
  eq : ∀ b, addrComp o af a b = 0 ↔ ∀ i, i < width af → a.byte i = b.byte i
  swap : ∀ b, addrComp o af b a = -addrComp o af a b
  trans : ∀ b c, 0 ≤ addrComp o af a b → 0 ≤ addrComp o af b c → 0 ≤ addrComp o af a c

/-- **The predicates agree with the order** at exactly the addresses whose halves do not cancel. -/
theorem ordersLike_iff (o : Order) (af : UInt8) (a : Kaddr) :
    OrdersLike o af a ↔
      af = afInet ∨ (addr64 o a 0).toNat + (addr64 o a 1).toNat ≠ 2 ^ 64 := by
  constructor
  · intro h
    by_contra hnot
    rw [not_or, not_not] at hnot
    have hzero := ((h.zero a).mp (addrIsZero_eq_one_iff.mpr (.inr hnot)))
    rw [addrComp_addrZero_iff, width, if_neg hnot.1] at hzero
    -- halves of zeros do not cancel
    have h64 : o.load 8 (fun _ => (0 : UInt8)) 0 = 0 := by cases o <;> decide
    have hhalves := (forall_halves fun i => a.byte i = 0).mpr hzero
    have hsum := hnot.2
    rw [(addr64_eq_iff h64 0).mpr hhalves.1, (addr64_eq_iff h64 1).mpr hhalves.2] at hsum
    exact absurd hsum (by decide)
  · intro h
    refine ⟨fun z => ?_, ?_, addrComp_eq o af a, fun _ => addrComp_eq_zero_iff,
      fun _ => addrComp_swap, fun _ _ => addrComp_trans⟩
    · rw [addrIsZero_eq_one_iff, addrComp_addrZero_iff, or_iff_left]
      rintro ⟨hne, hsum⟩
      exact h.elim hne fun hne' => hne' hsum
    · rw [addrIsMax_eq_one_iff, forall_nonneg_iff]

/-- The address `100:0:0:0:ffff:ffff:ffff:ffff`. -/
def cancelling : Kaddr := ⟨fun i => if i = 0 then 1 else if i < 8 then 0 else 0xff⟩

/-- It is taken for zero, but does not compare equal to it. -/
theorem not_ordersLike_cancelling : addrIsZero .little afInet6 cancelling = 1 ∧
    addrComp .little afInet6 cancelling (addrZero .little afInet6 top) = 1 ∧
      ¬ OrdersLike .little afInet6 cancelling := by
  have hzero : addrIsZero .little afInet6 cancelling = 1 := by decide
  have hcomp : addrComp .little afInet6 cancelling (addrZero .little afInet6 top) = 1 := by decide
  refine ⟨hzero, hcomp, fun h => ?_⟩
  have heq := (h.zero top).mp hzero
  rw [hcomp] at heq
  exact absurd heq (by decide)

end Kaddr

end Kylin
