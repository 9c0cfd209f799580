import Kylin.Lib.Buffer
import Mathlib.Data.Nat.Digits.Lemmas
import Mathlib.Tactic.Common

/-!
# Numbers as bytes

Fixed-width numbers in memory, in the two byte orders.

## Main definitions

* `Order.decode`, `Order.encode` — from bytes to a number and back.
* `Order.load` — a load of some bytes, as a machine word of their width.

## Main results

* `Order.decode_encode`, `Order.encode_decode` — a number that fits its width is read back, and
  bytes are.
* `Order.decode_inj`, `Order.load_inj` — different bytes are different numbers.
* `Order.sign_big_decode_append` — in big-endian order bytes count before the ones behind them.
-/

namespace Lib

/-- Byte orders. -/
inductive Order
  | little
  | big
  deriving DecidableEq, Repr

/-- The `w` low bytes of a number, the lowest first. -/
def lowBytes : ℕ → ℕ → List UInt8
  | 0, _ => []
  | w + 1, v => UInt8.ofNat v :: lowBytes w (v / 256)

theorem ofDigits_lowBytes (w v : ℕ) :
    Nat.ofDigits 256 ((lowBytes w v).map UInt8.toNat) = v % 256 ^ w := by
  induction w generalizing v with
  | zero => simp [lowBytes, Nat.mod_one]
  | succ w ih =>
      rw [lowBytes, List.map_cons, Nat.ofDigits_cons, ih, Nat.pow_succ', Nat.mod_mul]
      simp

@[simp] theorem length_lowBytes (w v : ℕ) : (lowBytes w v).length = w := by
  induction w generalizing v with
  | zero => rfl
  | succ w ih => rw [lowBytes, List.length_cons, ih]

theorem lowBytes_ofDigits (bs : List UInt8) :
    lowBytes bs.length (Nat.ofDigits 256 (bs.map UInt8.toNat)) = bs := by
  induction bs with
  | nil => rfl
  | cons b bs ih =>
      have hb : b.toNat < 256 := b.toNat_lt
      have hdiv : (b.toNat + 256 * Nat.ofDigits 256 (bs.map UInt8.toNat)) / 256 =
          Nat.ofDigits 256 (bs.map UInt8.toNat) := by omega
      have hlow : UInt8.ofNat (b.toNat + 256 * Nat.ofDigits 256 (bs.map UInt8.toNat)) = b := by
        apply UInt8.toNat_inj.mp
        rw [UInt8.toNat_ofNat']
        omega
      rw [List.length_cons, List.map_cons, Nat.ofDigits_cons, lowBytes, hdiv, ih, hlow]

namespace Order

/-- The number that a list of bytes stands for. -/
def decode : Order → List UInt8 → ℕ
  | little, bs => Nat.ofDigits 256 (bs.map UInt8.toNat)
  | big, bs => Nat.ofDigits 256 (bs.reverse.map UInt8.toNat)

/-- The `w` bytes that a number is stored as. -/
def encode : Order → ℕ → ℕ → List UInt8
  | little, w, v => lowBytes w v
  | big, w, v => (lowBytes w v).reverse

@[simp] theorem length_encode (o : Order) (w v : ℕ) : (o.encode w v).length = w := by
  cases o <;> simp [encode]

theorem decode_encode (o : Order) {w v : ℕ} (h : v < 256 ^ w) : o.decode (o.encode w v) = v := by
  cases o with
  | little => rw [encode, decode, ofDigits_lowBytes, Nat.mod_eq_of_lt h]
  | big => rw [encode, decode, List.reverse_reverse, ofDigits_lowBytes, Nat.mod_eq_of_lt h]

theorem decode_lt (o : Order) (bs : List UInt8) : o.decode bs < 256 ^ bs.length := by
  have hlt : ∀ l : List UInt8, Nat.ofDigits 256 (l.map UInt8.toNat) < 256 ^ l.length := by
    intro l
    have hdigits : ∀ d ∈ l.map UInt8.toNat, d < 256 := by
      intro d hd
      rcases List.mem_map.mp hd with ⟨b, -, rfl⟩
      exact b.toNat_lt
    have h := Nat.ofDigits_lt_base_pow_length (by omega) hdigits
    rwa [List.length_map] at h
  cases o with
  | little => exact hlt bs
  | big =>
      have h := hlt bs.reverse
      rwa [List.length_reverse] at h

/-- Bytes are read back from their number. -/
theorem encode_decode (o : Order) (bs : List UInt8) : o.encode bs.length (o.decode bs) = bs := by
  cases o with
  | little => rw [encode, decode, lowBytes_ofDigits]
  | big =>
      have h := lowBytes_ofDigits bs.reverse
      rw [List.length_reverse] at h
      rw [encode, decode, h, List.reverse_reverse]

theorem decode_inj (o : Order) {bs bs' : List UInt8} (h : bs.length = bs'.length) :
    o.decode bs = o.decode bs' ↔ bs = bs' := by
  constructor
  · intro heq
    rw [← o.encode_decode bs, heq, h, o.encode_decode]
  · rintro rfl
    rfl

theorem big_decode_append (xs ys : List UInt8) :
    big.decode (xs ++ ys) = big.decode xs * 256 ^ ys.length + big.decode ys := by
  simp only [decode, List.reverse_append, List.map_append, Nat.ofDigits_append, List.length_map,
    List.length_reverse]
  ring

/-- **Big-endian order is lexicographic**: bytes in front decide, unless they stand for the same
number. -/
theorem sign_big_decode_append (xs xs' : List UInt8) {ys ys' : List UInt8}
    (h : ys.length = ys'.length) :
    ((big.decode (xs ++ ys) : ℤ) - big.decode (xs' ++ ys')).sign =
      if big.decode xs' < big.decode xs then 1
      else if big.decode xs < big.decode xs' then -1
      else ((big.decode ys : ℤ) - big.decode ys').sign := by
  have hlt : ∀ {x x' y N : ℕ} (y' : ℕ), x < x' → y < N → x * N + y < x' * N + y' := by
    intro x x' y N y' hx hy
    calc x * N + y < x * N + N := by omega
      _ = (x + 1) * N := by ring
      _ ≤ x' * N := Nat.mul_le_mul_right N hx
      _ ≤ x' * N + y' := Nat.le_add_right _ _
  have hy := big.decode_lt ys
  have hy' := big.decode_lt ys'
  rw [← h] at hy'
  rw [big_decode_append, big_decode_append, ← h]
  split
  · next hx =>
      have hsum := hlt (big.decode ys) hx hy'
      exact Int.sign_eq_one_of_pos (by omega)
  split
  · next hx =>
      have hsum := hlt (big.decode ys') hx hy
      exact Int.sign_eq_neg_one_of_neg (by omega)
  · next hx hx' =>
      have heq : big.decode xs = big.decode xs' := by omega
      rw [heq]
      congr 1
      omega

/-! ## Loads -/

/-- The word that the `w` bytes from `off` are. -/
def load (o : Order) (w : ℕ) (g : ℕ → UInt8) (off : ℕ) : BitVec (8 * w) :=
  BitVec.ofNat (8 * w) (o.decode (slice g off w))

section Load
variable (o : Order) (w : ℕ) (g g' : ℕ → UInt8) (off off' : ℕ)

@[simp] theorem toNat_load : (o.load w g off).toNat = o.decode (slice g off w) := by
  have h := o.decode_lt (slice g off w)
  rw [length_slice] at h
  rw [load, BitVec.toNat_ofNat, Nat.pow_mul, Nat.mod_eq_of_lt h]

theorem load_inj : o.load w g off = o.load w g' off' ↔ slice g off w = slice g' off' w := by
  rw [← BitVec.toNat_inj, toNat_load, toNat_load]
  exact o.decode_inj (by rw [length_slice, length_slice])

/-- A load of bytes that are all the same. -/
theorem load_eq_iff_of_const {b : UInt8} {v : BitVec (8 * w)} (h : o.load w (fun _ => b) 0 = v) :
    o.load w g off = v ↔ ∀ i, i < w → g (off + i) = b := by
  rw [← h, load_inj, slice_eq_iff]

/-- The bytes of a word that is in memory. -/
theorem encode_load : o.encode w (o.load w g off).toNat = slice g off w := by
  have h := o.encode_decode (slice g off w)
  rw [length_slice] at h
  rw [toNat_load, h]

/-- A word whose bytes are in memory. -/
theorem load_of_slice_eq {v : BitVec (8 * w)} (h : slice g off w = o.encode w v.toNat) :
    o.load w g off = v := by
  have hv : v.toNat < 256 ^ w := by
    have hlt := v.isLt
    rwa [Nat.pow_mul] at hlt
  apply BitVec.eq_of_toNat_eq
  rw [toNat_load, h, o.decode_encode hv]

end Load

end Order

end Lib
