import Kylin.Lib.Memory
import Mathlib.Logic.Function.Basic

/-!
# Memory as a string of bits

The bits of a region are numbered from the low bit of its first byte on.  An instruction that
changes one of them loads some bytes, changes a bit of one of these, and stores them all.

## Main definitions

* `Memory.Spans` — the region that is accessible.
* `Memory.update` — load some bytes and store them with one of them changed.
* `Memory.bit` — a bit of the region.
* `OnBit` — a function that changes one bit of a byte.
* `Memory.IsBits` — a region that holds given bits.
* `Memory.filled` — a region of equal bytes.

## Main results

* `Memory.IsBits.update` — one change of one bit.
* `Memory.Spans.update_eq_none` — a change outside the region faults.
-/

namespace Lib

variable {w : ℕ} {β : Type}

/-- `f` changes bit `j` of a byte as `g` says, and no other. -/
def OnBit (f : BitVec 8 → BitVec 8) (j : ℕ) (g : Bool → Bool) : Prop :=
  ∀ b i, i < 8 → (f b).getLsbD i = if i = j then g (b.getLsbD j) else b.getLsbD i

namespace Memory

/-- Just the `n` bytes from `p` on are accessible. -/
def Spans (m : Memory w β) (p : BitVec w) (n : ℕ) : Prop :=
  ∀ a, (m.readable a = true ↔ (a - p).toNat < n) ∧ (m.writable a = true ↔ (a - p).toNat < n)

/-- Load `n` bytes from `p` on, and store them with byte `k` of them changed; that byte as it
was. -/
def update (m : Memory w β) (n : ℕ) (p : BitVec w) (k : ℕ) (f : β → β) :
    Option (β × Memory w β) := do
  let bytes ← m.load p n
  let b ← bytes[k]?
  let m ← m.store p (bytes.set k (f b))
  some (b, m)

/-- A memory with one byte changed. -/
def put (m : Memory w β) (a : BitVec w) (b : β) : Memory w β :=
  { m with byte := Function.update m.byte a b }

/-- Bit `i` of the region from `p` on. -/
def bit (m : Memory w (BitVec 8)) (p : BitVec w) (i : ℕ) : Bool :=
  (m.byte (p + BitVec.ofNat w (i / 8))).getLsbD (i % 8)

/-- A region whose bytes are all the same. -/
def filled (p : BitVec w) (n : ℕ) (b : β) : Memory w β where
  byte _ := b
  readable a := (a - p).toNat < n
  writable a := (a - p).toNat < n

theorem spans_filled (p : BitVec w) (n : ℕ) (b : β) : (filled p n b).Spans p n :=
  fun _ => ⟨decide_eq_true_iff, decide_eq_true_iff⟩

/-! ## One byte -/

section Update
variable {m : Memory w β} {p : BitVec w} {N n o k : ℕ}

/-- Writing back what was loaded, but for one byte, changes that byte. -/
theorem overwrite_set (byte : BitVec w → β) (p : BitVec w) (b : β) (hn : n ≤ 2 ^ w) (hk : k < n) :
    overwrite byte p (((List.range n).map fun i => byte (p + BitVec.ofNat w i)).set k b) =
      Function.update byte (p + BitVec.ofNat w k) b := by
  funext a
  obtain ⟨d, hd, rfl⟩ : ∃ d, d < 2 ^ w ∧ p + BitVec.ofNat w d = a :=
    ⟨(a - p).toNat, (a - p).isLt, add_toNat_sub p a⟩
  have hsame : p + BitVec.ofNat w d = p + BitVec.ofNat w k ↔ d = k :=
    ⟨add_ofNat_inj hd (by omega), fun h => by rw [h]⟩
  rw [overwrite, toNat_add_sub hd, List.getElem?_set, Function.update_apply]
  by_cases hdk : k = d
  · rw [if_pos hdk, if_pos (by simpa using hk), if_pos (hsame.mpr hdk.symm)]
    rfl
  · rw [if_neg hdk, if_neg fun h => hdk (hsame.mp h).symm, List.getElem?_map]
    by_cases hdn : d < n
    · rw [List.getElem?_range hdn]
      rfl
    · rw [List.getElem?_eq_none (by simpa using hdn)]
      rfl

/-- **One change**, inside the region. -/
theorem Spans.update_eq (h : m.Spans p N) (hN : N ≤ 2 ^ w) (hk : k < n) (ho : o + n ≤ N)
    (f : β → β) : m.update n (p + BitVec.ofNat w o) k f =
      some (m.byte (p + BitVec.ofNat w (o + k)),
        m.put (p + BitVec.ofNat w (o + k)) (f (m.byte (p + BitVec.ofNat w (o + k))))) := by
  have hin : ∀ i, i < n → (p + BitVec.ofNat w o + BitVec.ofNat w i - p).toNat < N := by
    intro i hi
    rw [add_ofNat, toNat_add_sub (by omega)]
    omega
  have hload := load_of (m := m) fun i hi => (h _).1.mpr (hin i hi)
  have hget : ((List.range n).map fun i =>
      m.byte (p + BitVec.ofNat w o + BitVec.ofNat w i))[k]? =
        some (m.byte (p + BitVec.ofNat w (o + k))) := by
    rw [List.getElem?_map, List.getElem?_range hk, Option.map_some, add_ofNat]
  have hset := overwrite_set m.byte (p + BitVec.ofNat w o)
    (f (m.byte (p + BitVec.ofNat w (o + k)))) (by omega : n ≤ 2 ^ w) hk
  rw [add_ofNat] at hset
  simp only [update, hload, Option.bind_eq_bind, Option.bind_some, hget]
  rw [store_of fun i hi => (h _).2.mpr (hin i (by simpa using hi)), hset]
  rfl

/-- **Outside the region** a change faults. -/
theorem Spans.update_eq_none (h : m.Spans p N) {q : BitVec w} (hn : 0 < n)
    (hout : N ≤ (q - p).toNat) (k : ℕ) (f : β → β) : m.update n q k f = none := by
  have hload : m.load q n = none := by
    refine if_neg fun hall => ?_
    have hread := (h _).1.mp (hall 0 hn)
    rw [show BitVec.ofNat w 0 = 0#w from rfl, BitVec.add_zero] at hread
    omega
  rw [update, hload]
  rfl

end Update

/-! ## One bit -/

/-- Memory in which just the `n` bytes from `p` on are accessible and hold these bits, and which
is as `m₀` elsewhere. -/
structure IsBits (m m₀ : Memory w (BitVec 8)) (p : BitVec w) (n : ℕ) (bits : ℕ → Bool) :
    Prop where
  spans : m.Spans p n
  bit_eq : ∀ i, i < 8 * n → m.bit p i = bits i
  frame : ∀ a, n ≤ (a - p).toNat → m.byte a = m₀.byte a

section Bits
variable {m₀ m : Memory w (BitVec 8)} {p : BitVec w} {N n o j k : ℕ} {bits : ℕ → Bool}
  {f : BitVec 8 → BitVec 8} {g : Bool → Bool}

theorem isBits_self (h : m.Spans p N) : m.IsBits m p N (m.bit p) :=
  ⟨h, fun _ _ => rfl, fun _ _ => rfl⟩

/-- A bit of memory in which one byte has changed. -/
theorem bit_put (m : Memory w (BitVec 8)) {b : BitVec 8} {i : ℕ} (hi : i / 8 < 2 ^ w)
    (hk : k < 2 ^ w) :
    (m.put (p + BitVec.ofNat w k) b).bit p i =
      if i / 8 = k then b.getLsbD (i % 8) else m.bit p i := by
  rw [bit, put]
  dsimp only
  split
  · next h => rw [h, Function.update_self]
  · next h => rw [Function.update_of_ne fun heq => h (add_ofNat_inj hi hk heq), bit]

/-- **One change of one bit.** -/
theorem IsBits.update (H : m.IsBits m₀ p N bits) (hN : N ≤ 2 ^ w) (hk : k < n) (ho : o + n ≤ N)
    (hj : j < 8) (hf : OnBit f j g) :
    ∃ b m', m.update n (p + BitVec.ofNat w o) k f = some (b, m') ∧
      b.getLsbD j = bits (8 * (o + k) + j) ∧
      m'.IsBits m₀ p N (Function.update bits (8 * (o + k) + j) (g (bits (8 * (o + k) + j)))) := by
  have hdiv : (8 * (o + k) + j) / 8 = o + k := by omega
  have hmod : (8 * (o + k) + j) % 8 = j := by omega
  have hold := H.bit_eq (8 * (o + k) + j) (by omega)
  rw [bit, hdiv, hmod] at hold
  refine ⟨_, _, H.spans.update_eq hN hk ho f, hold, H.spans, ?_, ?_⟩
  · intro i hi
    have hlow : i / 8 < 2 ^ w := by omega
    have hplace : o + k < 2 ^ w := by omega
    rw [bit_put m hlow hplace, Function.update_apply]
    by_cases hbyte : i / 8 = o + k
    · rw [if_pos hbyte, hf _ _ (Nat.mod_lt i (by omega)), hold]
      by_cases hbit : i % 8 = j
      · rw [if_pos hbit, if_pos (by omega)]
      · rw [if_neg hbit, if_neg (by omega), ← H.bit_eq i hi, bit, hbyte]
    · rw [if_neg hbyte, if_neg (by omega)]
      exact H.bit_eq i hi
  · intro a ha
    rw [← H.frame a ha]
    refine Function.update_of_ne (fun heq => ?_) _ _
    rw [heq, toNat_add_sub (by omega)] at ha
    omega

/-- The bits of a region and the bytes around it are all of a memory. -/
theorem IsBits.unique {m' : Memory w (BitVec 8)} (H : m.IsBits m₀ p N bits)
    (H' : m'.IsBits m₀ p N bits) : m = m' := by
  have hread : m.readable = m'.readable := by
    funext a
    rw [Bool.eq_iff_iff, (H.spans a).1, (H'.spans a).1]
  have hwrite : m.writable = m'.writable := by
    funext a
    rw [Bool.eq_iff_iff, (H.spans a).2, (H'.spans a).2]
  have hbyte : m.byte = m'.byte := by
    funext a
    by_cases ha : (a - p).toNat < N
    · rw [← add_toNat_sub p a]
      apply BitVec.eq_of_getLsbD_eq
      intro j hj
      have hdiv : (8 * (a - p).toNat + j) / 8 = (a - p).toNat := by omega
      have hmod : (8 * (a - p).toNat + j) % 8 = j := by omega
      have hbit := (H.bit_eq (8 * (a - p).toNat + j) (by omega)).trans
        (H'.bit_eq (8 * (a - p).toNat + j) (by omega)).symm
      rwa [bit, bit, hdiv, hmod] at hbit
    · rw [H.frame a (Nat.le_of_not_lt ha), H'.frame a (Nat.le_of_not_lt ha)]
  cases m
  cases m'
  simp only at hread hwrite hbyte
  rw [hread, hwrite, hbyte]

end Bits

end Memory

end Lib
