import Mathlib.Data.BitVec
import Mathlib.Data.List.Range
import Mathlib.Tactic.Common

/-!
# Memory with permissions, and copying in it

Memory is a map from addresses to bytes.  Some addresses may be read and some written; any other
access faults.  A program that returns on memory in which just two regions are accessible stays
inside these regions.

A copy of one region to another can be made of moves, each of which loads some bytes at a place
of the one and stores them at the same place of the other.  The regions do not overlap, so a move
may reach back over what is copied already.

## Main definitions

* `Memory`, `load`, `store`, `move` — memory and its checked accesses.
* `loadRegs`, `storeRegs` — several registers loaded, and then stored.
* `Apart`, `CopiedTo` — two regions, and how far the one is copied to the other.

## Main results

* `CopiedTo.move` — what one move does.
* `loadRegs_storeRegs` — several registers are one move.
-/

namespace Lib

variable {w : ℕ} {β : Type}

/-- Bytes at addresses of `w` bits, and what may be done with them. -/
structure Memory (w : ℕ) (β : Type) where
  byte : BitVec w → β
  readable : BitVec w → Bool
  writable : BitVec w → Bool

/-- Bytes with a list of them written from `p` on. -/
def overwrite (byte : BitVec w → β) (p : BitVec w) (bytes : List β) : BitVec w → β := fun a =>
  (bytes[(a - p).toNat]?).getD (byte a)

namespace Memory

/-- Load `n` bytes from `p`. -/
def load (m : Memory w β) (p : BitVec w) (n : ℕ) : Option (List β) :=
  if ∀ i, i < n → m.readable (p + BitVec.ofNat w i) = true then
    some ((List.range n).map fun i => m.byte (p + BitVec.ofNat w i))
  else none

/-- Store bytes from `p` on. -/
def store (m : Memory w β) (p : BitVec w) (bytes : List β) : Option (Memory w β) :=
  if ∀ i, i < bytes.length → m.writable (p + BitVec.ofNat w i) = true then
    some { m with byte := overwrite m.byte p bytes }
  else none

/-- Load `n` bytes and store them. -/
def move (m : Memory w β) (n : ℕ) (dst src : BitVec w) : Option (Memory w β) := do
  let bytes ← m.load src n
  m.store dst bytes

/-- Load `c` registers of `r` bytes. -/
def loadRegs (m : Memory w β) (r : ℕ) : BitVec w → ℕ → Option (List (List β))
  | _, 0 => some []
  | p, c + 1 => do
      let reg ← m.load p r
      let regs ← loadRegs m r (p + BitVec.ofNat w r) c
      some (reg :: regs)

/-- Store registers of `r` bytes. -/
def storeRegs (r : ℕ) : Memory w β → BitVec w → List (List β) → Option (Memory w β)
  | m, _, [] => some m
  | m, p, reg :: regs => do
      let m ← m.store p reg
      storeRegs r m (p + BitVec.ofNat w r) regs

/-! ## Addresses -/

section Address
variable {p : BitVec w} {i j : ℕ}

theorem add_ofNat (p : BitVec w) (i j : ℕ) :
    p + BitVec.ofNat w i + BitVec.ofNat w j = p + BitVec.ofNat w (i + j) := by
  rw [BitVec.add_assoc, ← BitVec.ofNat_add]

theorem toNat_add_sub (hi : i < 2 ^ w) : (p + BitVec.ofNat w i - p).toNat = i := by
  rw [BitVec.add_comm, BitVec.add_sub_cancel, BitVec.toNat_ofNat, Nat.mod_eq_of_lt hi]

theorem add_ofNat_inj (hi : i < 2 ^ w) (hj : j < 2 ^ w)
    (h : p + BitVec.ofNat w i = p + BitVec.ofNat w j) : i = j := by
  rw [← toNat_add_sub (p := p) hi, h, toNat_add_sub hj]

theorem add_toNat_sub (p a : BitVec w) : p + BitVec.ofNat w (a - p).toNat = a := by
  rw [BitVec.ofNat_toNat, BitVec.setWidth_eq, BitVec.add_comm, BitVec.sub_add_cancel]

theorem overwrite_inside (byte : BitVec w → β) {bytes : List β} (hi : i < bytes.length)
    (hlen : bytes.length ≤ 2 ^ w) :
    overwrite byte p bytes (p + BitVec.ofNat w i) = bytes[i] := by
  rw [overwrite, toNat_add_sub (by omega), List.getElem?_eq_getElem hi, Option.getD_some]

theorem overwrite_outside {byte : BitVec w → β} {bytes : List β} {a : BitVec w}
    (h : ∀ i, i < bytes.length → a ≠ p + BitVec.ofNat w i) : overwrite byte p bytes a = byte a := by
  have hnot : bytes.length ≤ (a - p).toNat := by
    by_contra hlt
    exact h _ (Nat.lt_of_not_le hlt) (add_toNat_sub p a).symm
  rw [overwrite, List.getElem?_eq_none hnot, Option.getD_none]

end Address

section Access
variable {m : Memory w β} {p : BitVec w}

theorem load_of {n : ℕ} (h : ∀ i, i < n → m.readable (p + BitVec.ofNat w i) = true) :
    m.load p n = some ((List.range n).map fun i => m.byte (p + BitVec.ofNat w i)) := if_pos h

theorem store_of {bytes : List β}
    (h : ∀ i, i < bytes.length → m.writable (p + BitVec.ofNat w i) = true) :
    m.store p bytes = some { m with byte := overwrite m.byte p bytes } := if_pos h

end Access

/-! ## Two regions -/

/-- Two regions of `n` bytes that have no address in common. -/
structure Apart (m : Memory w β) (dst src : BitVec w) (n : ℕ) : Prop where
  readable : ∀ i, i < n → m.readable (src + BitVec.ofNat w i) = true
  writable : ∀ i, i < n → m.writable (dst + BitVec.ofNat w i) = true
  disjoint : ∀ i j, i < n → j < n → dst + BitVec.ofNat w i ≠ src + BitVec.ofNat w j

/-- Of `n` bytes at least the first `o` are copied, and nothing else has changed. -/
structure CopiedTo (m₀ : Memory w β) (dst src : BitVec w) (n o : ℕ) (m : Memory w β) : Prop where
  readable : m.readable = m₀.readable
  writable : m.writable = m₀.writable
  copied : ∀ i, i < o → m.byte (dst + BitVec.ofNat w i) = m₀.byte (src + BitVec.ofNat w i)
  kept : ∀ a, (∀ i, i < n → a ≠ dst + BitVec.ofNat w i) → m.byte a = m₀.byte a

section Copy
variable {m₀ m : Memory w β} {dst src : BitVec w} {n o : ℕ}

/-- Regions of this kind do not go round the memory. -/
theorem Apart.le (h : Apart m₀ dst src n) : n ≤ 2 ^ w := by
  by_contra hn
  have hsrc : (src - dst).toNat < 2 ^ w := (src - dst).isLt
  refine h.disjoint (src - dst).toNat 0 (by omega) (by omega) ?_
  rw [add_toNat_sub]
  simp

theorem copiedTo_zero : CopiedTo m₀ dst src n 0 m₀ :=
  ⟨rfl, rfl, fun _ hi => absurd hi (Nat.not_lt_zero _), fun _ _ => rfl⟩

theorem CopiedTo.mono (h : CopiedTo m₀ dst src n o m) {o' : ℕ} (ho : o' ≤ o) :
    CopiedTo m₀ dst src n o' m :=
  ⟨h.readable, h.writable, fun i hi => h.copied i (by omega), h.kept⟩

/-- The source is as it was. -/
theorem CopiedTo.load_eq (h : CopiedTo m₀ dst src n o m) (ha : Apart m₀ dst src n) {p k : ℕ}
    (hk : p + k ≤ n) : m.load (src + BitVec.ofNat w p) k =
      some ((List.range k).map fun i => m₀.byte (src + BitVec.ofNat w (p + i))) := by
  have hread : ∀ i, i < k → m.readable (src + BitVec.ofNat w p + BitVec.ofNat w i) = true := by
    intro i hi
    rw [h.readable, add_ofNat]
    exact ha.readable _ (by omega)
  rw [load_of hread, Option.some.injEq]
  apply List.map_congr_left
  intro i hi
  have hik : i < k := List.mem_range.mp hi
  rw [add_ofNat]
  exact h.kept _ fun j hj heq => ha.disjoint j (p + i) hj (by omega) heq.symm

/-- **One move**, of `k` bytes from the place `p`, not behind what is copied. -/
theorem CopiedTo.move (h : CopiedTo m₀ dst src n o m) (ha : Apart m₀ dst src n) {p k : ℕ}
    (hp : p ≤ o) (hk : p + k ≤ n) :
    ∃ m', m.move k (dst + BitVec.ofNat w p) (src + BitVec.ofNat w p) = some m' ∧
      CopiedTo m₀ dst src n (p + k) m' := by
  have hle := ha.le
  let bytes := (List.range k).map fun i => m₀.byte (src + BitVec.ofNat w (p + i))
  have hlen : bytes.length = k := by simp [bytes]
  have hwrite : ∀ i, i < bytes.length →
      m.writable (dst + BitVec.ofNat w p + BitVec.ofNat w i) = true := by
    intro i hi
    rw [h.writable, add_ofNat]
    exact ha.writable _ (by omega)
  refine ⟨{ m with byte := overwrite m.byte (dst + BitVec.ofNat w p) bytes }, ?_,
    h.readable, h.writable, ?_, ?_⟩
  · rw [Memory.move, h.load_eq ha hk, Option.bind_eq_bind, Option.bind_some]
    exact store_of hwrite
  · intro i hi
    by_cases hip : p ≤ i
    · -- stored by this move
      obtain ⟨j, rfl⟩ := Nat.exists_eq_add_of_le hip
      rw [← add_ofNat]
      simp only
      rw [overwrite_inside m.byte (by omega) (by omega)]
      simp [bytes]
    · simp only
      rw [overwrite_outside fun j hj => ?_]
      · exact h.copied i (by omega)
      · rw [add_ofNat]
        intro heq
        have hij := add_ofNat_inj (by omega) (by omega) heq
        omega
  · intro a ha'
    simp only
    rw [overwrite_outside fun j hj => ?_]
    · exact h.kept a ha'
    · rw [add_ofNat]
      exact ha' _ (by omega)

end Copy

/-! ## Several registers -/

section Regs
variable {m : Memory w β} {p : BitVec w}

/-- What holds of the addresses of a region holds of those of its two parts. -/
theorem forall_add (f : BitVec w → Bool) (p : BitVec w) (a b : ℕ) :
    (∀ i, i < a + b → f (p + BitVec.ofNat w i) = true) ↔
      (∀ i, i < a → f (p + BitVec.ofNat w i) = true) ∧
      ∀ i, i < b → f (p + BitVec.ofNat w a + BitVec.ofNat w i) = true := by
  constructor
  · intro h
    refine ⟨fun i hi => h i (by omega), fun i hi => ?_⟩
    rw [add_ofNat]
    exact h _ (by omega)
  · rintro ⟨hx, hy⟩ i hi
    by_cases hia : i < a
    · exact hx i hia
    · have h := hy (i - a) (by omega)
      rwa [add_ofNat, Nat.add_sub_cancel' (by omega)] at h

theorem load_add (m : Memory w β) (p : BitVec w) (a b : ℕ) : m.load p (a + b) = (do
    let x ← m.load p a
    let y ← m.load (p + BitVec.ofNat w a) b
    some (x ++ y)) := by
  have hsplit := forall_add m.readable p a b
  by_cases hx : ∀ i, i < a → m.readable (p + BitVec.ofNat w i) = true
  · rw [load_of hx, Option.bind_eq_bind, Option.bind_some]
    by_cases hy : ∀ i, i < b → m.readable (p + BitVec.ofNat w a + BitVec.ofNat w i) = true
    · rw [load_of hy, load_of (hsplit.mpr ⟨hx, hy⟩), Option.bind_some, List.range_add,
        List.map_append, List.map_map]
      simp only [Function.comp_def, add_ofNat]
    · rw [load, if_neg fun h => hy (hsplit.mp h).2, load, if_neg hy, Option.bind_none]
  · rw [load, if_neg fun h => hx (hsplit.mp h).1, load, if_neg hx, Option.bind_eq_bind,
      Option.bind_none]

theorem overwrite_append (byte : BitVec w → β) (p : BitVec w) {x y : List β}
    (h : x.length + y.length ≤ 2 ^ w) : overwrite byte p (x ++ y) =
      overwrite (overwrite byte p x) (p + BitVec.ofNat w x.length) y := by
  funext a
  obtain ⟨d, hd, rfl⟩ : ∃ d, d < 2 ^ w ∧ p + BitVec.ofNat w d = a :=
    ⟨(a - p).toNat, (a - p).isLt, add_toNat_sub p a⟩
  have hlen : (x ++ y).length = x.length + y.length := List.length_append
  -- a place in front of `y` or behind it
  have hne : (∀ j, j < y.length → d ≠ x.length + j) →
      ∀ j, j < y.length →
        p + BitVec.ofNat w d ≠ p + BitVec.ofNat w x.length + BitVec.ofNat w j := by
    intro h' j hj heq
    rw [add_ofNat] at heq
    exact h' j hj (add_ofNat_inj hd (by omega) heq)
  by_cases hx : d < x.length
  · rw [overwrite_outside (hne fun j hj => by omega), overwrite_inside byte (by omega) (by omega),
      overwrite_inside byte hx (by omega), List.getElem_append_left hx]
  · by_cases hy : d < x.length + y.length
    · obtain ⟨j, rfl⟩ := Nat.exists_eq_add_of_le (Nat.le_of_not_lt hx)
      rw [overwrite_inside byte (by omega) (by omega), ← add_ofNat,
        overwrite_inside _ (by omega) (by omega), List.getElem_append_right (by omega)]
      simp
    · have hnot : ∀ n, n ≤ x.length + y.length →
          ∀ j, j < n → p + BitVec.ofNat w d ≠ p + BitVec.ofNat w j := by
        intro n hn j hj heq
        have hdj := add_ofNat_inj hd (by omega) heq
        omega
      rw [overwrite_outside (hne fun j hj => by omega), overwrite_outside (hnot _ (by omega)),
        overwrite_outside (hnot _ (by omega))]

theorem store_append (m : Memory w β) (p : BitVec w) {x y : List β}
    (h : x.length + y.length ≤ 2 ^ w) : m.store p (x ++ y) = (do
      let m ← m.store p x
      m.store (p + BitVec.ofNat w x.length) y) := by
  have hsplit : (∀ i, i < (x ++ y).length → m.writable (p + BitVec.ofNat w i) = true) ↔
      (∀ i, i < x.length → m.writable (p + BitVec.ofNat w i) = true) ∧
      ∀ i, i < y.length → m.writable (p + BitVec.ofNat w x.length + BitVec.ofNat w i) = true := by
    rw [List.length_append]
    exact forall_add m.writable p x.length y.length
  by_cases hx : ∀ i, i < x.length → m.writable (p + BitVec.ofNat w i) = true
  · rw [store_of hx, Option.bind_eq_bind, Option.bind_some]
    by_cases hy : ∀ i, i < y.length →
        m.writable (p + BitVec.ofNat w x.length + BitVec.ofNat w i) = true
    · rw [store_of (hsplit.mpr ⟨hx, hy⟩), overwrite_append m.byte p h]
      exact (store_of (m := { m with byte := overwrite m.byte p x }) hy).symm
    · rw [store, if_neg fun h => hy (hsplit.mp h).2, store, if_neg hy]
  · rw [store, if_neg fun h => hx (hsplit.mp h).1, store, if_neg hx, Option.bind_eq_bind,
      Option.bind_none]

theorem length_of_load {n : ℕ} {bytes : List β} (h : m.load p n = some bytes) :
    bytes.length = n := by
  rw [load] at h
  split at h
  · cases h
    rw [List.length_map, List.length_range]
  · cases h

/-- Registers loaded one after the other. -/
theorem load_mul (m : Memory w β) (r : ℕ) (p : BitVec w) (c : ℕ) :
    m.load p (r * c) = (m.loadRegs r p c).map List.flatten := by
  induction c generalizing p with
  | zero => simp [load, loadRegs]
  | succ c ih =>
      rw [Nat.mul_succ, Nat.add_comm, load_add, loadRegs, ih]
      cases m.load p r with
      | none => rfl
      | some x => cases m.loadRegs r (p + BitVec.ofNat w r) c <;> rfl

theorem length_of_loadRegs {r c : ℕ} {regs : List (List β)} (h : m.loadRegs r p c = some regs) :
    regs.length = c ∧ ∀ reg ∈ regs, reg.length = r := by
  induction c generalizing p regs with
  | zero =>
      cases h
      exact ⟨rfl, fun _ hreg => absurd hreg List.not_mem_nil⟩
  | succ c ih =>
      rw [loadRegs, Option.bind_eq_bind, Option.bind_eq_some_iff] at h
      rcases h with ⟨reg, hreg, h⟩
      rw [Option.bind_eq_bind, Option.bind_eq_some_iff] at h
      rcases h with ⟨regs', hregs, h⟩
      cases h
      rcases ih hregs with ⟨hlen, hall⟩
      refine ⟨by rw [List.length_cons, hlen], ?_⟩
      intro x hx
      rcases List.mem_cons.mp hx with rfl | hx
      · exact length_of_load hreg
      · exact hall x hx

/-- Registers stored one after the other. -/
theorem storeRegs_eq {r : ℕ} (m : Memory w β) (p : BitVec w) {regs : List (List β)}
    (hall : ∀ reg ∈ regs, reg.length = r) (h : r * regs.length ≤ 2 ^ w) :
    storeRegs r m p regs = m.store p regs.flatten := by
  induction regs generalizing m p with
  | nil =>
      have hsame : overwrite m.byte p [] = m.byte := rfl
      simp [storeRegs, store, hsame]
  | cons reg regs ih =>
      have hreg : reg.length = r := hall reg List.mem_cons_self
      have hregs : ∀ x ∈ regs, x.length = r := fun x hx => hall x (List.mem_cons_of_mem _ hx)
      have hflat : regs.flatten.length = r * regs.length := by
        rw [List.length_flatten, List.map_congr_left hregs]
        simp [Nat.mul_comm]
      rw [List.length_cons, Nat.mul_succ] at h
      rw [storeRegs, List.flatten_cons, store_append m p (by omega), hreg]
      cases m.store p reg with
      | none => rfl
      | some m' => exact ih m' _ hregs (by omega)

/-- **Several registers are one move.** -/
theorem loadRegs_storeRegs (m : Memory w β) {r c : ℕ} (dst src : BitVec w) (h : r * c ≤ 2 ^ w) :
    (do
      let regs ← m.loadRegs r src c
      storeRegs r m dst regs) = m.move (r * c) dst src := by
  rw [move, load_mul]
  cases hregs : m.loadRegs r src c with
  | none => rfl
  | some regs =>
      rcases length_of_loadRegs hregs with ⟨rfl, hall⟩
      exact storeRegs_eq m dst hall h

end Regs

end Memory

end Lib
