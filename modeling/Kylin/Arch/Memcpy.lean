import Kylin.Arch.Word
import Kylin.Lib.Memory
import Mathlib.Data.Nat.Bitwise
import Mathlib.Tactic.Ring

/-!
# The vectorised copy

`kylin_memcpy` (`include/arch/x86/kylin_memcpy.h`) copies with moves of up to 64 bytes.  Sizes
that are no multiple of a register are completed by a move that ends where the region ends and so
covers some bytes a second time.  If the destination or the source is not aligned, a copy of
more than 512 bytes starts with a move of 64 bytes, of which only those up to the next multiple of
64 count.

A move loads its bytes and then stores them.  Addresses are words, and pointers may be moved past
the ends of a region as long as no byte there is touched.

## Main definitions

* `mov16` to `mov256`, `mov128blocks`, `mov512blocks` — the moves.
* `memcpyGeneric`, `memcpyAligned`, `memcpy` — the functions; the value returned comes with the
  memory.
* `Cursor`, `At` — pointers and a size that are moved along, and where they stand.

## Main results

* `memcpy_copies` — the regions need to be accessible, no other byte does, and the source has
  then been copied.
-/

namespace Kylin.Kmemcpy

open Lib Lib.Memory

/-- A pointer to bytes. -/
abbrev Addr := BitVec 64

abbrev Mem := Memory 64 Byte

/-- `p + i`. -/
def advance (p : Addr) (i : ℕ) : Addr := p + BitVec.ofNat 64 i

/-- `p - k + n`. -/
def back (p : Addr) (k n : ℕ) : Addr := p - BitVec.ofNat 64 k + BitVec.ofNat 64 n

/-! ## Moves -/

/-- `kylin_mov16`. -/
def mov16 (m : Mem) (dst src : Addr) : Option Mem := m.move 16 dst src

/-- `kylin_mov32`. -/
def mov32 (m : Mem) (dst src : Addr) : Option Mem := m.move 32 dst src

/-- `kylin_mov64`. -/
def mov64 (m : Mem) (dst src : Addr) : Option Mem := m.move 64 dst src

/-- `kylin_mov128`. -/
def mov128 (m : Mem) (dst src : Addr) : Option Mem := do
  let m ← mov64 m (advance dst (0 * 64)) (advance src (0 * 64))
  mov64 m (advance dst (1 * 64)) (advance src (1 * 64))

/-- `kylin_mov256`. -/
def mov256 (m : Mem) (dst src : Addr) : Option Mem := do
  let m ← mov64 m (advance dst (0 * 64)) (advance src (0 * 64))
  let m ← mov64 m (advance dst (1 * 64)) (advance src (1 * 64))
  let m ← mov64 m (advance dst (2 * 64)) (advance src (2 * 64))
  mov64 m (advance dst (3 * 64)) (advance src (3 * 64))

/-- The loop that copies blocks of `c` registers, all of which are loaded before the first is
stored. -/
def movBlocks (c : ℕ) [NeZero c] (m : Mem) (dst src : Addr) (n : ℕ) : Option Mem :=
  if 64 * c ≤ n then do
    let zmm ← m.loadRegs 64 src c
    let m ← storeRegs 64 m dst zmm
    movBlocks c m (advance dst (64 * c)) (advance src (64 * c)) (n - 64 * c)
  else some m
termination_by n
decreasing_by
  have := Nat.pos_of_neZero c
  omega

/-- `kylin_mov128blocks`. -/
def mov128blocks : Mem → Addr → Addr → ℕ → Option Mem := movBlocks 2

/-- `kylin_mov512blocks`. -/
def mov512blocks : Mem → Addr → Addr → ℕ → Option Mem := movBlocks 8

/-! ## Pieces of the functions -/

/-- The variables `dst`, `src` and `n`, and the memory. -/
structure Cursor where
  mem : Mem
  dst : Addr
  src : Addr
  n : ℕ

/-- Go on by `k` bytes. -/
def Cursor.next (c : Cursor) (mem : Mem) (k : ℕ) : Cursor :=
  ⟨mem, advance c.dst k, advance c.src k, c.n - k⟩

/-- `if (n & bit)`: a move of `bit` bytes; `n` itself is left as it is. -/
def movIf (bit n : ℕ) (m : Mem) (dst src : Addr) : Option (Mem × Addr × Addr) :=
  if n &&& bit ≠ 0 then do
    let m ← m.move bit dst src
    some (m, advance dst bit, advance src bit)
  else some (m, dst, src)

/-- Less than 16 bytes. -/
def copySmall (m : Mem) (dst src : Addr) (n : ℕ) : Option Mem := do
  let (m, dst, src) ← movIf 0x01 n m dst src
  let (m, dst, src) ← movIf 0x02 n m dst src
  let (m, dst, src) ← movIf 0x04 n m dst src
  if n &&& 0x08 ≠ 0 then m.move 8 dst src else some m

/-- Two moves, one from the start and one up to the end. -/
def copyEnds (mov : Mem → Addr → Addr → Option Mem) (k : ℕ) (m : Mem) (dst src : Addr) (n : ℕ) :
    Option Mem := do
  let m ← mov m dst src
  mov m (back dst k n) (back src k n)

/-- `if (n >= k)`: a move of `k` bytes. -/
def take (mov : Mem → Addr → Addr → Option Mem) (k : ℕ) (c : Cursor) : Option Cursor :=
  if k ≤ c.n then (mov c.mem c.dst c.src).map fun m => c.next m k else some c

/-- `COPY_BLOCK_128_BACK63`. -/
def copyBlock128Back63 (c : Cursor) : Option Mem :=
  if 64 < c.n then copyEnds mov64 64 c.mem c.dst c.src c.n
  else if 0 < c.n then mov64 c.mem (back c.dst 64 c.n) (back c.src 64 c.n)
  else some c.mem

/-- The move that aligns the destination. -/
def align (c : Cursor) : Option Cursor :=
  let dstofss := (c.dst &&& 0x3f).toNat
  if 0 < dstofss then (mov64 c.mem c.dst c.src).map fun m => c.next m (64 - dstofss) else some c

/-- The blocks of a size `mask + 1`, by the loop `blocks`. -/
def copyBlocks (blocks : Mem → Addr → Addr → ℕ → Option Mem) (mask : ℕ) (c : Cursor) :
    Option Cursor :=
  (blocks c.mem c.dst c.src c.n).map fun m =>
    let n := c.n &&& mask
    let bits := c.n - n
    ⟨m, advance c.dst bits, advance c.src bits, n⟩

/-- Blocks of 128 bytes, if there are any. -/
def copyBlocks128 (c : Cursor) : Option Cursor :=
  if 128 ≤ c.n then copyBlocks mov128blocks 127 c else some c

/-- `for (; n >= 64; n -= 64)`. -/
def movLoop (c : Cursor) : Option Cursor :=
  if 64 ≤ c.n then do
    let m ← mov64 c.mem c.dst c.src
    movLoop (c.next m 64)
  else some c
termination_by c.n
decreasing_by
  simp only [Cursor.next]
  omega

/-! ## The functions -/

/-- `kylin_memcpy_generic`. -/
def memcpyGeneric (m : Mem) (dst src : Addr) (n : ℕ) : Option (Addr × Mem) := do
  let ret := dst
  if n < 16 then
    let m ← copySmall m dst src n
    some (ret, m)
  else if n ≤ 32 then
    let m ← copyEnds mov16 16 m dst src n
    some (ret, m)
  else if n ≤ 64 then
    let m ← copyEnds mov32 32 m dst src n
    some (ret, m)
  else if n ≤ 512 then
    let c ← take mov256 256 ⟨m, dst, src, n⟩
    let c ← take mov128 128 c
    let m ← copyBlock128Back63 c
    some (ret, m)
  else
    let c ← align ⟨m, dst, src, n⟩
    let c ← copyBlocks mov512blocks 511 c
    let c ← copyBlocks128 c
    let m ← copyBlock128Back63 c
    some (ret, m)

/-- `kylin_memcpy_aligned`. -/
def memcpyAligned (m : Mem) (dst src : Addr) (n : ℕ) : Option (Addr × Mem) := do
  let ret := dst
  if n < 16 then
    let m ← copySmall m dst src n
    some (ret, m)
  else if n ≤ 32 then
    let m ← copyEnds mov16 16 m dst src n
    some (ret, m)
  else if n ≤ 64 then
    let m ← copyEnds mov32 32 m dst src n
    some (ret, m)
  else
    let c ← movLoop ⟨m, dst, src, n⟩
    let m ← mov64 c.mem (back c.dst 64 c.n) (back c.src 64 c.n)
    some (ret, m)

/-- `ALIGNMENT_MASK`. -/
def alignmentMask : Addr := 0x3F

/-- `kylin_memcpy`. -/
def memcpy (m : Mem) (dst src : Addr) (n : ℕ) : Option (Addr × Mem) :=
  if (dst ||| src) &&& alignmentMask = 0 then memcpyAligned m dst src n
  else memcpyGeneric m dst src n

/-! ## What the pieces do -/

section Pieces
variable {m₀ m : Mem} {dst src : Addr} {n o : ℕ}

theorem advance_advance (p : Addr) (i j : ℕ) : advance (advance p i) j = advance p (i + j) :=
  add_ofNat p i j

@[simp] theorem advance_zero (p : Addr) : advance p 0 = p := by simp [advance]

theorem back_advance (p : Addr) {o k n : ℕ} (h : k ≤ o + n) :
    back (advance p o) k n = advance p (o + n - k) := by
  have hsplit : BitVec.ofNat 64 o + BitVec.ofNat 64 n =
      BitVec.ofNat 64 (o + n - k) + BitVec.ofNat 64 k := by
    rw [← BitVec.ofNat_add, ← BitVec.ofNat_add, Nat.sub_add_cancel h]
  calc back (advance p o) k n
      = p + (BitVec.ofNat 64 o + BitVec.ofNat 64 n) - BitVec.ofNat 64 k := by
        rw [back, advance]
        ring
    _ = advance p (o + n - k) := by
        rw [hsplit, advance]
        ring

/-- A move, at any place that is not behind what is copied. -/
theorem move_spec (ha : Apart m₀ dst src n) (h : CopiedTo m₀ dst src n o m) {p k : ℕ}
    (hp : p ≤ o) (hk : p + k ≤ n) :
    ∃ m', m.move k (advance dst p) (advance src p) = some m' ∧
      CopiedTo m₀ dst src n (p + k) m' := h.move ha hp hk

/-- What a copying function of `k` bytes does with regions whose first `o` bytes are copied. -/
def Moves (mov : Mem → Addr → Addr → Option Mem) (k : ℕ) : Prop :=
  ∀ ⦃m₀ m : Mem⦄ ⦃dst src : Addr⦄ ⦃n o : ℕ⦄, Apart m₀ dst src n → CopiedTo m₀ dst src n o m →
    ∀ ⦃p : ℕ⦄, p ≤ o → p + k ≤ n →
      ∃ m', mov m (advance dst p) (advance src p) = some m' ∧ CopiedTo m₀ dst src n (p + k) m'

theorem moves_mov16 : Moves mov16 16 := fun _ _ _ _ _ _ ha h _ => move_spec ha h

theorem moves_mov32 : Moves mov32 32 := fun _ _ _ _ _ _ ha h _ => move_spec ha h

theorem moves_mov64 : Moves mov64 64 := fun _ _ _ _ _ _ ha h _ => move_spec ha h

theorem moves_mov128 : Moves mov128 128 := by
  intro m₀ m dst src n o ha h p hp hk
  rcases moves_mov64 ha h hp (by omega) with ⟨m₁, hm₁, h₁⟩
  rcases moves_mov64 ha h₁ (Nat.le_refl _) (by omega) with ⟨m₂, hm₂, h₂⟩
  refine ⟨m₂, ?_, h₂⟩
  rw [mov128, advance_advance, advance_advance, Nat.zero_mul, Nat.add_zero, hm₁,
    Option.bind_eq_bind, Option.bind_some, advance_advance, advance_advance, Nat.one_mul, hm₂]

theorem moves_mov256 : Moves mov256 256 := by
  intro m₀ m dst src n o ha h p hp hk
  rcases moves_mov64 ha h hp (by omega) with ⟨m₁, hm₁, h₁⟩
  rcases moves_mov64 ha h₁ (Nat.le_refl _) (by omega) with ⟨m₂, hm₂, h₂⟩
  rcases moves_mov64 ha h₂ (Nat.le_refl _) (by omega) with ⟨m₃, hm₃, h₃⟩
  rcases moves_mov64 ha h₃ (Nat.le_refl _) (by omega) with ⟨m₄, hm₄, h₄⟩
  refine ⟨m₄, ?_, h₄⟩
  simp only [mov256, advance_advance, Nat.zero_mul, Nat.add_zero, Nat.one_mul, hm₁,
    Option.bind_eq_bind, Option.bind_some, hm₂, Nat.reduceMul]
  simp only [Nat.add_assoc, Nat.reduceAdd] at hm₃ hm₄
  simp only [hm₃, Option.bind_some, hm₄]

/-- Blocks, as many as there are whole ones. -/
theorem movBlocks_spec (ha : Apart m₀ dst src n) {c : ℕ} [NeZero c] (hc : 64 * c ≤ 2 ^ 64)
    {left : ℕ} (hn : o + left ≤ n) (h : CopiedTo m₀ dst src n o m) :
    ∃ m', movBlocks c m (advance dst o) (advance src o) left = some m' ∧
      CopiedTo m₀ dst src n (o + (left - left % (64 * c))) m' := by
  induction left using Nat.strong_induction_on generalizing o m with
  | h left ih =>
      rw [movBlocks]
      by_cases hle : 64 * c ≤ left
      · have hpos : 0 < c := Nat.pos_of_neZero c
        rcases move_spec ha h (Nat.le_refl o) (k := 64 * c) (by omega) with ⟨m₁, hm₁, h₁⟩
        rcases ih (left - 64 * c) (by omega) (by omega) h₁ with ⟨m₂, hm₂, h₂⟩
        refine ⟨m₂, ?_, ?_⟩
        · have hregs := loadRegs_storeRegs m (advance dst o) (advance src o) hc
          rw [hm₁, Option.bind_eq_bind] at hregs
          simp only [if_pos hle, Option.bind_eq_bind]
          rw [← Option.bind_assoc, hregs, Option.bind_some, advance_advance, advance_advance, hm₂]
        · have hmod : left % (64 * c) = (left - 64 * c) % (64 * c) := by
            rw [Nat.mod_eq_sub_mod hle]
          have hmodle : (left - 64 * c) % (64 * c) ≤ left - 64 * c := Nat.mod_le _ _
          have heq : o + (left - left % (64 * c)) =
              o + 64 * c + (left - 64 * c - (left - 64 * c) % (64 * c)) := by omega
          rwa [heq]
      · rw [if_neg hle, Nat.mod_eq_of_lt (by omega), Nat.sub_self]
        exact ⟨m, rfl, h⟩

/-- Where pointers and size stand: behind `o` of the `n` bytes. -/
structure At (m₀ : Mem) (dst src : Addr) (n o : ℕ) (c : Cursor) : Prop where
  le : o ≤ n
  dst_eq : c.dst = advance dst o
  src_eq : c.src = advance src o
  n_eq : c.n = n - o
  copied : CopiedTo m₀ dst src n o c.mem

theorem at_zero : At m₀ dst src n 0 ⟨m₀, dst, src, n⟩ :=
  ⟨Nat.zero_le n, (advance_zero dst).symm, (advance_zero src).symm, rfl, copiedTo_zero⟩

variable {c : Cursor}

/-- Going on by some of the bytes that are copied. -/
theorem At.next (H : At m₀ dst src n o c) {k : ℕ} (hk : o + k ≤ n) {o' : ℕ} (ho : o + k ≤ o')
    (h : CopiedTo m₀ dst src n o' m) : At m₀ dst src n (o + k) (c.next m k) where
  le := hk
  dst_eq := by rw [Cursor.next, H.dst_eq, advance_advance]
  src_eq := by rw [Cursor.next, H.src_eq, advance_advance]
  n_eq := by
    have hn := H.n_eq
    simp only [Cursor.next]
    omega
  copied := h.mono ho

theorem At.mov (H : At m₀ dst src n o c) (ha : Apart m₀ dst src n)
    {mov : Mem → Addr → Addr → Option Mem} {k : ℕ} (hmov : Moves mov k) (hk : k ≤ c.n) :
    ∃ m', mov c.mem c.dst c.src = some m' ∧ CopiedTo m₀ dst src n (o + k) m' := by
  have hn := H.n_eq
  have hle := H.le
  rw [H.dst_eq, H.src_eq]
  exact hmov ha H.copied (Nat.le_refl o) (by omega)

theorem At.take (H : At m₀ dst src n o c) (ha : Apart m₀ dst src n)
    {mov : Mem → Addr → Addr → Option Mem} {k : ℕ} (hmov : Moves mov k) :
    ∃ o' c', take mov k c = some c' ∧ At m₀ dst src n o' c' ∧ (k ≤ c.n → c'.n + k = c.n) ∧
      (¬ k ≤ c.n → c'.n = c.n) := by
  have hn := H.n_eq
  have hle := H.le
  rw [Kmemcpy.take]
  split
  · next hk =>
      rcases H.mov ha hmov hk with ⟨m', hm', h'⟩
      rw [hm']
      exact ⟨_, _, rfl, H.next (by omega) (Nat.le_refl _) h', fun _ => Nat.sub_add_cancel hk,
        fun hk' => absurd hk hk'⟩
  · next hk => exact ⟨o, c, rfl, H, fun hk' => absurd hk' hk, fun _ => rfl⟩

/-- The move up to the end, with enough bytes in front of it. -/
theorem At.back (H : At m₀ dst src n o c) (ha : Apart m₀ dst src n)
    {mov : Mem → Addr → Addr → Option Mem} {k : ℕ} (hmov : Moves mov k) (hk : k ≤ n) {o' : ℕ}
    (h : CopiedTo m₀ dst src n o' m) (ho : n ≤ o' + k) :
    ∃ m', mov m (back c.dst k c.n) (back c.src k c.n) = some m' ∧ CopiedTo m₀ dst src n n m' := by
  have hend : o + c.n = n := by
    rw [H.n_eq]
    exact Nat.add_sub_cancel' H.le
  rcases hmov ha h (p := n - k) (by omega) (by omega) with ⟨m', hm', h'⟩
  rw [H.dst_eq, H.src_eq, back_advance dst (by omega), back_advance src (by omega), hend]
  rw [Nat.sub_add_cancel hk] at h'
  exact ⟨m', hm', h'⟩

theorem At.ends (H : At m₀ dst src n o c) (ha : Apart m₀ dst src n)
    {mov : Mem → Addr → Addr → Option Mem} {k : ℕ} (hmov : Moves mov k) (hk : k ≤ c.n)
    (hn : c.n ≤ 2 * k) :
    ∃ m', copyEnds mov k c.mem c.dst c.src c.n = some m' ∧ CopiedTo m₀ dst src n n m' := by
  have hend := H.n_eq
  have hle := H.le
  rcases H.mov ha hmov hk with ⟨m₁, hm₁, h₁⟩
  rcases H.back ha hmov (by omega) h₁ (by omega) with ⟨m₂, hm₂, h₂⟩
  refine ⟨m₂, ?_, h₂⟩
  rw [copyEnds, hm₁, Option.bind_eq_bind, Option.bind_some, hm₂]

/-- The end of the generic copy, with at most 128 bytes left. -/
theorem At.last (H : At m₀ dst src n o c) (ha : Apart m₀ dst src n) (hleft : c.n ≤ 128)
    (hn : 64 ≤ n) :
    ∃ m', copyBlock128Back63 c = some m' ∧ CopiedTo m₀ dst src n n m' := by
  have hend := H.n_eq
  have hle := H.le
  rw [copyBlock128Back63]
  split
  · exact H.ends ha moves_mov64 (by omega) (by omega)
  · split
    · exact H.back ha moves_mov64 hn H.copied (by omega)
    · refine ⟨c.mem, rfl, ?_⟩
      have ho : o = n := by omega
      exact ho ▸ H.copied

theorem At.align (H : At m₀ dst src n o c) (ha : Apart m₀ dst src n) (hn : 64 ≤ c.n) :
    ∃ o' c', align c = some c' ∧ At m₀ dst src n o' c' ∧ o' ≤ o + 64 := by
  have hend := H.n_eq
  have hle := H.le
  have hofs : (c.dst &&& 0x3f).toNat ≤ 63 := by
    rw [BitVec.toNat_and]
    exact Nat.and_le_right
  simp only [Kmemcpy.align]
  split
  · rcases H.mov ha moves_mov64 hn with ⟨m', hm', h'⟩
    rw [hm']
    exact ⟨_, _, rfl, H.next (by omega) (by omega) h', by omega⟩
  · exact ⟨o, c, rfl, H, by omega⟩

/-- Blocks of `k` registers; what is left is less than one. -/
theorem At.blocks (H : At m₀ dst src n o c) (ha : Apart m₀ dst src n) {k e : ℕ} [NeZero k]
    (hk : 64 * k = 2 ^ e) (he : e ≤ 64) :
    ∃ o' c', copyBlocks (movBlocks k) (2 ^ e - 1) c = some c' ∧ At m₀ dst src n o' c' ∧
      c'.n < 2 ^ e ∧ o ≤ o' := by
  have hend := H.n_eq
  have hle := H.le
  have hsize : 64 * k ≤ 2 ^ 64 := hk ▸ Nat.pow_le_pow_right (by omega) he
  have hrest : o + c.n ≤ n := by omega
  rcases movBlocks_spec ha hsize hrest H.copied with ⟨m', hm', h'⟩
  have hmodle : c.n % 2 ^ e ≤ c.n := Nat.mod_le _ _
  rw [hk] at h'
  rw [copyBlocks, H.dst_eq, H.src_eq, hm', Option.map_some]
  refine ⟨_, _, rfl, ⟨?_, advance_advance _ _ _, advance_advance _ _ _, ?_, ?_⟩, ?_, ?_⟩
  all_goals simp only [Nat.and_two_pow_sub_one_eq_mod]
  · omega
  · omega
  · exact h'
  · exact Nat.mod_lt _ (Nat.two_pow_pos e)
  · omega

theorem At.loop (H : At m₀ dst src n o c) (ha : Apart m₀ dst src n) :
    ∃ o' c', movLoop c = some c' ∧ At m₀ dst src n o' c' ∧ c'.n < 64 := by
  induction hleft : c.n using Nat.strong_induction_on generalizing o c with
  | h left ih =>
      have hend := H.n_eq
      have hle := H.le
      rw [movLoop]
      by_cases hn : 64 ≤ c.n
      · rcases H.mov ha moves_mov64 hn with ⟨m', hm', h'⟩
        rw [if_pos hn, hm', Option.bind_eq_bind, Option.bind_some]
        exact ih (left - 64) (by omega) (H.next (by omega) (Nat.le_refl _) h')
          (by simp [Cursor.next, hleft])
      · rw [if_neg hn]
        exact ⟨o, c, rfl, H, by omega⟩

/-- The bit of a power of two in a size: the bytes it stands for come behind the lower ones. -/
theorem movIf_spec (ha : Apart m₀ dst src n) (k : ℕ) (h : CopiedTo m₀ dst src n (n % 2 ^ k) m) :
    ∃ m', movIf (2 ^ k) n m (advance dst (n % 2 ^ k)) (advance src (n % 2 ^ k)) =
        some (m', advance dst (n % 2 ^ (k + 1)), advance src (n % 2 ^ (k + 1))) ∧
      CopiedTo m₀ dst src n (n % 2 ^ (k + 1)) m' := by
  have hmod : n % 2 ^ (k + 1) = n % 2 ^ k + 2 ^ k * (n.testBit k).toNat := by
    rw [Nat.mod_pow_succ, Nat.toNat_testBit]
  have hle : n % 2 ^ (k + 1) ≤ n := Nat.mod_le _ _
  rw [movIf, Nat.and_two_pow]
  cases hbit : n.testBit k with
  | false =>
      rw [hbit, Bool.toNat_false, Nat.mul_zero, Nat.add_zero] at hmod
      rw [hmod]
      exact ⟨m, by simp, h⟩
  | true =>
      rw [hbit, Bool.toNat_true, Nat.mul_one] at hmod
      rcases move_spec ha h (Nat.le_refl _) (k := 2 ^ k) (by omega) with ⟨m', hm', h'⟩
      refine ⟨m', ?_, ?_⟩
      · simp [hm', advance_advance, hmod]
      · rwa [hmod]

theorem movIf_fst (bit n : ℕ) (m : Mem) (dst src : Addr) :
    (movIf bit n m dst src).map Prod.fst =
      if n &&& bit ≠ 0 then m.move bit dst src else some m := by
  rw [movIf]
  split
  · cases m.move bit dst src <;> rfl
  · rfl

theorem copySmall_spec (ha : Apart m₀ dst src n) (hn : n < 16) :
    ∃ m', copySmall m₀ dst src n = some m' ∧ CopiedTo m₀ dst src n n m' := by
  have h₀ : CopiedTo m₀ dst src n (n % 2 ^ 0) m₀ := copiedTo_zero.mono (by omega)
  rcases movIf_spec ha 0 h₀ with ⟨m₁, hm₁, h₁⟩
  rcases movIf_spec ha 1 h₁ with ⟨m₂, hm₂, h₂⟩
  rcases movIf_spec ha 2 h₂ with ⟨m₃, hm₃, h₃⟩
  rcases movIf_spec ha 3 h₃ with ⟨m₄, hm₄, h₄⟩
  have hfst : (if n &&& 0x08 ≠ 0 then m₃.move 8 (advance dst (n % 2 ^ 3)) (advance src (n % 2 ^ 3))
      else some m₃) = some m₄ := by
    rw [← movIf_fst]
    exact congrArg (Option.map Prod.fst) hm₄
  have hall : n % 2 ^ (3 + 1) = n := Nat.mod_eq_of_lt hn
  rw [Nat.pow_zero, Nat.mod_one, advance_zero, advance_zero] at hm₁
  rw [hall] at h₄
  refine ⟨m₄, ?_, h₄⟩
  simp only [Nat.reducePow, Nat.reduceAdd] at hm₁ hm₂ hm₃ hfst
  simp only [copySmall, hm₁, hm₂, hm₃, Option.bind_eq_bind, Option.bind_some, hfst]

/-- The part that the two functions have in common, up to 64 bytes. -/
theorem short_spec (ha : Apart m₀ dst src n) {long : Option (Addr × Mem)}
    (hlong : 64 < n → ∃ m', long = some (dst, m') ∧ CopiedTo m₀ dst src n n m') :
    ∃ m', (do
      if n < 16 then
        let m ← copySmall m₀ dst src n
        some (dst, m)
      else if n ≤ 32 then
        let m ← copyEnds mov16 16 m₀ dst src n
        some (dst, m)
      else if n ≤ 64 then
        let m ← copyEnds mov32 32 m₀ dst src n
        some (dst, m)
      else long) = some (dst, m') ∧ CopiedTo m₀ dst src n n m' := by
  have H : At m₀ dst src n 0 ⟨m₀, dst, src, n⟩ := at_zero
  split
  · next h16 =>
      rcases copySmall_spec ha h16 with ⟨m', hm', h'⟩
      exact ⟨m', by rw [hm']; rfl, h'⟩
  split
  · next h16 h32 =>
      rcases H.ends ha moves_mov16 (Nat.le_of_not_lt h16) h32 with ⟨m', hm', h'⟩
      exact ⟨m', by rw [hm']; rfl, h'⟩
  split
  · next h32 h64 =>
      rcases H.ends ha moves_mov32 (Nat.le_of_not_le h32) h64 with ⟨m', hm', h'⟩
      exact ⟨m', by rw [hm']; rfl, h'⟩
  · next h64 => exact hlong (Nat.lt_of_not_le h64)

theorem memcpyGeneric_spec (ha : Apart m₀ dst src n) :
    ∃ m', memcpyGeneric m₀ dst src n = some (dst, m') ∧ CopiedTo m₀ dst src n n m' := by
  refine short_spec ha fun h64 => ?_
  have H : At m₀ dst src n 0 ⟨m₀, dst, src, n⟩ := at_zero
  split
  · next h512 =>
      rcases H.take ha moves_mov256 with ⟨o₁, c₁, hc₁, H₁, htaken₁, hleft₁⟩
      rcases H₁.take ha moves_mov128 with ⟨o₂, c₂, hc₂, H₂, htaken₂, hleft₂⟩
      simp only at htaken₁ hleft₁
      rcases H₂.last ha (by omega) (by omega) with ⟨m', hm', h'⟩
      refine ⟨m', ?_, h'⟩
      simp only [hc₁, hc₂, hm', Option.bind_eq_bind, Option.bind_some]
  · next h512 =>
      rcases H.align ha (Nat.le_of_lt h64) with ⟨o₁, c₁, hc₁, H₁, ho₁⟩
      rcases H₁.blocks ha (k := 8) (e := 9) rfl (by omega) with ⟨o₂, c₂, hc₂, H₂, hlt₂, -⟩
      obtain ⟨o₃, c₃, hc₃, H₃, hlt₃⟩ : ∃ o₃ c₃,
          copyBlocks128 c₂ = some c₃ ∧ At m₀ dst src n o₃ c₃ ∧ c₃.n < 128 := by
        rw [copyBlocks128]
        split
        · rcases H₂.blocks ha (k := 2) (e := 7) rfl (by omega) with ⟨o₃, c₃, hc₃, H₃, hlt₃, -⟩
          exact ⟨o₃, c₃, hc₃, H₃, hlt₃⟩
        · next hlt => exact ⟨o₂, c₂, rfl, H₂, Nat.lt_of_not_le hlt⟩
      rcases H₃.last ha (Nat.le_of_lt hlt₃) (by omega) with ⟨m', hm', h'⟩
      refine ⟨m', ?_, h'⟩
      have hc₂' : copyBlocks mov512blocks 511 c₁ = some c₂ := hc₂
      simp only [hc₁, hc₂', hc₃, hm', Option.bind_eq_bind, Option.bind_some]

theorem memcpyAligned_spec (ha : Apart m₀ dst src n) :
    ∃ m', memcpyAligned m₀ dst src n = some (dst, m') ∧ CopiedTo m₀ dst src n n m' := by
  refine short_spec ha fun h64 => ?_
  have H : At m₀ dst src n 0 ⟨m₀, dst, src, n⟩ := at_zero
  rcases H.loop ha with ⟨o₁, c₁, hc₁, H₁, hlt₁⟩
  have hn₁ := H₁.n_eq
  rcases H₁.back ha moves_mov64 (by omega) H₁.copied (by omega) with ⟨m', hm', h'⟩
  refine ⟨m', ?_, h'⟩
  simp only [hc₁, hm', Option.bind_eq_bind, Option.bind_some]

end Pieces

theorem memcpy_spec {m : Mem} {dst src : Addr} {n : ℕ} (ha : Apart m dst src n) :
    ∃ m', memcpy m dst src n = some (dst, m') ∧ CopiedTo m dst src n n m' := by
  rw [memcpy]
  split
  · exact memcpyAligned_spec ha
  · exact memcpyGeneric_spec ha

/-- Memory of which just the source may be read and the destination written. -/
def memoryOf (byte : Addr → Byte) (dst src : Addr) (n : ℕ) : Mem where
  byte := byte
  readable := fun a => decide ((a - src).toNat < n)
  writable := fun a => decide ((a - dst).toNat < n)

/-- **The copy is right.**  For regions that do not overlap, `kylin_memcpy` returns the
destination, to which the source has been copied, reads nothing but the source and writes nothing
but the destination. -/
theorem memcpy_copies (byte : Addr → Byte) {dst src : Addr} {n : ℕ}
    (hdisjoint : ∀ i j, i < n → j < n → advance dst i ≠ advance src j) :
    ∃ m', memcpy (memoryOf byte dst src n) dst src n = some (dst, m') ∧
      (∀ i, i < n → m'.byte (advance dst i) = byte (advance src i)) ∧
      ∀ a, (∀ i, i < n → a ≠ advance dst i) → m'.byte a = byte a := by
  have hreach : ∀ (p : Addr) i, i < n → (p + BitVec.ofNat 64 i - p).toNat < n := by
    intro p i hi
    rw [BitVec.add_comm, BitVec.add_sub_cancel, BitVec.toNat_ofNat]
    exact Nat.lt_of_le_of_lt (Nat.mod_le _ _) hi
  have ha : Apart (memoryOf byte dst src n) dst src n :=
    ⟨fun i hi => decide_eq_true (hreach src i hi), fun i hi => decide_eq_true (hreach dst i hi),
      hdisjoint⟩
  rcases memcpy_spec ha with ⟨m', hm', h'⟩
  exact ⟨m', hm', h'.copied, h'.kept⟩

/-- A hundred bytes, of which the destination is not aligned. -/
theorem memcpy_copies_hundred : ∃ m',
    memcpy (memoryOf (fun a => .ofBitVec (a.setWidth 8)) 8 4096 100) 8 4096 100 = some (8, m') ∧
      (∀ i, i < 100 → m'.byte (advance 8 i) = .ofBitVec ((advance 4096 i).setWidth 8)) ∧
      ∀ a, (∀ i, i < 100 → a ≠ advance 8 i) → m'.byte a = .ofBitVec (a.setWidth 8) := by
  refine memcpy_copies _ fun i j hi hj heq => ?_
  have hnat := congrArg BitVec.toNat heq
  simp [advance, BitVec.toNat_add] at hnat
  omega

end Kylin.Kmemcpy
