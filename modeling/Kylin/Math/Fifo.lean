import Kylin.Lib.Run
import Kylin.Lib.Buffer
import Kylin.Arch.Word

/-!
# The byte queue

`kfifo_t` (`lib/core/math/kylin_fifo.c`) keeps a stream of bytes in a block whose
size is a power of two.  Bytes are written at `in` and read at `out`; the two are
equal both when the queue is empty and when it is full, and `is_full` tells the
cases apart.

The flag is set only by a write that passes the end of the block, so a write that
fills the queue without doing so leaves a full queue marked empty, and
`kylin_fifo_put` compares a wrapped sum with `out`, so some oversized lengths are
taken for ones that fit.  `Behaves` excludes these calls, and along runs of the
other calls the queue is a bounded queue of bytes, `run_isByteQueue`.

## Main definitions

* `Kfifo` and `create`, `put`, `get`, `peek`.
* `Kfifo.Inside` — positions in the block; the copies of a call, read off them.
* `Kfifo.Holds` — the bytes a queue stands for.
* `byteQueue` — the reference machine; `IsByteQueue` compares a run with it.
* `Behaves` — the side condition on one call.
-/

namespace Kylin

open Lib

/-- `kfifo_opts_t`. -/
structure KfifoOpts where
  cap : ℕ

/-- `kfifo_t`.  `inPos` and `outPos` are the fields `in` and `out`. -/
structure Kfifo where
  opts : KfifoOpts
  mask : ℕ
  inPos : ℕ
  outPos : ℕ
  isFull : Bool
  val : Buffer Byte

namespace Kfifo

/-- `kylin_fifo_create`; `none` is `NULL`. -/
def create (opts : KfifoOpts) : Option Kfifo :=
  if isPowOfTwo opts.cap then
    some
      { opts := opts
        mask := sizeSub opts.cap 1
        inPos := 0
        outPos := 0
        isFull := false
        val := ⟨opts.cap, fun _ => 0⟩ }
  else none

/-- The `n` bytes at offset `off` of the caller's buffer. -/
def source (buf : List Byte) (off n : ℕ) : Option (List Byte) :=
  if off + n ≤ buf.length then some ((buf.drop off).take n) else none

/-- The test at the head of `kylin_fifo_put`. -/
def refused (fifo : Kfifo) (len : ℕ) : Prop :=
  len = 0 ∨ fifo.isFull = true ∨
    (fifo.inPos < fifo.outPos ∧ fifo.outPos < sizeAdd fifo.inPos len) ∨
    (fifo.outPos ≤ fifo.inPos ∧ fifo.mask < sizeAdd fifo.inPos len ∧
      fifo.outPos < sizeAdd fifo.inPos len &&& fifo.mask)

instance (fifo : Kfifo) (len : ℕ) : Decidable (fifo.refused len) :=
  inferInstanceAs (Decidable (_ ∨ _ ∨ _))

/-- `kylin_fifo_put` of the bytes `buf`, with `len` their number. -/
def put (fifo : Kfifo) (buf : List Byte) : Option (ℤ × Kfifo) :=
  let len := buf.length
  if fifo.refused len then some (-1, fifo)
  else if fifo.opts.cap < sizeAdd fifo.inPos len then do
    let rest := sizeSub fifo.opts.cap fifo.inPos
    let val ← fifo.val.write fifo.inPos (← source buf 0 rest)
    let val ← val.write 0 (← source buf rest (sizeSub len rest))
    let inPos := sizeSub len rest
    some (toInt len, { fifo with
      val := val
      inPos := inPos
      isFull := if inPos = fifo.outPos then true else fifo.isFull })
  else do
    let val ← fifo.val.write fifo.inPos (← source buf 0 len)
    some (toInt len, { fifo with
      val := val
      inPos := sizeAdd fifo.inPos len &&& fifo.mask })

/-- The test at the head of `kylin_fifo_get` and `kylin_fifo_peek`. -/
def unavailable (fifo : Kfifo) (len : ℕ) : Prop :=
  len = 0 ∨ fifo.opts.cap < len ∨
    (fifo.isFull = false ∧
      (if fifo.outPos ≤ fifo.inPos then sizeSub fifo.inPos fifo.outPos
        else sizeSub fifo.opts.cap (sizeSub fifo.outPos fifo.inPos)) < len)

instance (fifo : Kfifo) (len : ℕ) : Decidable (fifo.unavailable len) :=
  inferInstanceAs (Decidable (_ ∨ _ ∨ _))

/-- The bytes that `kylin_fifo_get` and `kylin_fifo_peek` copy out. -/
def copyOut (fifo : Kfifo) (len : ℕ) : Option (List Byte) :=
  if fifo.opts.cap < sizeAdd fifo.outPos len then do
    let rest := sizeSub fifo.opts.cap fifo.outPos
    let first ← fifo.val.read fifo.outPos rest
    let second ← fifo.val.read 0 (sizeSub len rest)
    some (first ++ second)
  else fifo.val.read fifo.outPos len

/-- `kylin_fifo_get`: the result, the bytes copied to the caller and the queue. -/
def get (fifo : Kfifo) (len : ℕ) : Option (ℤ × List Byte × Kfifo) :=
  if fifo.unavailable len then some (-1, [], fifo)
  else do
    let buf ← fifo.copyOut len
    some (toInt len, buf, { fifo with
      outPos :=
        if fifo.opts.cap < sizeAdd fifo.outPos len then
          sizeSub len (sizeSub fifo.opts.cap fifo.outPos)
        else sizeAdd fifo.outPos len &&& fifo.mask
      isFull := false })

/-- `kylin_fifo_peek`. -/
def peek (fifo : Kfifo) (len : ℕ) : Option (ℤ × List Byte) :=
  if fifo.unavailable len then some (-1, [])
  else do
    let buf ← fifo.copyOut len
    some (toInt len, buf)

/-! ## Positions inside the block -/

/-- A power of two below `2 ^ 64` is at most `2 ^ 63`, so the sum of two positions
does not overflow. -/
theorem le_of_isPowOfTwo {n : ℕ} (h : isPowOfTwo n = true) (hlt : n < 2 ^ 64) : n ≤ 2 ^ 63 := by
  obtain ⟨k, rfl⟩ := (isPowOfTwo_iff n).mp h
  have hk : k < 64 := (Nat.pow_lt_pow_iff_right (by omega)).mp hlt
  exact Nat.pow_le_pow_right (by omega) (by omega)

/-- The block is as large as the capacity, and both positions are in it. -/
structure Inside (fifo : Kfifo) : Prop where
  pow : isPowOfTwo fifo.opts.cap = true
  cap_lt : fifo.opts.cap < 2 ^ 64
  mask_eq : fifo.mask = fifo.opts.cap - 1
  size_eq : fifo.val.size = fifo.opts.cap
  in_lt : fifo.inPos < fifo.opts.cap
  out_lt : fifo.outPos < fifo.opts.cap

/-- The queue after `len` bytes were got. -/
def advance (fifo : Kfifo) (len : ℕ) : Kfifo :=
  { fifo with outPos := (fifo.outPos + len) % fifo.opts.cap, isFull := false }

theorem advance_advance (fifo : Kfifo) (a b : ℕ) :
    (fifo.advance a).advance b = fifo.advance (a + b) := by
  simp [advance, Nat.add_assoc]

namespace Inside
variable {fifo : Kfifo} {len : ℕ}

theorem cap_le (I : Inside fifo) : fifo.opts.cap ≤ 2 ^ 63 := le_of_isPowOfTwo I.pow I.cap_lt

theorem and_mask (I : Inside fifo) (x : ℕ) : x &&& fifo.mask = x % fifo.opts.cap := by
  rw [I.mask_eq, and_pred_eq_mod I.pow]

theorem advance (I : Inside fifo) (len : ℕ) : Inside (fifo.advance len) where
  pow := I.pow
  cap_lt := I.cap_lt
  mask_eq := I.mask_eq
  size_eq := I.size_eq
  in_lt := I.in_lt
  out_lt := Nat.mod_lt _ (Nat.zero_lt_of_lt I.out_lt)

/-- The bytes copied out are those from `outPos` on. -/
theorem copyOut_eq (I : Inside fifo) (hlen : len ≤ fifo.opts.cap) :
    fifo.copyOut len = some (circle fifo.val.get fifo.opts.cap fifo.outPos len) := by
  have hcap := I.cap_le
  have ho := I.out_lt
  rw [copyOut, sizeAdd_of_lt (by omega)]
  by_cases hwrap : fifo.opts.cap < fifo.outPos + len
  · have hrest : sizeSub fifo.opts.cap fifo.outPos = fifo.opts.cap - fifo.outPos :=
      sizeSub_of_le (by omega) (by omega)
    rw [if_pos hwrap, circle_wrap ho (by omega) hlen]
    simp only [hrest, sizeSub_of_le (show fifo.opts.cap - fifo.outPos ≤ len by omega)
      (show len < 2 ^ 64 by omega)]
    rw [Buffer.read_of_le (by rw [I.size_eq]; omega), Buffer.read_of_le (by rw [I.size_eq]; omega)]
    rfl
  · rw [if_neg hwrap, circle_eq_slice _ _ _ _ (by omega),
      Buffer.read_of_le (by rw [I.size_eq]; omega)]

theorem get_eq (I : Inside fifo) (hav : ¬ fifo.unavailable len) : fifo.get len =
    some (toInt len, circle fifo.val.get fifo.opts.cap fifo.outPos len, fifo.advance len) := by
  have hlen : len ≤ fifo.opts.cap := by
    by_contra hlong
    exact hav (.inr (.inl (Nat.not_le.mp hlong)))
  have hcap := I.cap_le
  have ho := I.out_lt
  have hout : (if fifo.opts.cap < sizeAdd fifo.outPos len then
        sizeSub len (sizeSub fifo.opts.cap fifo.outPos)
      else sizeAdd fifo.outPos len &&& fifo.mask) = (fifo.outPos + len) % fifo.opts.cap := by
    rw [sizeAdd_of_lt (by omega), I.and_mask]
    split
    case isTrue hwrap =>
      have hrest : sizeSub fifo.opts.cap fifo.outPos = fifo.opts.cap - fifo.outPos :=
        sizeSub_of_le (by omega) (by omega)
      rw [hrest, sizeSub_of_le (by omega) (by omega), Nat.mod_eq_sub_mod (by omega),
        Nat.mod_eq_of_lt (by omega)]
      omega
    case isFalse => rfl
  rw [get, if_neg hav, I.copyOut_eq hlen]
  simp only [Option.bind_eq_bind, Option.bind_some, hout, Kfifo.advance]

theorem peek_eq (I : Inside fifo) (hav : ¬ fifo.unavailable len) : fifo.peek len =
    some (toInt len, circle fifo.val.get fifo.opts.cap fifo.outPos len) := by
  have hlen : len ≤ fifo.opts.cap := by
    by_contra hlong
    exact hav (.inr (.inl (Nat.not_le.mp hlong)))
  rw [peek, if_neg hav, I.copyOut_eq hlen]
  rfl

/-- The branch of `kylin_fifo_put` that does not pass the end of the block. -/
theorem put_straight (I : Inside fifo) {buf : List Byte} (hacc : ¬ fifo.refused buf.length)
    (hend : fifo.inPos + buf.length ≤ fifo.opts.cap) : fifo.put buf =
      some (toInt buf.length, { fifo with
        val := { fifo.val with get := overlay fifo.val.get fifo.inPos buf }
        inPos := (fifo.inPos + buf.length) % fifo.opts.cap }) := by
  have hcap := I.cap_le
  have hsum : sizeAdd fifo.inPos buf.length = fifo.inPos + buf.length :=
    sizeAdd_of_lt (by omega)
  have hsrc : source buf 0 buf.length = some buf := by simp [source]
  rw [put]
  simp only [if_neg hacc, hsum, if_neg (Nat.not_lt.mpr hend), hsrc, Option.bind_eq_bind,
    Option.bind_some]
  rw [Buffer.write_of_le (by rw [I.size_eq]; exact hend), Option.bind_some, I.and_mask]

/-- The branch of `kylin_fifo_put` that passes the end of the block.  Its first copy ends
there. -/
theorem put_past (I : Inside fifo) {buf : List Byte} (hacc : ¬ fifo.refused buf.length)
    (hend : fifo.opts.cap < fifo.inPos + buf.length) (hlt : fifo.inPos + buf.length < 2 ^ 64) :
    let rest := fifo.opts.cap - fifo.inPos
    fifo.put buf = (Buffer.write
        { fifo.val with get := overlay fifo.val.get fifo.inPos (buf.take rest) } 0
        (buf.drop rest)).bind fun val =>
      some (toInt buf.length, { fifo with
        val := val
        inPos := buf.length - rest
        isFull := if buf.length - rest = fifo.outPos then true else fifo.isFull }) := by
  intro rest
  have hcap := I.cap_le
  have hin := I.in_lt
  have hrest : rest = fifo.opts.cap - fifo.inPos := rfl
  have htake : (buf.take rest).length = rest := by
    rw [List.length_take]
    omega
  have hsum : sizeAdd fifo.inPos buf.length = fifo.inPos + buf.length := sizeAdd_of_lt hlt
  have hsub : sizeSub fifo.opts.cap fifo.inPos = rest := sizeSub_of_le (by omega) (by omega)
  have hmore : sizeSub buf.length rest = buf.length - rest :=
    sizeSub_of_le (by omega) (by omega)
  have hsrc : source buf 0 rest = some (buf.take rest) := by
    rw [source, if_pos (by omega), List.drop_zero]
  have hsrc' : source buf rest (buf.length - rest) = some (buf.drop rest) := by
    rw [source, if_pos (by omega), List.take_of_length_le]
    rw [List.length_drop]
  rw [put]
  simp only [if_neg hacc, hsum, if_pos hend, hsub, hmore, hsrc, hsrc', Option.bind_eq_bind,
    Option.bind_some]
  rw [Buffer.write_of_le (by rw [I.size_eq]; omega), Option.bind_some]

/-- The same by no more than the block is long. -/
theorem put_wrap (I : Inside fifo) {buf : List Byte} (hacc : ¬ fifo.refused buf.length)
    (hend : fifo.opts.cap < fifo.inPos + buf.length)
    (hfit : fifo.inPos + buf.length ≤ 2 * fifo.opts.cap) (hlt : fifo.inPos + buf.length < 2 ^ 64) :
    let rest := fifo.opts.cap - fifo.inPos
    fifo.put buf = some (toInt buf.length, { fifo with
      val := { fifo.val with
        get := overlay (overlay fifo.val.get fifo.inPos (buf.take rest)) 0 (buf.drop rest) }
      inPos := buf.length - rest
      isFull := if buf.length - rest = fifo.outPos then true else fifo.isFull }) := by
  intro rest
  have hin := I.in_lt
  have hdrop : (buf.drop rest).length = buf.length - (fifo.opts.cap - fifo.inPos) :=
    List.length_drop
  rw [I.put_past hacc hend hlt, Buffer.write_of_le, Option.bind_some]
  change 0 + (buf.drop rest).length ≤ fifo.val.size
  rw [I.size_eq]
  omega

/-- The same by more: the second copy leaves the block. -/
theorem put_beyond (I : Inside fifo) {buf : List Byte} (hacc : ¬ fifo.refused buf.length)
    (hend : 2 * fifo.opts.cap < fifo.inPos + buf.length)
    (hlt : fifo.inPos + buf.length < 2 ^ 64) : fifo.put buf = none := by
  have hin := I.in_lt
  have hdrop : (buf.drop (fifo.opts.cap - fifo.inPos)).length =
      buf.length - (fifo.opts.cap - fifo.inPos) := List.length_drop
  rw [I.put_past hacc (by omega) hlt, Buffer.write, if_neg]
  · rfl
  · change ¬ 0 + _ ≤ fifo.val.size
    rw [I.size_eq]
    omega

end Inside

/-! ## The bytes of a queue -/

/-- How many bytes a queue holds, read off its fields. -/
def count (fifo : Kfifo) : ℕ :=
  if fifo.isFull then fifo.opts.cap
  else if fifo.outPos ≤ fifo.inPos then fifo.inPos - fifo.outPos
  else fifo.opts.cap - (fifo.outPos - fifo.inPos)

/-- A queue that holds the bytes `q`, oldest first: those from `outPos` on, counted
round the block. -/
structure Holds (fifo : Kfifo) (q : List Byte) : Prop where
  pow : isPowOfTwo fifo.opts.cap = true
  cap_lt : fifo.opts.cap < 2 ^ 64
  mask_eq : fifo.mask = fifo.opts.cap - 1
  size_eq : fifo.val.size = fifo.opts.cap
  out_lt : fifo.outPos < fifo.opts.cap
  length_le : q.length ≤ fifo.opts.cap
  in_eq : fifo.inPos = (fifo.outPos + q.length) % fifo.opts.cap
  full_iff : fifo.isFull = true ↔ q.length = fifo.opts.cap
  bytes : circle fifo.val.get fifo.opts.cap fifo.outPos q.length = q

theorem holds_create {opts : KfifoOpts} (hcap : opts.cap < 2 ^ 64) {fifo : Kfifo}
    (h : create opts = some fifo) : Holds fifo [] := by
  rw [create] at h
  split at h
  case isFalse => cases h
  case isTrue hpow =>
    obtain rfl := Option.some.inj h
    have hpos : 0 < opts.cap := by
      obtain ⟨k, hk⟩ := (isPowOfTwo_iff _).mp hpow
      rw [hk]
      exact Nat.two_pow_pos k
    exact
      { pow := hpow
        cap_lt := hcap
        mask_eq := sizeSub_of_le hpos hcap
        size_eq := rfl
        out_lt := hpos
        length_le := Nat.zero_le _
        in_eq := (Nat.zero_mod _).symm
        full_iff := by
          change false = true ↔ 0 = opts.cap
          simp only [Bool.false_eq_true, false_iff]
          omega
        bytes := rfl }

namespace Holds
variable {fifo : Kfifo} {q : List Byte}

theorem in_lt (H : Holds fifo q) : fifo.inPos < fifo.opts.cap := by
  rw [H.in_eq]
  exact Nat.mod_lt _ (by have := H.out_lt; omega)

theorem inside (H : Holds fifo q) : Inside fifo :=
  ⟨H.pow, H.cap_lt, H.mask_eq, H.size_eq, H.in_lt, H.out_lt⟩

theorem cap_le (H : Holds fifo q) : fifo.opts.cap ≤ 2 ^ 63 := H.inside.cap_le

/-- Where `inPos` lies, by whether the bytes run past the end of the block. -/
theorem in_cases (H : Holds fifo q) :
    (fifo.inPos = fifo.outPos + q.length ∧ fifo.outPos + q.length < fifo.opts.cap) ∨
      (fifo.inPos + fifo.opts.cap = fifo.outPos + q.length) := by
  have ho := H.out_lt
  have hq := H.length_le
  rw [H.in_eq]
  rcases Nat.lt_or_ge (fifo.outPos + q.length) fifo.opts.cap with h | h
  · exact Or.inl ⟨Nat.mod_eq_of_lt h, h⟩
  · right
    rw [Nat.mod_eq_sub_mod h, Nat.mod_eq_of_lt (by omega)]
    omega

theorem count_eq (H : Holds fifo q) : fifo.count = q.length := by
  have ho := H.out_lt
  have hq := H.length_le
  rw [count]
  by_cases hf : fifo.isFull = true
  · rw [if_pos hf, H.full_iff.mp hf]
  · have hne : q.length ≠ fifo.opts.cap := mt H.full_iff.mpr hf
    rw [if_neg hf]
    rcases H.in_cases with ⟨h, -⟩ | h
    · rw [if_pos (by omega)]
      omega
    · rw [if_neg (by omega)]
      omega

/-- The test of `kylin_fifo_get` and `kylin_fifo_peek` is right. -/
theorem unavailable_iff (H : Holds fifo q) (len : ℕ) :
    fifo.unavailable len ↔ ¬ (0 < len ∧ len ≤ q.length) := by
  have hcap := H.cap_lt
  have hin := H.in_lt
  have ho := H.out_lt
  have hq := H.length_le
  rw [← H.count_eq, unavailable, count]
  by_cases hf : fifo.isFull = true
  · simp only [hf, if_true]
    simp only [Bool.true_eq_false, false_and, or_false]
    omega
  · rw [Bool.not_eq_true] at hf
    simp only [hf, Bool.false_eq_true, if_false, true_and]
    by_cases hio : fifo.outPos ≤ fifo.inPos
    · rw [if_pos hio, if_pos hio, sizeSub_of_le hio (by omega)]
      omega
    · have hd : sizeSub fifo.outPos fifo.inPos = fifo.outPos - fifo.inPos :=
        sizeSub_of_le (by omega) (by omega)
      rw [if_neg hio, if_neg hio, hd, sizeSub_of_le (by omega) hcap]
      omega

/-- The bytes copied out are the oldest ones. -/
theorem circle_eq (H : Holds fifo q) {len : ℕ} (hlen : len ≤ q.length) :
    circle fifo.val.get fifo.opts.cap fifo.outPos len = q.take len := by
  conv_rhs => rw [← H.bytes]
  exact (take_circle _ _ _ _ hlen).symm

theorem advance (H : Holds fifo q) {len : ℕ} (hpos : 0 < len) (hlen : len ≤ q.length) :
    Holds (fifo.advance len) (q.drop len) where
  pow := H.pow
  cap_lt := H.cap_lt
  mask_eq := H.mask_eq
  size_eq := H.size_eq
  out_lt := (H.inside.advance len).out_lt
  length_le := by
    rw [List.length_drop]
    exact Nat.le_trans (Nat.sub_le _ _) H.length_le
  in_eq := by
    change fifo.inPos = ((fifo.outPos + len) % fifo.opts.cap + (q.drop len).length) %
      fifo.opts.cap
    rw [Nat.mod_add_mod, List.length_drop, H.in_eq]
    congr 1
    omega
  full_iff := by
    have hq := H.length_le
    change false = true ↔ (q.drop len).length = fifo.opts.cap
    rw [List.length_drop]
    simp only [Bool.false_eq_true, false_iff]
    omega
  bytes := by
    change circle fifo.val.get fifo.opts.cap ((fifo.outPos + len) % fifo.opts.cap)
      (q.drop len).length = q.drop len
    rw [circle_mod, List.length_drop, ← drop_circle _ _ _ _ hlen, H.bytes]

/-- **Getting** bytes removes the oldest ones, or fails and changes nothing. -/
theorem get_spec (H : Holds fifo q) (len : ℕ) :
    fifo.get len = if 0 < len ∧ len ≤ q.length then
      some (toInt len, q.take len, fifo.advance len) else some (-1, [], fifo) := by
  by_cases hlen : 0 < len ∧ len ≤ q.length
  · have hav : ¬ fifo.unavailable len := fun h => (H.unavailable_iff len).mp h hlen
    rw [if_pos hlen, H.inside.get_eq hav, H.circle_eq hlen.2]
  · rw [if_neg hlen, get, if_pos ((H.unavailable_iff len).mpr hlen)]

theorem peek_spec (H : Holds fifo q) (len : ℕ) :
    fifo.peek len =
      if 0 < len ∧ len ≤ q.length then some (toInt len, q.take len) else some (-1, []) := by
  by_cases hlen : 0 < len ∧ len ≤ q.length
  · have hav : ¬ fifo.unavailable len := fun h => (H.unavailable_iff len).mp h hlen
    rw [if_pos hlen, H.inside.peek_eq hav, H.circle_eq hlen.2]
  · rw [if_neg hlen, peek, if_pos ((H.unavailable_iff len).mpr hlen)]

end Holds

/-! ## Runs -/

/-- The calls on a queue. -/
inductive Call
  | put (buf : List Byte)
  | get (len : ℕ)
  | peek (len : ℕ)

/-- What the caller sees: `none` for the result `-1`, else the bytes it was given. -/
def outcome (ret : ℤ) (buf : List Byte) : Option (List Byte) := if ret = -1 then none else some buf

/-- One call on a queue. -/
def step (fifo : Kfifo) : Call → Option (Option (List Byte) × Kfifo)
  | .put buf => (fifo.put buf).map fun (ret, f) => (outcome ret [], f)
  | .get len => (fifo.get len).map fun (ret, buf, f) => (outcome ret buf, f)
  | .peek len => (fifo.peek len).map fun (ret, buf) => (outcome ret buf, fifo)

/-- The reference machine: a list of at most `cap` bytes. -/
def byteQueue (cap : ℕ) (q : List Byte) : Call → Option (List Byte) × List Byte
  | .put buf =>
      if 0 < buf.length ∧ buf.length ≤ cap - q.length then (some [], q ++ buf) else (none, q)
  | .get len => if 0 < len ∧ len ≤ q.length then (some (q.take len), q.drop len) else (none, q)
  | .peek len => if 0 < len ∧ len ≤ q.length then (some (q.take len), q) else (none, q)

/-- The bytes accepted by the successful puts of a run. -/
def accepted (tr : List (Step Kfifo Call (Option (List Byte)))) : List Byte :=
  tr.flatMap fun e =>
    match e.call, e.result with
    | .put buf, some _ => buf
    | _, _ => []

/-- The bytes returned by the successful gets of a run. -/
def returned (tr : List (Step Kfifo Call (Option (List Byte)))) : List Byte :=
  tr.flatMap fun e =>
    match e.call, e.result with
    | .get _, some buf => buf
    | _, _ => []

/-- **What a byte queue of capacity `cap` promises about a run**: the results are those
of the reference machine, the bytes come out in the order they went in, and a
failed call changes nothing. -/
structure IsByteQueue (cap : ℕ) (tr : List (Step Kfifo Call (Option (List Byte)))) : Prop where
  results : (specRun (byteQueue cap) [] (tr.map Step.call)).1 = tr.map Step.result
  in_order : accepted tr =
    returned tr ++ (specRun (byteQueue cap) [] (tr.map Step.call)).2
  unchanged : ∀ e ∈ tr, e.result = none → e.after = e.before

/-- The calls that `kylin_fifo_put`, `kylin_fifo_get` and `kylin_fifo_peek` treat
rightly, by the state they are made in. -/
def Behaves (fifo : Kfifo) : Call → Prop
  | .put buf =>
      -- a write that fills the queue passes the end of the block
      (0 < buf.length → buf.length = fifo.opts.cap - fifo.count →
        fifo.opts.cap < fifo.inPos + buf.length) ∧
      -- a length that does not fit is not taken for one that does
      (fifo.isFull = false → fifo.opts.cap - fifo.count < buf.length →
        fifo.inPos + buf.length < 2 ^ 64 ∧
          (fifo.outPos ≤ fifo.inPos →
            fifo.outPos < (fifo.inPos + buf.length) % fifo.opts.cap)) ∧
      -- a length that fits is not returned as `-1`
      (buf.length ≤ fifo.opts.cap - fifo.count → buf.length % 2 ^ 32 ≠ 2 ^ 32 - 1)
  | .get len | .peek len => len ≤ fifo.count → len % 2 ^ 32 ≠ 2 ^ 32 - 1

namespace Holds
variable {fifo : Kfifo} {q : List Byte}

/-- The test of `kylin_fifo_put` is right about the lengths that behave. -/
theorem refused_iff (H : Holds fifo q) {len : ℕ}
    (hbig : fifo.isFull = false → fifo.opts.cap - q.length < len →
      fifo.inPos + len < 2 ^ 64 ∧
        (fifo.outPos ≤ fifo.inPos → fifo.outPos < (fifo.inPos + len) % fifo.opts.cap)) :
    fifo.refused len ↔ ¬ (0 < len ∧ len ≤ fifo.opts.cap - q.length) := by
  have hcap := H.cap_le
  have ho := H.out_lt
  have hq := H.length_le
  have hmask := H.mask_eq
  rw [refused, H.inside.and_mask]
  by_cases hf : fifo.isFull = true
  · have := H.full_iff.mp hf
    simp only [hf, true_or, or_true, true_iff]
    omega
  · have hne : q.length ≠ fifo.opts.cap := mt H.full_iff.mpr hf
    rw [Bool.not_eq_true] at hf
    have hlt : fifo.inPos + len < 2 ^ 64 := by
      by_cases hlen : fifo.opts.cap - q.length < len
      · exact (hbig hf hlen).1
      · have := H.in_lt
        omega
    rw [sizeAdd_of_lt hlt]
    simp only [hf, Bool.false_eq_true, false_or]
    rcases H.in_cases with ⟨hin, -⟩ | hin
    · -- the free cells run round the end of the block
      by_cases hlen : fifo.opts.cap - q.length < len
      · have := (hbig hf hlen).2 (by omega)
        omega
      · have hmod : fifo.mask < fifo.inPos + len →
            (fifo.inPos + len) % fifo.opts.cap = fifo.inPos + len - fifo.opts.cap := by
          intro _
          rw [Nat.mod_eq_sub_mod (by omega), Nat.mod_eq_of_lt (by omega)]
        omega
    · omega

/-- The queue after `buf` was written behind its bytes. -/
theorem append (H : Holds fifo q) {buf : List Byte} (hfit : q.length + buf.length ≤ fifo.opts.cap)
    {g : ℕ → Byte} {inPos : ℕ} {isFull : Bool}
    (hbytes : circle g fifo.opts.cap fifo.outPos (q.length + buf.length) = q ++ buf)
    (hin : inPos = (fifo.inPos + buf.length) % fifo.opts.cap)
    (hfull : isFull = true ↔ q.length + buf.length = fifo.opts.cap) :
    Holds { fifo with val := { fifo.val with get := g }, inPos := inPos, isFull := isFull }
      (q ++ buf) where
  pow := H.pow
  cap_lt := H.cap_lt
  mask_eq := H.mask_eq
  size_eq := H.size_eq
  out_lt := H.out_lt
  length_le := by
    rw [List.length_append]
    exact hfit
  in_eq := by
    change inPos = (fifo.outPos + (q ++ buf).length) % fifo.opts.cap
    rw [hin, H.in_eq, Nat.mod_add_mod, List.length_append, Nat.add_assoc]
  full_iff := by
    rw [List.length_append]
    exact hfull
  bytes := by
    rw [List.length_append]
    exact hbytes

/-- The branch of `kylin_fifo_put` that does not pass the end of the block. -/
theorem put_straight (H : Holds fifo q) {buf : List Byte} (hacc : ¬ fifo.refused buf.length)
    (hend : fifo.inPos + buf.length ≤ fifo.opts.cap)
    (hfit : q.length + buf.length < fifo.opts.cap) :
    ∃ fifo', fifo.put buf = some (toInt buf.length, fifo') ∧
      fifo'.opts = fifo.opts ∧ Holds fifo' (q ++ buf) := by
  have hcap := H.cap_le
  have hfull : fifo.isFull = false := by
    have : ¬ q.length = fifo.opts.cap := by omega
    simpa using mt H.full_iff.mp this
  have hbytes := circle_overlay fifo.val.get buf H.in_eq hend (by omega)
  rw [H.bytes] at hbytes
  have hflag : fifo.isFull = true ↔ q.length + buf.length = fifo.opts.cap := by
    rw [hfull]
    simp only [Bool.false_eq_true, false_iff]
    omega
  exact ⟨_, H.inside.put_straight hacc hend, rfl, H.append (by omega) hbytes rfl hflag⟩

/-- The branch of `kylin_fifo_put` that passes the end of the block. -/
theorem put_wrap (H : Holds fifo q) {buf : List Byte} (hacc : ¬ fifo.refused buf.length)
    (hend : fifo.opts.cap < fifo.inPos + buf.length)
    (hfit : q.length + buf.length ≤ fifo.opts.cap) :
    ∃ fifo', fifo.put buf = some (toInt buf.length, fifo') ∧
      fifo'.opts = fifo.opts ∧ Holds fifo' (q ++ buf) := by
  have hcap := H.cap_le
  have hin := H.in_lt
  have ho := H.out_lt
  have hfull : fifo.isFull = false := by
    have : ¬ q.length = fifo.opts.cap := by omega
    simpa using mt H.full_iff.mp this
  set rest := fifo.opts.cap - fifo.inPos with hrest
  have htake : (buf.take rest).length = rest := by
    rw [List.length_take]
    omega
  have hdrop : (buf.drop rest).length = buf.length - rest := List.length_drop
  have hlen : q.length + rest + (buf.length - rest) = q.length + buf.length := by omega
  -- the view after the first copy ends at the end of the block
  have hfirst : circle (overlay fifo.val.get fifo.inPos (buf.take rest)) fifo.opts.cap fifo.outPos
      (q.length + rest) = q ++ buf.take rest := by
    have := circle_overlay fifo.val.get (buf.take rest) H.in_eq (by omega) (by omega)
    rwa [htake, H.bytes] at this
  have hsecond : circle (overlay (overlay fifo.val.get fifo.inPos (buf.take rest)) 0
      (buf.drop rest)) fifo.opts.cap fifo.outPos (q.length + buf.length) = q ++ buf := by
    have hzero : 0 = (fifo.outPos + (q.length + rest)) % fifo.opts.cap := by
      rw [← Nat.add_assoc, ← Nat.mod_add_mod, ← H.in_eq, hrest, Nat.add_sub_of_le hin.le,
        Nat.mod_self]
    have := circle_overlay (overlay fifo.val.get fifo.inPos (buf.take rest)) (buf.drop rest)
      hzero (by omega) (by omega)
    rwa [hdrop, hlen, hfirst, List.append_assoc, List.take_append_drop] at this
  have hpos : buf.length - rest = (fifo.inPos + buf.length) % fifo.opts.cap := by
    rw [Nat.mod_eq_sub_mod (by omega), Nat.mod_eq_of_lt (by omega)]
    omega
  have hflag : (if buf.length - rest = fifo.outPos then true else fifo.isFull) = true ↔
      q.length + buf.length = fifo.opts.cap := by
    rw [hfull]
    rcases H.in_cases with ⟨h, -⟩ | h
    · simp only [Bool.if_false_right, Bool.and_true, decide_eq_true_eq]
      omega
    · omega
  exact ⟨_, H.inside.put_wrap hacc hend (by omega) (by omega), rfl,
    H.append hfit hsecond hpos hflag⟩

/-- **Putting** bytes that behave appends them, or fails and changes nothing. -/
theorem put_spec (H : Holds fifo q) {buf : List Byte} (hb : Behaves fifo (.put buf)) :
    if 0 < buf.length ∧ buf.length ≤ fifo.opts.cap - q.length then
      ∃ fifo', fifo.put buf = some (toInt buf.length, fifo') ∧
        fifo'.opts = fifo.opts ∧ Holds fifo' (q ++ buf)
    else fifo.put buf = some (-1, fifo) := by
  have hq := H.length_le
  obtain ⟨hfill, hbig, -⟩ := hb
  rw [H.count_eq] at hfill hbig
  by_cases hlen : 0 < buf.length ∧ buf.length ≤ fifo.opts.cap - q.length
  · have hacc : ¬ fifo.refused buf.length := fun h => (H.refused_iff hbig).mp h hlen
    rw [if_pos hlen]
    by_cases hend : fifo.opts.cap < fifo.inPos + buf.length
    · exact H.put_wrap hacc hend (by omega)
    · have : buf.length ≠ fifo.opts.cap - q.length := mt (hfill hlen.1) hend
      exact H.put_straight hacc (by omega) (by omega)
  · rw [if_neg hlen, put]
    simp only [if_pos ((H.refused_iff hbig).mpr hlen)]

/-- A call that both refuse changes neither. -/
theorem refusal (H : Holds fifo q) {a : Call} (hno : byteQueue fifo.opts.cap q a = (none, q))
    (hstep : step fifo a = some (none, fifo)) :
    ∃ fifo', step fifo a = some ((byteQueue fifo.opts.cap q a).1, fifo') ∧
      fifo'.opts = fifo.opts ∧ Holds fifo' (byteQueue fifo.opts.cap q a).2 ∧
      ((byteQueue fifo.opts.cap q a).1 = none → fifo' = fifo) := by
  rw [hno]
  exact ⟨fifo, hstep, rfl, H, fun _ => rfl⟩

/-- One call that behaves is one call of the reference machine, and a failed one
leaves the queue as it was. -/
theorem step_simulates (H : Holds fifo q) {a : Call} (hb : Behaves fifo a) :
    ∃ fifo', step fifo a = some ((byteQueue fifo.opts.cap q a).1, fifo') ∧
      fifo'.opts = fifo.opts ∧ Holds fifo' (byteQueue fifo.opts.cap q a).2 ∧
      ((byteQueue fifo.opts.cap q a).1 = none → fifo' = fifo) := by
  have hq := H.length_le
  cases a with
  | put buf =>
      have hspec := H.put_spec hb
      obtain ⟨-, -, hret⟩ := hb
      rw [H.count_eq] at hret
      by_cases hlen : 0 < buf.length ∧ buf.length ≤ fifo.opts.cap - q.length
      · rw [if_pos hlen] at hspec
        obtain ⟨fifo', hput, ho, H'⟩ := hspec
        have hne : toInt buf.length ≠ -1 := mt (toInt_eq_neg_one_iff _).mp (hret hlen.2)
        exact ⟨fifo', by simp [step, byteQueue, hput, outcome, hne, hlen], ho,
          by simpa [byteQueue, hlen] using H', by simp [byteQueue, hlen]⟩
      · rw [if_neg hlen] at hspec
        exact H.refusal (if_neg hlen) (by simp [step, hspec, outcome])
  | get len =>
      have hspec := H.get_spec len
      have hret : len ≤ q.length → len % 2 ^ 32 ≠ 2 ^ 32 - 1 := by
        rw [← H.count_eq]
        exact hb
      by_cases hlen : 0 < len ∧ len ≤ q.length
      · rw [if_pos hlen] at hspec
        have hne : toInt len ≠ -1 := mt (toInt_eq_neg_one_iff _).mp (hret hlen.2)
        exact ⟨fifo.advance len, by simp [step, byteQueue, hspec, outcome, hne, hlen], rfl,
          by simpa [byteQueue, hlen] using H.advance hlen.1 hlen.2, by simp [byteQueue, hlen]⟩
      · rw [if_neg hlen] at hspec
        exact H.refusal (if_neg hlen) (by simp [step, hspec, outcome])
  | peek len =>
      have hspec := H.peek_spec len
      have hret : len ≤ q.length → len % 2 ^ 32 ≠ 2 ^ 32 - 1 := by
        rw [← H.count_eq]
        exact hb
      by_cases hlen : 0 < len ∧ len ≤ q.length
      · rw [if_pos hlen] at hspec
        have hne : toInt len ≠ -1 := mt (toInt_eq_neg_one_iff _).mp (hret hlen.2)
        exact ⟨fifo, by simp [step, byteQueue, hspec, outcome, hne, hlen], rfl,
          by simpa [byteQueue, hlen] using H, by simp [byteQueue, hlen]⟩
      · rw [if_neg hlen] at hspec
        exact H.refusal (if_neg hlen) (by simp [step, hspec, outcome])

end Holds

/-- One call of the reference machine keeps the bytes in order. -/
theorem byteQueue_in_order (tr : List (Step Kfifo Call (Option (List Byte)))) (cap : ℕ)
    (q : List Byte) (fifo fifo' : Kfifo) (a : Call) (h : accepted tr = returned tr ++ q) :
    accepted (tr ++ [⟨fifo, a, (byteQueue cap q a).1, fifo'⟩]) =
      returned (tr ++ [⟨fifo, a, (byteQueue cap q a).1, fifo'⟩]) ++ (byteQueue cap q a).2 := by
  rw [accepted, List.flatMap_append, ← accepted, returned, List.flatMap_append, ← returned, h]
  cases a <;> rw [byteQueue] <;> split <;> simp

/-- What a run of calls that behave maintains. -/
private theorem run_holds {opts : KfifoOpts} (hcap : opts.cap < 2 ^ 64) {fifo₀ fifo : Kfifo}
    (h0 : create opts = some fifo₀) {tr : List (Step Kfifo Call (Option (List Byte)))}
    (h : Run step Behaves fifo₀ tr fifo) :
    IsByteQueue opts.cap tr ∧ fifo.opts = opts ∧
      Holds fifo (specRun (byteQueue opts.cap) [] (tr.map Step.call)).2 := by
  have hopts : fifo₀.opts = opts := by
    rw [create] at h0
    split at h0 <;> cases h0
    rfl
  refine h.induct (P := fun tr fifo => IsByteQueue opts.cap tr ∧ fifo.opts = opts ∧
    Holds fifo (specRun (byteQueue opts.cap) [] (tr.map Step.call)).2)
    ⟨⟨rfl, rfl, by simp⟩, hopts, holds_create hcap h0⟩ ?_
  rintro tr fifo a r fifo' - ⟨Q, ho, H⟩ hb hs
  obtain ⟨fifo'', hs', ho', H', hkeep⟩ := H.step_simulates hb
  rw [hs', ho] at hs
  obtain ⟨rfl, rfl⟩ := Prod.mk.inj (Option.some.inj hs)
  rw [ho] at H' ho' hkeep
  have hcalls : ∀ e : Step Kfifo Call (Option (List Byte)),
      specRun (byteQueue opts.cap) [] ((tr ++ [e]).map Step.call) =
        (tr.map Step.result ++
          [(byteQueue opts.cap (specRun (byteQueue opts.cap) [] (tr.map Step.call)).2 e.call).1],
        (byteQueue opts.cap (specRun (byteQueue opts.cap) [] (tr.map Step.call)).2 e.call).2) := by
    intro e
    simp [specRun_append, specRun, Q.results]
  refine ⟨⟨?_, ?_, ?_⟩, ho', ?_⟩
  · rw [hcalls, List.map_append]
    rfl
  · rw [hcalls]
    exact byteQueue_in_order tr opts.cap _ fifo fifo'' a Q.in_order
  · intro e he hnone
    rcases List.mem_append.mp he with he | he
    · exact Q.unchanged e he hnone
    · obtain rfl := List.mem_singleton.mp he
      exact hkeep hnone
  · rw [hcalls]
    exact H'

/-- **A byte queue refines a bounded queue of bytes** along every run of calls that
behave, and every such call returns. -/
theorem run_isByteQueue {opts : KfifoOpts} (hcap : opts.cap < 2 ^ 64) {fifo₀ fifo : Kfifo}
    (h0 : create opts = some fifo₀) {tr : List (Step Kfifo Call (Option (List Byte)))}
    (h : Run step Behaves fifo₀ tr fifo) :
    IsByteQueue opts.cap tr ∧ ∀ a, Behaves fifo a → (step fifo a).isSome := by
  obtain ⟨Q, -, H⟩ := run_holds hcap h0 h
  refine ⟨Q, fun a hb => ?_⟩
  obtain ⟨fifo', hs, -⟩ := H.step_simulates hb
  simp [hs]

/-- Four bytes of capacity, written round the end of the block. -/
theorem run_isByteQueue_four :
    ∃ (fifo₀ fifo : Kfifo) (tr : List (Step Kfifo Call (Option (List Byte)))),
      create ⟨4⟩ = some fifo₀ ∧
      tr.map Step.result = [some [], some [1, 2], some [], some [3, 4, 5, 6], none] ∧
      Run step Behaves fifo₀ tr fifo ∧ IsByteQueue 4 tr := by
  have hrun : Run step Behaves (⟨⟨4⟩, 3, 0, 0, false, ⟨4, fun _ => 0⟩⟩ : Kfifo) _ _ :=
    run_of_runList
      [.put [1, 2, 3], .get 2, .put [4, 5, 6], .get 4, .peek 1] rfl (by
        simp only [List.forall_mem_cons]
        refine ⟨?_, ?_, ?_, ?_, ?_, by simp⟩ <;> simp [Behaves] <;> decide)
  have hcap : (⟨4⟩ : KfifoOpts).cap < 2 ^ 64 := by decide
  exact ⟨_, _, _, rfl, rfl, hrun, (run_isByteQueue hcap rfl hrun).1⟩

/-- A write that fills the queue up to the end of the block: the queue then looks
empty, and the bytes it has accepted cannot be got back. -/
theorem not_isByteQueue_exact_fill :
    ∃ (fifo₀ fifo : Kfifo) (tr : List (Step Kfifo Call (Option (List Byte)))),
      create ⟨4⟩ = some fifo₀ ∧ Run step (fun _ _ => True) fifo₀ tr fifo ∧
        ¬ IsByteQueue 4 tr := by
  refine ⟨_, _, _, rfl, run_of_runList [.put [1, 2, 3, 4], .get 1] rfl (fun _ _ => trivial),
    fun Q => ?_⟩
  exact absurd Q.results (by decide)

end Kfifo

end Kylin
