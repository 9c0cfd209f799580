import Kylin.Math.BitmapShift

/-!
# Boolean operations and predicates on bitmaps

The operations of `lib/core/math/kylin_bitmap.c` on bitmaps of different sizes.  A bitmap stands
for the set of its bits, and has none behind its last word.

`kylin_bitmap_and`, `kylin_bitmap_xor` and `kylin_bitmap_andnot` write the words that all three
bitmaps have and leave a longer destination as it was behind them.  `kylin_bitmap_or` insists on
a destination that is as long as the longest, and reads behind the second source when the
destination is longer than both.  `kylin_bitmap_is_subset` compares the words both bitmaps have,
and its test for a child that is longer than its parent is of the wrong size.

## Main definitions

* `Kbitmap.and`, `or`, `xor`, `andnot`, `complement` — the operations.
* `isIntersects`, `isSubset`, `isEmpty`, `isFull` — the predicates.
* `bitAt` — the bits of a bitmap, and none behind it.
* `Combines`, `SetLike` — what the operations and the predicates are for.

## Main results

* `combines_iff` — when an operation combines the bits.
* `setLike_iff` — when the predicates are those of sets.
-/

namespace Kylin.Kbitmap

open Lib

/-! ## The operations -/

/-- A turn of the loops that write a word from one of each source. -/
def combineTurn (f : BitVec 64 → BitVec 64 → BitVec 64) (src1 src2 : Buffer (BitVec 64)) (i : ℕ)
    (dst : Buffer (BitVec 64)) : Option (Buffer (BitVec 64)) := do
  let x ← src1.load i
  let y ← src2.load i
  dst.store i (f x y)

/-- The common body of `kylin_bitmap_and`, `kylin_bitmap_xor` and `kylin_bitmap_andnot`. -/
def combine (f : BitVec 64 → BitVec 64 → BitVec 64) (dst src1 src2 : Kbitmap) :
    Option (Kerr × Kbitmap) :=
  let size := min dst.val.size (min src1.val.size src2.val.size)
  if dst.val.size < 1 ∨ src1.val.size < 1 ∨ src2.val.size < 1 then some (.inval, dst)
  else do
    let val ← forLoop intLimit (combineTurn f src1.val src2.val) size 0 dst.val
    some (.ok, ⟨val⟩)

/-- `kylin_bitmap_and`. -/
protected def and : Kbitmap → Kbitmap → Kbitmap → Option (Kerr × Kbitmap) :=
  combine fun x y => x &&& y

/-- `kylin_bitmap_xor`. -/
protected def xor : Kbitmap → Kbitmap → Kbitmap → Option (Kerr × Kbitmap) :=
  combine fun x y => x ^^^ y

/-- `kylin_bitmap_andnot`. -/
def andnot : Kbitmap → Kbitmap → Kbitmap → Option (Kerr × Kbitmap) :=
  combine fun x y => x &&& ~~~y

/-- A turn of the loop of `kylin_bitmap_or`. -/
def orTurn (src1 src2 : Buffer (BitVec 64)) (i : ℕ) (dst : Buffer (BitVec 64)) :
    Option (Buffer (BitVec 64)) :=
  if i < src1.size ∧ i < src2.size then combineTurn (fun x y => x ||| y) src1 src2 i dst
  else if i < src1.size then do
    let x ← src1.load i
    dst.store i x
  else do
    let y ← src2.load i
    dst.store i y

/-- `kylin_bitmap_or`. -/
protected def or (dst src1 src2 : Kbitmap) : Option (Kerr × Kbitmap) :=
  let size := max dst.val.size (max src1.val.size src2.val.size)
  if dst.val.size < 1 ∨ src1.val.size < 1 ∨ src2.val.size < 1 then some (.inval, dst)
  else if dst.val.size ≠ size then some (.noent, dst)
  else do
    let val ← forLoop intLimit (orTurn src1.val src2.val) size 0 dst.val
    some (.ok, ⟨val⟩)

/-- `kylin_bitmap_complement`. -/
def complement (dst src : Kbitmap) : Option (Kerr × Kbitmap) :=
  if dst.val.size < 1 ∨ src.val.size < 1 then some (.inval, dst)
  else do
    let val ← forLoop intLimit (fun i dst => do dst.store i (~~~(← src.val.load i)))
      (min dst.val.size src.val.size) 0 dst.val
    some (.ok, ⟨val⟩)

/-- The four operations with two sources. -/
inductive BoolOp
  | and | or | xor | andnot
  deriving DecidableEq, Repr

/-- The function. -/
def BoolOp.run : BoolOp → Kbitmap → Kbitmap → Kbitmap → Option (Kerr × Kbitmap)
  | .and => Kbitmap.and
  | .or => Kbitmap.or
  | .xor => Kbitmap.xor
  | .andnot => Kbitmap.andnot

/-- What it computes of two bits. -/
def BoolOp.eval : BoolOp → Bool → Bool → Bool
  | .and, a, b => a && b
  | .or, a, b => a || b
  | .xor, a, b => a ^^ b
  | .andnot, a, b => a && !b

/-- The bits of a bitmap, and none behind its last word. -/
def bitAt (bm : Kbitmap) (i : ℕ) : Bool := decide (i < 64 * bm.val.size) && bm.bit i

theorem bitAt_of_lt {bm : Kbitmap} {i : ℕ} (h : i < 64 * bm.val.size) : bm.bitAt i = bm.bit i := by
  rw [bitAt, decide_eq_true h, Bool.true_and]

theorem bitAt_of_ge {bm : Kbitmap} {i : ℕ} (h : 64 * bm.val.size ≤ i) : bm.bitAt i = false := by
  rw [bitAt, decide_eq_false (Nat.not_lt.mpr h), Bool.false_and]

theorem forall_bitAt_iff {bm : Kbitmap} :
    (∀ i, bm.bitAt i = false) ↔ ∀ i, i < 64 * bm.val.size → bm.bit i = false := by
  refine forall_congr' fun i => ?_
  by_cases hi : i < 64 * bm.val.size
  · rw [bitAt_of_lt hi, imp_iff_right hi]
  · exact iff_of_true (bitAt_of_ge (Nat.not_lt.mp hi)) fun h => absurd h hi

/-- **What an operation is for**: it reads inside its sources, and either every bit of the
destination is the combination of those of the sources, or nothing is changed. -/
def Combines (op : BoolOp) (dst src1 src2 : Kbitmap) : Prop :=
  ∃ err dst', op.run dst src1 src2 = some (err, dst') ∧ dst'.val.size = dst.val.size ∧
    (err = .ok → ∀ i, i < 64 * dst.val.size →
      dst'.bit i = op.eval (src1.bitAt i) (src2.bitAt i)) ∧
    (err ≠ .ok → dst' = dst)

/-- For `or` the destination is not longer than the longer source.  For the others the bits of
the destination behind the shorter source, which are not written, already are what they should
be; there are none if the destination is not longer than it.  The loop counts with an
`int`. -/
def Fitting (op : BoolOp) (dst src1 src2 : Kbitmap) : Prop :=
  match op with
  | .or => dst.val.size < max src1.val.size src2.val.size ∨
      dst.val.size = max src1.val.size src2.val.size ∧ dst.val.size < 2 ^ 31
  | op => min dst.val.size (min src1.val.size src2.val.size) < 2 ^ 31 ∧
      ∀ i, i < 64 * dst.val.size → 64 * min src1.val.size src2.val.size ≤ i →
        dst.bit i = op.eval (src1.bitAt i) (src2.bitAt i)

section Combine
variable {f : BitVec 64 → BitVec 64 → BitVec 64} {e : Bool → Bool → Bool} {op : BoolOp}
  {dst src1 src2 : Kbitmap}

/-- A function of words that works on each bit for itself. -/
def Bitwise (f : BitVec 64 → BitVec 64 → BitVec 64) (e : Bool → Bool → Bool) : Prop :=
  ∀ x y i, i < 64 → (f x y).getLsbD i = e (x.getLsbD i) (y.getLsbD i)

theorem bitwise_and : Bitwise (fun x y => x &&& y) (BoolOp.eval .and) := by
  intro x y i _
  exact BitVec.getLsbD_and

theorem bitwise_or : Bitwise (fun x y => x ||| y) (BoolOp.eval .or) := by
  intro x y i _
  exact BitVec.getLsbD_or

theorem bitwise_xor : Bitwise (fun x y => x ^^^ y) (BoolOp.eval .xor) := by
  intro x y i _
  exact BitVec.getLsbD_xor

theorem bitwise_andnot : Bitwise (fun x y => x &&& ~~~y) (BoolOp.eval .andnot) := by
  intro x y i hi
  simp [BoolOp.eval, hi]

theorem combineTurn_of_lt {i : ℕ} {s1 s2 d : Buffer (BitVec 64)} (h1 : i < s1.size)
    (h2 : i < s2.size) (hd : i < d.size) :
    combineTurn f s1 s2 i d =
      some { d with get := Function.update d.get i (f (s1.get i) (s2.get i)) } := by
  rw [combineTurn, Buffer.load_of_lt h1, Buffer.load_of_lt h2]
  exact Buffer.store_of_lt hd _

/-- The words that all three bitmaps have are written. -/
theorem combine_spec (hf : Bitwise f e) (hd : 1 ≤ dst.val.size) (h1 : 1 ≤ src1.val.size)
    (h2 : 1 ≤ src2.val.size)
    (hlimit : min dst.val.size (min src1.val.size src2.val.size) < intLimit) :
    ∃ dst', combine f dst src1 src2 = some (.ok, dst') ∧ dst'.val.size = dst.val.size ∧
      ∀ i, dst'.bit i =
        if i < 64 * min dst.val.size (min src1.val.size src2.val.size)
        then e (src1.bit i) (src2.bit i) else dst.bit i := by
  have hturn : ∀ i d, i < min dst.val.size (min src1.val.size src2.val.size) →
      d.size = dst.val.size → combineTurn f src1.val src2.val i d =
        some { d with get := Function.update d.get i (f (src1.val.get i) (src2.val.get i)) } :=
    fun i d hi hsize => combineTurn_of_lt (by omega) (by omega) (by omega)
  rcases writeLoop_spec dst.val hlimit hturn with ⟨b', hrun, hsize, hget⟩
  refine ⟨⟨b'⟩, ?_, hsize, fun i => ?_⟩
  · rw [combine, if_neg (by omega), hrun]
    rfl
  · rw [bit, bitOf, hget]
    by_cases hi : i < 64 * min dst.val.size (min src1.val.size src2.val.size)
    · rw [if_pos (by omega), if_pos hi, hf _ _ _ (Nat.mod_lt i (by decide))]
      rfl
    · rw [if_neg (by omega), if_neg hi]
      rfl

theorem combine_overflow (hd : 1 ≤ dst.val.size) (h1 : 1 ≤ src1.val.size)
    (h2 : 1 ≤ src2.val.size)
    (hlimit : intLimit ≤ min dst.val.size (min src1.val.size src2.val.size)) :
    combine f dst src1 src2 = none := by
  rw [combine, if_neg (by omega), forLoop_overflow (by decide) (by omega)]
  rfl

theorem combines_of_ok {dst' : Kbitmap} (hrun : op.run dst src1 src2 = some (.ok, dst'))
    (hsize : dst'.val.size = dst.val.size) :
    Combines op dst src1 src2 ↔ ∀ i, i < 64 * dst.val.size →
      dst'.bit i = op.eval (src1.bitAt i) (src2.bitAt i) := by
  constructor
  · rintro ⟨err, d, hrun', -, hbits, -⟩
    rw [hrun] at hrun'
    cases hrun'
    exact hbits rfl
  · intro h
    exact ⟨.ok, dst', hrun, hsize, fun _ => h, fun hne => absurd rfl hne⟩

theorem not_combines_of_none (h : op.run dst src1 src2 = none) : ¬ Combines op dst src1 src2 := by
  rintro ⟨err, d, hrun, -⟩
  rw [h] at hrun
  cases hrun

/-- The three operations that write the words all bitmaps have. -/
theorem combines_combine_iff (hf : Bitwise f op.eval) (hop : op.run = combine f)
    (hd : 1 ≤ dst.val.size) (h1 : 1 ≤ src1.val.size) (h2 : 1 ≤ src2.val.size) :
    Combines op dst src1 src2 ↔
      min dst.val.size (min src1.val.size src2.val.size) < 2 ^ 31 ∧
        ∀ i, i < 64 * dst.val.size → 64 * min src1.val.size src2.val.size ≤ i →
          dst.bit i = op.eval (src1.bitAt i) (src2.bitAt i) := by
  by_cases hlimit : min dst.val.size (min src1.val.size src2.val.size) < 2 ^ 31
  · rcases combine_spec hf hd h1 h2 hlimit with ⟨dst', hrun, hsize, hbit⟩
    rw [combines_of_ok (by rw [hop, hrun]) hsize, and_iff_right hlimit]
    constructor
    · intro h i hi hbehind
      rw [← h i hi, hbit, if_neg (by omega)]
    · intro h i hi
      rw [hbit]
      split
      · next hin => rw [bitAt_of_lt (by omega), bitAt_of_lt (by omega)]
      · next hout => exact h i hi (by omega)
  · refine iff_of_false (not_combines_of_none ?_) fun h => hlimit h.1
    rw [hop]
    exact combine_overflow hd h1 h2 (Nat.not_lt.mp hlimit)

/-- The word that `kylin_bitmap_or` writes. -/
def orWord (src1 src2 : Buffer (BitVec 64)) (i : ℕ) : BitVec 64 :=
  (if i < src1.size then src1.get i else 0#64) ||| if i < src2.size then src2.get i else 0#64

theorem orTurn_of_lt {i : ℕ} {s1 s2 d : Buffer (BitVec 64)} (hi : i < max s1.size s2.size)
    (hd : i < d.size) :
    orTurn s1 s2 i d = some { d with get := Function.update d.get i (orWord s1 s2 i) } := by
  rw [orTurn, orWord]
  by_cases h1 : i < s1.size
  · by_cases h2 : i < s2.size
    · rw [if_pos ⟨h1, h2⟩, if_pos h1, if_pos h2, combineTurn_of_lt h1 h2 hd]
    · rw [if_neg fun h => h2 h.2, if_pos h1, if_pos h1, if_neg h2, Buffer.load_of_lt h1,
        BitVec.or_zero]
      exact Buffer.store_of_lt hd _
  · have h2 : i < s2.size := by omega
    rw [if_neg fun h => h1 h.1, if_neg h1, if_neg h1, if_pos h2, Buffer.load_of_lt h2,
      BitVec.zero_or]
    exact Buffer.store_of_lt hd _

theorem orTurn_of_ge {i : ℕ} {s1 s2 : Buffer (BitVec 64)} (hi : max s1.size s2.size ≤ i)
    (d : Buffer (BitVec 64)) : orTurn s1 s2 i d = none := by
  rw [orTurn, if_neg (by omega), if_neg (by omega), Buffer.load, if_neg (by omega)]
  rfl

theorem bit_orWord (i : ℕ) :
    (orWord src1.val src2.val (i / 64)).getLsbD (i % 64) =
      BoolOp.eval .or (src1.bitAt i) (src2.bitAt i) := by
  have hword : ∀ s : Kbitmap, (if i / 64 < s.val.size then s.val.get (i / 64) else 0#64).getLsbD
      (i % 64) = s.bitAt i := by
    intro s
    by_cases hs : i < 64 * s.val.size
    · rw [if_pos (by omega), bitAt_of_lt hs]
      rfl
    · rw [if_neg (by omega), bitAt_of_ge (by omega)]
      exact BitVec.getLsbD_zero
  rw [orWord, bitwise_or _ _ _ (Nat.mod_lt i (by decide)), hword, hword]

/-- The operation that wants a destination as long as its longer source. -/
theorem combines_or_iff (hd : 1 ≤ dst.val.size) (h1 : 1 ≤ src1.val.size)
    (h2 : 1 ≤ src2.val.size) :
    Combines .or dst src1 src2 ↔ dst.val.size < max src1.val.size src2.val.size ∨
      dst.val.size = max src1.val.size src2.val.size ∧ dst.val.size < 2 ^ 31 := by
  have hsize₀ : ¬ (dst.val.size < 1 ∨ src1.val.size < 1 ∨ src2.val.size < 1) := by omega
  rcases Nat.lt_trichotomy dst.val.size (max src1.val.size src2.val.size) with hlt | heq | hgt
  · have hrun : BoolOp.run .or dst src1 src2 = some (.noent, dst) := by
      change Kbitmap.or dst src1 src2 = _
      rw [Kbitmap.or, if_neg hsize₀, if_pos (by omega)]
    refine iff_of_true ⟨.noent, dst, hrun, rfl, fun h => ?_, fun _ => rfl⟩ (Or.inl hlt)
    cases h
  · have hor : BoolOp.run .or dst src1 src2 =
        (forLoop intLimit (orTurn src1.val src2.val) dst.val.size 0 dst.val).bind fun val =>
          some (.ok, ⟨val⟩) := by
      change Kbitmap.or dst src1 src2 = _
      rw [Kbitmap.or, if_neg hsize₀, if_neg (by omega), ← heq, Nat.max_self]
      rfl
    rw [or_iff_right (by omega), and_iff_right heq]
    by_cases hlimit : dst.val.size < intLimit
    · have hturn : ∀ i d, i < dst.val.size → d.size = dst.val.size → orTurn src1.val src2.val i d =
          some { d with get := Function.update d.get i (orWord src1.val src2.val i) } :=
        fun i d hi hsize => orTurn_of_lt (by omega) (by omega)
      rcases writeLoop_spec dst.val hlimit hturn with ⟨b', hrun, hsize, hget⟩
      rw [hrun, Option.bind_some] at hor
      rw [combines_of_ok hor hsize]
      refine iff_of_true (fun i hi => ?_) hlimit
      rw [bit, bitOf, hget, if_pos (by omega), bit_orWord]
    · rw [forLoop_overflow (by decide) (by rw [Nat.zero_add]; exact Nat.not_lt.mp hlimit)] at hor
      exact iff_of_false (not_combines_of_none hor) hlimit
  · have hnone : BoolOp.run .or dst src1 src2 = none := by
      change Kbitmap.or dst src1 src2 = _
      rw [Kbitmap.or, if_neg hsize₀, if_neg (by omega), forLoop_eq_none (Nat.zero_le _)
        (by omega) fun d => orTurn_of_ge (Nat.le_refl (max src1.val.size src2.val.size)) d]
      rfl
    exact iff_of_false (not_combines_of_none hnone) (by omega)

end Combine

/-- **When an operation combines the bits** of bitmaps of any sizes. -/
theorem combines_iff (op : BoolOp) {dst src1 src2 : Kbitmap} (hd : 1 ≤ dst.val.size)
    (h1 : 1 ≤ src1.val.size) (h2 : 1 ≤ src2.val.size) :
    Combines op dst src1 src2 ↔ Fitting op dst src1 src2 := by
  cases op with
  | and => exact combines_combine_iff bitwise_and rfl hd h1 h2
  | or => exact combines_or_iff hd h1 h2
  | xor => exact combines_combine_iff bitwise_xor rfl hd h1 h2
  | andnot => exact combines_combine_iff bitwise_andnot rfl hd h1 h2

/-- A destination as long as the longer of two sources. -/
theorem combines_iff_or : Combines .or ⟨⟨2, fun _ => 0⟩⟩ ⟨⟨1, fun _ => 5⟩⟩ ⟨⟨2, fun _ => 6⟩⟩ :=
  (combines_iff .or (by decide) (by decide) (by decide)).mpr (Or.inr (by decide))

/-- A destination of two words and sources of one: what was in its second word stays, and
`kylin_bitmap_or` reads behind its second source. -/
theorem not_combines_longer :
    ¬ Combines .and ⟨⟨2, fun _ => 1⟩⟩ ⟨⟨1, fun _ => 0⟩⟩ ⟨⟨1, fun _ => 0⟩⟩ ∧
      ¬ Combines .or ⟨⟨2, fun _ => 1⟩⟩ ⟨⟨1, fun _ => 0⟩⟩ ⟨⟨1, fun _ => 0⟩⟩ := by
  have hrun : (Kbitmap.and ⟨⟨2, fun _ => 1⟩⟩ ⟨⟨1, fun _ => 0⟩⟩ ⟨⟨1, fun _ => 0⟩⟩).map
      (fun r => (r.1, r.2.bit 64)) = some (.ok, true) := by decide
  constructor
  · rintro ⟨err, dst', hand, -, hbits, -⟩
    rw [show Kbitmap.and _ _ _ = some (err, dst') from hand, Option.map_some, Option.some.injEq,
      Prod.mk.injEq] at hrun
    have h := hbits hrun.1 64 (by decide)
    rw [hrun.2] at h
    cases h
  · exact not_combines_of_none (by decide)

/-! ## The predicates -/

/-- `kylin_bitmap_is_intersects`. -/
def isIntersects (src1 src2 : Kbitmap) : Option Bool :=
  anyLoop intLimit (fun i => do
    let x ← src1.val.load i
    let y ← src2.val.load i
    some (decide (x &&& y ≠ 0))) (min src1.val.size src2.val.size) 0

/-- `kylin_bitmap_is_subset`; the test for a long child is of the size that the loop has. -/
def isSubset (parent child : Kbitmap) : Option Bool :=
  let size := min parent.val.size child.val.size
  if parent.val.size < size then some false
  else
    (anyLoop intLimit (fun i => do
      let x ← child.val.load i
      let y ← parent.val.load i
      some (decide (x &&& ~~~y ≠ 0))) size 0).map (!·)

/-- `kylin_bitmap_is_empty`. -/
def isEmpty (src : Kbitmap) : Option Bool :=
  (anyLoop intLimit (fun i => do
    let x ← src.val.load i
    some (decide (x ≠ 0))) src.val.size 0).map (!·)

/-- `kylin_bitmap_is_full`. -/
def isFull (src : Kbitmap) : Option Bool :=
  (anyLoop intLimit (fun i => do
    let x ← src.val.load i
    some (decide (~~~x ≠ 0))) src.val.size 0).map (!·)

section Scan
variable {test : ℕ → Option Bool} {g : ℕ → BitVec 64} {n : ℕ}

/-- A word is not zero when one of its bits is set. -/
theorem word_ne_zero_iff (g : ℕ → BitVec 64) (j : ℕ) :
    g j ≠ 0 ↔ ∃ i, i / 64 = j ∧ (g (i / 64)).getLsbD (i % 64) = true := by
  have hzero : ∀ t, (0 : BitVec 64).getLsbD t = false := fun t => BitVec.getLsbD_zero
  constructor
  · intro hg
    by_contra hall
    refine hg (BitVec.eq_of_getLsbD_eq fun t ht => ?_)
    have hdiv : (64 * j + t) / 64 = j := by omega
    have hmod : (64 * j + t) % 64 = t := by omega
    rw [hzero, ← Bool.not_eq_true]
    exact fun h => hall ⟨64 * j + t, hdiv, by rw [hdiv, hmod, h]⟩
  · rintro ⟨i, rfl, h⟩ hg
    rw [hg, hzero] at h
    cases h

/-- A scan for a word that is not zero finds a bit, -/
theorem anyWord_eq_true_iff (ht : ∀ j, j < n → test j = some (decide (g j ≠ 0))) :
    anyLoop intLimit test n 0 = some true ↔
      ∃ i, i < 64 * n ∧ i < 64 * 2 ^ 31 ∧ (g (i / 64)).getLsbD (i % 64) = true := by
  rw [anyLoop_eq_true_iff (t := fun j => decide (g j ≠ 0)) (fun j _ hj => ht j (by omega))
    (by decide)]
  constructor
  · rintro ⟨j, -, hj, hlim, hg⟩
    rcases (word_ne_zero_iff g j).mp (of_decide_eq_true hg) with ⟨i, rfl, hbit⟩
    have hlim' : i / 64 < 2 ^ 31 := hlim
    exact ⟨i, by omega, by omega, hbit⟩
  · rintro ⟨i, hi, hlim, hbit⟩
    refine ⟨i / 64, Nat.zero_le _, by omega, ?_, decide_eq_true ?_⟩
    · change i / 64 < 2 ^ 31
      omega
    · exact (word_ne_zero_iff g _).mpr ⟨i, rfl, hbit⟩

/-- and ends when there is none and the words can be counted. -/
theorem anyWord_eq_false_iff (ht : ∀ j, j < n → test j = some (decide (g j ≠ 0))) :
    anyLoop intLimit test n 0 = some false ↔
      n < 2 ^ 31 ∧ ∀ i, i < 64 * n → (g (i / 64)).getLsbD (i % 64) = false := by
  rw [anyLoop_eq_false_iff (t := fun j => decide (g j ≠ 0)) (fun j _ hj => ht j (by omega))
    (by decide), Nat.zero_add]
  refine and_congr Iff.rfl ⟨fun h i hi => ?_, fun h j _ hj => ?_⟩
  · rw [← Bool.not_eq_true]
    intro hbit
    refine of_decide_eq_false (h (i / 64) (Nat.zero_le _) (by omega)) ?_
    exact (word_ne_zero_iff g _).mpr ⟨i, rfl, hbit⟩
  · refine decide_eq_false fun hg => ?_
    rcases (word_ne_zero_iff g j).mp hg with ⟨i, rfl, hbit⟩
    rw [h i (by omega)] at hbit
    cases hbit

end Scan

section Predicates
variable {p c d dst : Kbitmap}

/-- Within the words that both have, and that the loop can count, `c` has a bit that `p` has
not. -/
def Misses (p c : Kbitmap) : Prop :=
  ∃ i, i < 64 * min p.val.size c.val.size ∧ i < 64 * 2 ^ 31 ∧ c.bit i = true ∧ p.bit i = false

theorem isSubset_eq (p c : Kbitmap) :
    isSubset p c = (anyLoop intLimit (fun i => do
      let x ← c.val.load i
      let y ← p.val.load i
      some (decide (x &&& ~~~y ≠ 0))) (min p.val.size c.val.size) 0).map (!·) := by
  rw [isSubset, if_neg (by omega)]

theorem test_eq (f : BitVec 64 → BitVec 64 → BitVec 64) {j : ℕ} {a b : Kbitmap}
    (ha : j < a.val.size) (hb : j < b.val.size) :
    (do let x ← a.val.load j
        let y ← b.val.load j
        some (decide (f x y ≠ 0))) = some (decide (f (a.val.get j) (b.val.get j) ≠ 0)) := by
  rw [Buffer.load_of_lt ha, Buffer.load_of_lt hb]
  rfl

theorem isSubset_eq_false_iff : isSubset p c = some false ↔ Misses p c := by
  rw [isSubset_eq, Option.map_eq_some_iff]
  have hscan := anyWord_eq_true_iff (n := min p.val.size c.val.size)
    (fun j hj => test_eq (fun x y => x &&& ~~~y) (a := c) (b := p) (j := j) (by omega) (by omega))
  constructor
  · rintro ⟨r, hr, hneg⟩
    cases r with
    | false => cases hneg
    | true =>
        rcases hscan.mp hr with ⟨i, hi, hlim, hbit⟩
        rw [bitwise_andnot _ _ _ (Nat.mod_lt i (by decide))] at hbit
        rw [BoolOp.eval, Bool.and_eq_true, Bool.not_eq_true'] at hbit
        exact ⟨i, hi, hlim, hbit⟩
  · rintro ⟨i, hi, hlim, hc, hp⟩
    refine ⟨true, hscan.mpr ⟨i, hi, hlim, ?_⟩, rfl⟩
    rw [bitwise_andnot _ _ _ (Nat.mod_lt i (by decide))]
    change (c.bit i && !p.bit i) = true
    rw [hc, hp]
    rfl

theorem isSubset_eq_true_iff :
    isSubset p c = some true ↔ min p.val.size c.val.size < 2 ^ 31 ∧ ¬ Misses p c := by
  rw [isSubset_eq, Option.map_eq_some_iff]
  have hscan := anyWord_eq_false_iff (n := min p.val.size c.val.size)
    (fun j hj => test_eq (fun x y => x &&& ~~~y) (a := c) (b := p) (j := j) (by omega) (by omega))
  have hclean : (∀ i, i < 64 * min p.val.size c.val.size →
      (c.val.get (i / 64) &&& ~~~p.val.get (i / 64)).getLsbD (i % 64) = false) ↔
      ∀ i, i < 64 * min p.val.size c.val.size → c.bit i = true → p.bit i = true := by
    refine forall_congr' fun i => imp_congr Iff.rfl ?_
    rw [bitwise_andnot _ _ _ (Nat.mod_lt i (by decide))]
    change (c.bit i && !p.bit i) = false ↔ _
    cases c.bit i <;> cases p.bit i <;> simp
  rw [hclean] at hscan
  have hmiss : min p.val.size c.val.size < 2 ^ 31 →
      ((∀ i, i < 64 * min p.val.size c.val.size → c.bit i = true → p.bit i = true) ↔
        ¬ Misses p c) := by
    intro hlim
    constructor
    · rintro h ⟨i, hi, -, hc, hp⟩
      rw [h i hi hc] at hp
      cases hp
    · intro h i hi hc
      by_contra hp
      exact h ⟨i, hi, by omega, hc, Bool.not_eq_true _ ▸ hp⟩
  constructor
  · rintro ⟨r, hr, hneg⟩
    cases r with
    | true => cases hneg
    | false => exact ⟨(hscan.mp hr).1, (hmiss (hscan.mp hr).1).mp (hscan.mp hr).2⟩
  · rintro ⟨hlim, h⟩
    exact ⟨false, hscan.mpr ⟨hlim, (hmiss hlim).mpr h⟩, rfl⟩

/-- Within words that can be counted every bit is looked at. -/
theorem misses_iff (hlim : min p.val.size c.val.size < 2 ^ 31) :
    Misses p c ↔ ∃ i, i < 64 * min p.val.size c.val.size ∧ c.bit i = true ∧ p.bit i = false := by
  constructor
  · rintro ⟨i, hi, -, h⟩
    exact ⟨i, hi, h⟩
  · rintro ⟨i, hi, h⟩
    exact ⟨i, hi, by omega, h⟩

/-- The predicate says whether two bitmaps have a bit in common. -/
theorem isIntersects_spec (hlim : min p.val.size c.val.size < 2 ^ 31) :
    ∃ r, isIntersects p c = some r ∧ (r = true ↔ ∃ i, p.bitAt i = true ∧ c.bitAt i = true) := by
  have htest : ∀ j, j < min p.val.size c.val.size → _ := fun j hj =>
    test_eq (fun x y => x &&& y) (a := p) (b := c) (j := j) (by omega) (by omega)
  have hcommon : (∃ i, p.bitAt i = true ∧ c.bitAt i = true) ↔
      ∃ i, i < 64 * min p.val.size c.val.size ∧ p.bit i = true ∧ c.bit i = true := by
    refine exists_congr fun i => ?_
    by_cases hi : i < 64 * min p.val.size c.val.size
    · rw [bitAt_of_lt (by omega), bitAt_of_lt (by omega), and_iff_right hi]
    · refine iff_of_false ?_ fun h => hi h.1
      rintro ⟨hp, hc⟩
      rcases Nat.lt_or_ge i (64 * p.val.size) with hlt | hge
      · rw [bitAt_of_ge (by omega)] at hc
        cases hc
      · rw [bitAt_of_ge hge] at hp
        cases hp
  have hbits : ∀ i, (p.val.get (i / 64) &&& c.val.get (i / 64)).getLsbD (i % 64) =
      (p.bit i && c.bit i) := fun i => bitwise_and _ _ _ (Nat.mod_lt i (by decide))
  rw [hcommon]
  by_cases h : ∃ i, i < 64 * min p.val.size c.val.size ∧ p.bit i = true ∧ c.bit i = true
  · refine ⟨true, (anyWord_eq_true_iff htest).mpr ?_, iff_of_true rfl h⟩
    rcases h with ⟨i, hi, hp, hc⟩
    exact ⟨i, hi, by omega, by rw [hbits, hp, hc]; rfl⟩
  · refine ⟨false, (anyWord_eq_false_iff htest).mpr ⟨hlim, fun i hi => ?_⟩,
      iff_of_false Bool.false_ne_true h⟩
    rw [hbits, ← Bool.not_eq_true, Bool.and_eq_true]
    exact fun hpc => h ⟨i, hi, hpc⟩

/-- The loop of `kylin_bitmap_is_empty` and `kylin_bitmap_is_full`: no word is changed by `f`
to one with bits. -/
def allWords (f : BitVec 64 → BitVec 64) (src : Kbitmap) : Option Bool :=
  (anyLoop intLimit (fun i => do
    let x ← src.val.load i
    some (decide (f x ≠ 0))) src.val.size 0).map (!·)

theorem loadTest_eq (f : BitVec 64 → BitVec 64) (p : Kbitmap) {j : ℕ} (hj : j < p.val.size) :
    (do
      let x ← p.val.load j
      some (decide (f x ≠ 0))) = some (decide (f (p.val.get j) ≠ 0)) := by
  rw [Buffer.load_of_lt hj]
  rfl

section AllWords
variable {f : BitVec 64 → BitVec 64} {v : Bool}
  (hf : ∀ x i, i < 64 → (f x).getLsbD i = (x.getLsbD i != v))
include hf

theorem allWords_eq_true_iff : allWords f p = some true ↔
    p.val.size < 2 ^ 31 ∧ ∀ i, i < 64 * p.val.size → p.bit i = v := by
  have hscan := anyWord_eq_false_iff fun j => loadTest_eq f p
  have hall : (∀ i, i < 64 * p.val.size → (f (p.val.get (i / 64))).getLsbD (i % 64) = false) ↔
      ∀ i, i < 64 * p.val.size → p.bit i = v := by
    refine forall_congr' fun i => imp_congr Iff.rfl ?_
    rw [hf _ _ (Nat.mod_lt i (by decide)), bne_eq_false_iff_eq]
    exact Iff.rfl
  rw [allWords, Option.map_eq_some_iff, ← hall, ← hscan]
  constructor
  · rintro ⟨r, hr, hneg⟩
    cases r with
    | true => cases hneg
    | false => exact hr
  · exact fun h => ⟨false, h, rfl⟩

theorem allWords_eq_false_iff : allWords f p = some false ↔
    ∃ i, i < 64 * p.val.size ∧ i < 64 * 2 ^ 31 ∧ p.bit i ≠ v := by
  have hscan := anyWord_eq_true_iff fun j => loadTest_eq f p
  have hany : (∃ i, i < 64 * p.val.size ∧ i < 64 * 2 ^ 31 ∧
      (f (p.val.get (i / 64))).getLsbD (i % 64) = true) ↔
      ∃ i, i < 64 * p.val.size ∧ i < 64 * 2 ^ 31 ∧ p.bit i ≠ v := by
    refine exists_congr fun i => and_congr Iff.rfl (and_congr Iff.rfl ?_)
    rw [hf _ _ (Nat.mod_lt i (by decide)), bne_iff_ne]
    exact Iff.rfl
  rw [allWords, Option.map_eq_some_iff, ← hany, ← hscan]
  constructor
  · rintro ⟨r, hr, hneg⟩
    cases r with
    | false => cases hneg
    | true => exact hr
  · exact fun h => ⟨true, h, rfl⟩

end AllWords

theorem isEmpty_eq_true_iff :
    isEmpty p = some true ↔ p.val.size < 2 ^ 31 ∧ ∀ i, i < 64 * p.val.size → p.bit i = false :=
  allWords_eq_true_iff fun x i _ => (Bool.bne_false (x.getLsbD i)).symm

theorem isEmpty_eq_false_iff : isEmpty p = some false ↔
    ∃ i, i < 64 * p.val.size ∧ i < 64 * 2 ^ 31 ∧ p.bit i ≠ false :=
  allWords_eq_false_iff fun x i _ => (Bool.bne_false (x.getLsbD i)).symm

theorem isFull_eq_true_iff :
    isFull p = some true ↔ p.val.size < 2 ^ 31 ∧ ∀ i, i < 64 * p.val.size → p.bit i = true :=
  allWords_eq_true_iff fun x i hi => by simp [hi]

theorem isFull_eq_false_iff : isFull p = some false ↔
    ∃ i, i < 64 * p.val.size ∧ i < 64 * 2 ^ 31 ∧ p.bit i ≠ true :=
  allWords_eq_false_iff fun x i hi => by simp [hi]

end Predicates

/-- **What the predicates are for**, on a parent `p`, a child `c`, a bitmap `d` to compare the
child with and a destination `dst` for the bits of the child that the parent has not. -/
structure SetLike (p c d dst : Kbitmap) : Prop where
  subset : ∃ r, isSubset p c = some r ∧
    (r = true ↔ ∀ i, c.bitAt i = true → p.bitAt i = true)
  intersects : ∃ r, isIntersects p c = some r ∧
    (r = true ↔ ∃ i, p.bitAt i = true ∧ c.bitAt i = true)
  trans : isSubset p c = some true → isSubset c d = some true → isSubset p d = some true
  agree : ∃ dst' r, dst.andnot c p = some (.ok, dst') ∧ isEmpty dst' = some r ∧
    isSubset p c = some r

/-- The words that parent and child both have decide, because the child has a bit there that
the parent has not, or because there is nothing behind the parent, neither in the child nor in
the destination.  Then the third bitmap has, within the words of the child, a bit that the child
has not, or behind these words none that the parent has not.  The words are counted with an
`int`. -/
def Decided (p c d dst : Kbitmap) : Prop :=
  min p.val.size c.val.size < 2 ^ 31 ∧
    (Misses p c ∨ c.val.size < 2 ^ 31 ∧
      (∀ i, 64 * p.val.size ≤ i → c.bitAt i = false ∧ dst.bitAt i = false) ∧
      (Misses c d ∨ min p.val.size d.val.size < 2 ^ 31 ∧
        ∀ i, 64 * c.val.size ≤ i → i < 64 * p.val.size → d.bitAt i = true → p.bit i = true))

section Sets
variable {p c d dst : Kbitmap}

/-- A subset is recognised when it has nothing behind the parent. -/
theorem subset_iff (hlim : min p.val.size c.val.size < 2 ^ 31) :
    (∃ r, isSubset p c = some r ∧ (r = true ↔ ∀ i, c.bitAt i = true → p.bitAt i = true)) ↔
      Misses p c ∨ ∀ i, 64 * p.val.size ≤ i → c.bitAt i = false := by
  by_cases hmiss : Misses p c
  · refine iff_of_true ⟨false, isSubset_eq_false_iff.mpr hmiss, ?_⟩ (Or.inl hmiss)
    refine iff_of_false Bool.false_ne_true fun h => ?_
    rcases hmiss with ⟨i, hi, -, hc, hp⟩
    have hbit := h i (by rw [bitAt_of_lt (by omega), hc])
    rw [bitAt_of_lt (by omega), hp] at hbit
    cases hbit
  · have hrun : isSubset p c = some true := isSubset_eq_true_iff.mpr ⟨hlim, hmiss⟩
    rw [or_iff_right hmiss, hrun]
    constructor
    · rintro ⟨r, hr, h⟩ i hi
      cases hr
      rw [← Bool.not_eq_true]
      intro hc
      have hbit := h.mp rfl i hc
      rw [bitAt_of_ge hi] at hbit
      cases hbit
    · intro h
      refine ⟨true, rfl, iff_of_true rfl fun i hc => ?_⟩
      have hi : i < 64 * p.val.size := by
        by_contra hi
        rw [h i (Nat.not_lt.mp hi)] at hc
        cases hc
      have hic : i < 64 * c.val.size := by
        by_contra hic
        rw [bitAt_of_ge (Nat.not_lt.mp hic)] at hc
        cases hc
      rw [bitAt_of_lt hi]
      by_contra hp
      refine hmiss ((misses_iff hlim).mpr ⟨i, by omega, ?_, by simpa using hp⟩)
      rwa [bitAt_of_lt hic] at hc

/-- The bits of the child that the parent has not, in a bitmap of the size of the child. -/
theorem andnot_spec (hp : 1 ≤ p.val.size) (hc : 1 ≤ c.val.size)
    (hsize : dst.val.size = c.val.size) (hlim : min p.val.size c.val.size < 2 ^ 31) :
    ∃ dst', dst.andnot c p = some (.ok, dst') ∧ dst'.val.size = c.val.size ∧
      ∀ i, dst'.bitAt i =
        if i < 64 * min p.val.size c.val.size then c.bit i && !p.bit i else dst.bitAt i := by
  have hlim' : min dst.val.size (min c.val.size p.val.size) < intLimit := by
    change _ < 2 ^ 31
    omega
  rcases combine_spec bitwise_andnot (hsize ▸ hc) hc hp hlim' with ⟨dst', hrun, hs, hbit⟩
  refine ⟨dst', hrun, hs.trans hsize, fun i => ?_⟩
  by_cases hi : i < 64 * c.val.size
  · rw [bitAt_of_lt (by omega), hbit, bitAt_of_lt (by omega)]
    exact if_congr (by omega) rfl rfl
  · rw [bitAt_of_ge (by omega), if_neg (by omega), bitAt_of_ge (by omega)]

/-- The difference is empty for a subset when it has nothing behind the parent from before. -/
theorem agree_iff (hp : 1 ≤ p.val.size) (hc : 1 ≤ c.val.size)
    (hsize : dst.val.size = c.val.size) (hlim : min p.val.size c.val.size < 2 ^ 31) :
    (∃ dst' r, dst.andnot c p = some (.ok, dst') ∧ isEmpty dst' = some r ∧
      isSubset p c = some r) ↔
      Misses p c ∨ c.val.size < 2 ^ 31 ∧ ∀ i, 64 * p.val.size ≤ i → dst.bitAt i = false := by
  rcases andnot_spec hp hc hsize hlim with ⟨dst', hrun, hs, hbit⟩
  by_cases hmiss : Misses p c
  · refine iff_of_true ⟨dst', false, hrun, ?_, isSubset_eq_false_iff.mpr hmiss⟩ (Or.inl hmiss)
    rcases hmiss with ⟨i, hi, hlt, hci, hpi⟩
    have hi' : i < 64 * dst'.val.size := by omega
    refine isEmpty_eq_false_iff.mpr ⟨i, hi', hlt, ?_⟩
    rw [← bitAt_of_lt hi', hbit, if_pos hi, hci, hpi]
    decide
  · have hsub : isSubset p c = some true := isSubset_eq_true_iff.mpr ⟨hlim, hmiss⟩
    have hempty : (∃ d r, dst.andnot c p = some (.ok, d) ∧ isEmpty d = some r ∧
        isSubset p c = some r) ↔ isEmpty dst' = some true := by
      constructor
      · rintro ⟨d, r, hd, hr, hr'⟩
        rw [hrun] at hd
        cases hd
        rw [hsub] at hr'
        cases hr'
        exact hr
      · exact fun h => ⟨dst', true, hrun, h, hsub⟩
    rw [hempty, or_iff_right hmiss, isEmpty_eq_true_iff, ← forall_bitAt_iff, hs]
    refine and_congr Iff.rfl ⟨fun h i hi => ?_, fun h i => ?_⟩
    · rw [← h i, hbit, if_neg (by omega)]
    · rw [hbit]
      split
      · next hi =>
          rw [← Bool.not_eq_true, Bool.and_eq_true, Bool.not_eq_true']
          exact fun hbits => hmiss ((misses_iff hlim).mpr ⟨i, hi, hbits⟩)
      · next hi =>
          rcases Nat.lt_or_ge i (64 * p.val.size) with hlt | hge
          · exact bitAt_of_ge (by omega)
          · exact h i hge

/-- With a child between them, a bitmap and the parent can differ behind the child only. -/
theorem not_misses_iff_behind (hpc : ¬ Misses p c) (hcd : ¬ Misses c d)
    (hlim : min p.val.size d.val.size < 2 ^ 31) : ¬ Misses p d ↔
      ∀ i, 64 * c.val.size ≤ i → i < 64 * p.val.size → d.bitAt i = true → p.bit i = true := by
  constructor
  · intro h i _ hi hd
    have hid : i < 64 * d.val.size := by
      by_contra hid
      rw [bitAt_of_ge (Nat.not_lt.mp hid)] at hd
      cases hd
    rw [bitAt_of_lt hid] at hd
    by_contra hp
    exact h ((misses_iff hlim).mpr ⟨i, by omega, hd, by simpa using hp⟩)
  · rintro h ⟨i, hi, hlt, hd, hp⟩
    rcases Nat.lt_or_ge i (64 * c.val.size) with hic | hic
    · -- the child has the bit, and so has the parent
      have hc : c.bit i = true := by
        by_contra hc
        exact hcd ⟨i, by omega, hlt, hd, by simpa using hc⟩
      exact hpc ⟨i, by omega, hlt, hc, hp⟩
    · rw [h i hic (by omega) (by rwa [bitAt_of_lt (by omega)])] at hp
      cases hp

end Sets

/-- **When the predicates are those of sets**, for bitmaps of any sizes. -/
theorem setLike_iff {p c d dst : Kbitmap} (hp : 1 ≤ p.val.size) (hc : 1 ≤ c.val.size)
    (hsize : dst.val.size = c.val.size) : SetLike p c d dst ↔ Decided p c d dst := by
  by_cases hlim : min p.val.size c.val.size < 2 ^ 31
  · constructor
    · rintro ⟨hsub, -, htrans, hagree⟩
      refine ⟨hlim, ?_⟩
      by_cases hmiss : Misses p c
      · exact Or.inl hmiss
      · have hbehind := ((subset_iff hlim).mp hsub).resolve_left hmiss
        have hempty := ((agree_iff hp hc hsize hlim).mp hagree).resolve_left hmiss
        refine Or.inr ⟨hempty.1, fun i hi => ⟨hbehind i hi, hempty.2 i hi⟩, ?_⟩
        by_cases hd : Misses c d
        · exact Or.inl hd
        · have hcd : isSubset c d = some true :=
            isSubset_eq_true_iff.mpr ⟨by omega, hd⟩
          have hpd := isSubset_eq_true_iff.mp
            (htrans (isSubset_eq_true_iff.mpr ⟨hlim, hmiss⟩) hcd)
          exact Or.inr ⟨hpd.1, (not_misses_iff_behind hmiss hd hpd.1).mp hpd.2⟩
    · rintro ⟨-, h⟩
      have hbehind : Misses p c ∨ ∀ i, 64 * p.val.size ≤ i → c.bitAt i = false :=
        h.imp_right fun h i hi => (h.2.1 i hi).1
      have hempty : Misses p c ∨
          c.val.size < 2 ^ 31 ∧ ∀ i, 64 * p.val.size ≤ i → dst.bitAt i = false :=
        h.imp_right fun h => ⟨h.1, fun i hi => (h.2.1 i hi).2⟩
      refine ⟨(subset_iff hlim).mpr hbehind, isIntersects_spec hlim, fun hpc hcd => ?_,
        (agree_iff hp hc hsize hlim).mpr hempty⟩
      have hmiss := (isSubset_eq_true_iff.mp hpc).2
      have hd := (isSubset_eq_true_iff.mp hcd).2
      rcases (h.resolve_left hmiss).2.2.resolve_left hd with ⟨hpd, hlast⟩
      exact isSubset_eq_true_iff.mpr ⟨hpd, (not_misses_iff_behind hmiss hd hpd).mpr hlast⟩
  · refine iff_of_false ?_ fun h => hlim h.1
    rintro ⟨-, -, -, dst', r, hrun, -⟩
    have hover : dst.andnot c p = none :=
      combine_overflow (by omega) hc hp (by change 2 ^ 31 ≤ _; omega)
    rw [hover] at hrun
    cases hrun

/-- A child that is shorter than its parent. -/
theorem setLike_iff_shorter :
    SetLike ⟨⟨2, fun _ => 7⟩⟩ ⟨⟨1, fun _ => 5⟩⟩ ⟨⟨1, fun _ => 4⟩⟩ ⟨⟨1, fun _ => 0⟩⟩ := by
  have hmin : min 2 1 < 2 ^ 31 := by decide
  have hone : (1 : ℕ) < 2 ^ 31 := by decide
  have htwo : (1 : ℕ) ≤ 2 := by decide
  have hsize : (1 : ℕ) = 1 := rfl
  have hiff := @setLike_iff ⟨⟨2, fun _ => 7⟩⟩ ⟨⟨1, fun _ => 5⟩⟩ ⟨⟨1, fun _ => 4⟩⟩
    ⟨⟨1, fun _ => 0⟩⟩ htwo (le_refl 1) hsize
  have hnone : ∀ i, 64 * 1 ≤ i → bitAt ⟨⟨1, fun _ => 4⟩⟩ i = false := fun i hi => bitAt_of_ge hi
  refine hiff.mpr ⟨hmin, Or.inr ⟨hone, fun i hi => ?_, Or.inr ⟨hmin, fun i hi _ hd => ?_⟩⟩⟩
  · have hi' : 64 * 1 ≤ i := le_trans (by decide) hi
    exact ⟨bitAt_of_ge hi', bitAt_of_ge hi'⟩
  · rw [hnone i hi] at hd
    cases hd

/-- A child of two words with a bit in the second is a subset of an empty parent of one
word. -/
theorem not_setLike_longer :
    isSubset ⟨⟨1, fun _ => 0⟩⟩ ⟨⟨2, fun i => if i = 1 then 1 else 0⟩⟩ = some true ∧
      ∀ d dst, ¬ SetLike ⟨⟨1, fun _ => 0⟩⟩ ⟨⟨2, fun i => if i = 1 then 1 else 0⟩⟩ d dst := by
  have hsub : isSubset ⟨⟨1, fun _ => 0⟩⟩ ⟨⟨2, fun i => if i = 1 then 1 else 0⟩⟩ = some true := by
    decide
  refine ⟨hsub, fun d dst H => ?_⟩
  rcases H.subset with ⟨r, hr, h⟩
  rw [hsub] at hr
  cases hr
  exact absurd (h.mp rfl 64 (by decide)) (by decide)

end Kylin.Kbitmap
