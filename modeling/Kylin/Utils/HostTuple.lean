import Kylin.Utils.Addr
import Mathlib.Data.BitVec
import Mathlib.Order.Defs.Unbundled

/-!
# Host tuples

The protocol, two addresses and two ports of a connection (`include/utils/kylin_addr.h`).  The
functions on them name the fields one by one, and of an address as many words as the family has.

All of them see a tuple through `view`: two tuples are equal if their views are, and match under a
mask if their views do where the mask has ones; `kylin_host_tuple_invert` exchanges the two sides.

## Main definitions

* `KylinHost`, `HostTuple` — the data.
* `invert`, `srcEqual`, `dstEqual`, `equal`, `maskCmp` — the functions.
* `View`, `view` — what they see of a tuple.
* `Clears`, `Laws` — masks with fewer bits, and how the functions go together.

## Main results

* `view_invert`, `equal_eq`, `maskCmp_eq` — the functions, by the views.
* `laws` — the laws hold, for every family.
-/

namespace Kylin

open Lib Kaddr

/-- `struct kylin_host`. -/
@[ext]
structure KylinHost where
  addr : Kaddr
  port : BitVec 16
  deriving DecidableEq

/-- `struct kylin_host_tuple`. -/
@[ext]
structure HostTuple where
  proto : BitVec 8
  src : KylinHost
  dst : KylinHost
  deriving DecidableEq

namespace HostTuple

/-- The value of a condition. -/
def flag (p : Prop) [Decidable p] : ℤ := if p then 1 else 0

/-- `kylin_host_tuple_invert`; `addr` is what the stack has in the variable of that name. -/
def invert (o : Order) (af : UInt8) (addr : Kaddr) (tuple : HostTuple) : HostTuple :=
  let port := tuple.src.port
  let tuple := { tuple with src := { tuple.src with port := tuple.dst.port } }
  let tuple := { tuple with dst := { tuple.dst with port := port } }
  if af = afInet then
    let addrx := addr32 o tuple.src.addr 0
    let tuple := { tuple with
      src := { tuple.src with addr := setAddr32 o tuple.src.addr 0 (addr32 o tuple.dst.addr 0) } }
    { tuple with dst := { tuple.dst with addr := setAddr32 o tuple.dst.addr 0 addrx } }
  else
    let addr := addrCopy o af addr tuple.src.addr
    let tuple := { tuple with
      src := { tuple.src with addr := addrCopy o af tuple.src.addr tuple.dst.addr } }
    { tuple with dst := { tuple.dst with addr := addrCopy o af tuple.dst.addr addr } }

/-- `kylin_host_tuple_src_equal`. -/
def srcEqual (o : Order) (af : UInt8) (t1 t2 : HostTuple) : ℤ :=
  if t1.proto = t2.proto then
    if t1.src.port = t2.src.port then
      if af = afInet then flag (addr32 o t1.src.addr 0 = addr32 o t2.src.addr 0)
      else
        flag (addr32 o t1.src.addr 0 = addr32 o t2.src.addr 0 ∧
          addr32 o t1.src.addr 1 = addr32 o t2.src.addr 1 ∧
          addr32 o t1.src.addr 2 = addr32 o t2.src.addr 2 ∧
          addr32 o t1.src.addr 3 = addr32 o t2.src.addr 3)
    else 0
  else 0

/-- `kylin_host_tuple_dst_equal`. -/
def dstEqual (o : Order) (af : UInt8) (t1 t2 : HostTuple) : ℤ :=
  if t1.proto = t2.proto then
    if t1.dst.port = t2.dst.port then
      if af = afInet then flag (addr32 o t1.dst.addr 0 = addr32 o t2.dst.addr 0)
      else
        flag (addr32 o t1.dst.addr 0 = addr32 o t2.dst.addr 0 ∧
          addr32 o t1.dst.addr 1 = addr32 o t2.dst.addr 1 ∧
          addr32 o t1.dst.addr 2 = addr32 o t2.dst.addr 2 ∧
          addr32 o t1.dst.addr 3 = addr32 o t2.dst.addr 3)
    else 0
  else 0

/-- `kylin_host_tuple_equal`. -/
def equal (o : Order) (af : UInt8) (t1 t2 : HostTuple) : ℤ :=
  flag (srcEqual o af t1 t2 ≠ 0 ∧ dstEqual o af t1 t2 ≠ 0)

/-- `(x ^ y) & mask`, as a condition. -/
def Differ {w : ℕ} (x y mask : BitVec w) : Prop := (x ^^^ y) &&& mask ≠ 0

instance {w : ℕ} (x y mask : BitVec w) : Decidable (Differ x y mask) :=
  inferInstanceAs (Decidable (_ ≠ _))

/-- `kylin_host_tuple_mask_cmp`. -/
def maskCmp (o : Order) (af : UInt8) (t tuple mask : HostTuple) : ℤ :=
  let srcDiffer i := Differ (addr32 o t.src.addr i) (addr32 o tuple.src.addr i)
    (addr32 o mask.src.addr i)
  let dstDiffer i := Differ (addr32 o t.dst.addr i) (addr32 o tuple.dst.addr i)
    (addr32 o mask.dst.addr i)
  if ¬ (Differ t.proto tuple.proto mask.proto ∨ Differ t.src.port tuple.src.port mask.src.port ∨
      Differ t.dst.port tuple.dst.port mask.dst.port) then
    if af = afInet then flag (¬ (srcDiffer 0 ∨ dstDiffer 0))
    else
      flag (¬ (srcDiffer 0 ∨ dstDiffer 0 ∨ srcDiffer 1 ∨ dstDiffer 1 ∨ srcDiffer 2 ∨ dstDiffer 2 ∨
        srcDiffer 3 ∨ dstDiffer 3))
  else 0

/-! ## Views -/

/-- The fields that are compared; behind the address there are zeros. -/
@[ext]
structure View where
  proto : BitVec 8
  srcPort : BitVec 16
  dstPort : BitVec 16
  src : ℕ → BitVec 32
  dst : ℕ → BitVec 32

/-- The words of an address. -/
def words (o : Order) (af : UInt8) (a : Kaddr) : ℕ → BitVec 32 := fun i =>
  if 4 * i < width af then addr32 o a i else 0

def view (o : Order) (af : UInt8) (t : HostTuple) : View :=
  ⟨t.proto, t.src.port, t.dst.port, words o af t.src.addr, words o af t.dst.addr⟩

namespace View

/-- The two sides exchanged. -/
def swap (v : View) : View := ⟨v.proto, v.dstPort, v.srcPort, v.dst, v.src⟩

/-- What a mask leaves of a view. -/
def mask (m v : View) : View where
  proto := v.proto &&& m.proto
  srcPort := v.srcPort &&& m.srcPort
  dstPort := v.dstPort &&& m.dstPort
  src := fun i => v.src i &&& m.src i
  dst := fun i => v.dst i &&& m.dst i

@[simp] theorem swap_swap (v : View) : v.swap.swap = v := rfl

theorem swap_mask (m v : View) : (mask m v).swap = mask m.swap v.swap := rfl

theorem mask_mask (m k v : View) : mask k (mask m v) = mask (mask k m) v := by
  simp [mask, BitVec.and_assoc]

end View

section Views
variable {o : Order} {af : UInt8} {s t m : HostTuple} {a b : Kaddr}

theorem lt_width_iff {i : ℕ} : 4 * i < width af ↔ i < if af = afInet then 1 else 4 := by
  rw [width]
  split <;> omega

theorem words_eq_iff : words o af a = words o af b ↔
    ∀ i, (i < if af = afInet then 1 else 4) → addr32 o a i = addr32 o b i := by
  rw [funext_iff]
  refine forall_congr' fun i => ?_
  rw [words, words, ← lt_width_iff]
  split
  · next h => simp [h]
  · next h => simp [h]

theorem forall_lt_four (f : ℕ → Prop) : (∀ i, i < 4 → f i) ↔ f 0 ∧ f 1 ∧ f 2 ∧ f 3 := by
  constructor
  · exact fun h => ⟨h 0 (by omega), h 1 (by omega), h 2 (by omega), h 3 (by omega)⟩
  · rintro ⟨h₀, h₁, h₂, h₃⟩ i hi
    rcases (by omega : i = 0 ∨ i = 1 ∨ i = 2 ∨ i = 3) with rfl | rfl | rfl | rfl <;> assumption

theorem flag_congr {p q : Prop} [Decidable p] [Decidable q] (h : p ↔ q) : flag p = flag q :=
  if_congr h rfl rfl

theorem flag_ne_zero_iff {p : Prop} [Decidable p] : flag p ≠ 0 ↔ p := by simp [flag]

theorem flag_eq_one_iff {p : Prop} [Decidable p] : flag p = 1 ↔ p := by simp [flag]

theorem not_differ_iff {w : ℕ} {x y mask : BitVec w} :
    ¬ Differ x y mask ↔ x &&& mask = y &&& mask := by
  have hxor : (x ^^^ y) &&& mask = (x &&& mask) ^^^ (y &&& mask) := by
    ext i hi
    simp [Bool.and_xor_distrib_right]
  rw [Differ, not_not, hxor]
  exact BitVec.xor_eq_zero_iff

/-- The words of a copy are those of its source. -/
theorem words_addrCopy : words o af (addrCopy o af a b) = words o af b := by
  funext i
  rw [words, words]
  split
  · next h =>
      apply (Order.load_inj _ _ _ _ _ _).mpr
      apply slice_congr
      intro j hj
      have hwidth : width af = 4 ∨ width af = 16 := by
        rw [width]
        split <;> simp
      rw [byte_addrCopy, if_pos (by omega)]
  · rfl

theorem invert_eq (o : Order) (af : UInt8) (addr : Kaddr) (t : HostTuple) :
    invert o af addr t = ⟨t.proto, ⟨addrCopy o af t.src.addr t.dst.addr, t.dst.port⟩,
      ⟨addrCopy o af t.dst.addr t.src.addr, t.src.port⟩⟩ := by
  simp only [invert]
  split
  · next h => simp only [addrCopy, h, if_true]
  · -- what was on the stack is overwritten
    have hcopy : addrCopy o af t.dst.addr (addrCopy o af addr t.src.addr) =
        addrCopy o af t.dst.addr t.src.addr := by
      apply ext_byte
      intro j _
      simp only [byte_addrCopy]
      split <;> rfl
    rw [hcopy]

/-- **Inversion exchanges the sides of the view.** -/
theorem view_invert (addr : Kaddr) : view o af (invert o af addr t) = (view o af t).swap := by
  rw [invert_eq]
  simp only [view, words_addrCopy, View.swap]

theorem invert_invert (addr addr' : Kaddr) : invert o af addr' (invert o af addr t) = t := by
  have hback : ∀ a b : Kaddr, addrCopy o af (addrCopy o af a b) (addrCopy o af b a) = a := by
    intro a b
    apply ext_byte
    intro j _
    simp only [byte_addrCopy]
    split <;> rfl
  rw [invert_eq, invert_eq]
  simp only [hback]

/-- The tests of one side: the protocol, a port, and an address word by word. -/
theorem sideEqual_eq {p q : Prop} [Decidable p] [Decidable q]
    [Decidable (p ∧ q ∧ words o af a = words o af b)] :
    (if p then
      if q then
        if af = afInet then flag (addr32 o a 0 = addr32 o b 0)
        else
          flag (addr32 o a 0 = addr32 o b 0 ∧ addr32 o a 1 = addr32 o b 1 ∧
            addr32 o a 2 = addr32 o b 2 ∧ addr32 o a 3 = addr32 o b 3)
      else 0
    else 0) = flag (p ∧ q ∧ words o af a = words o af b) := by
  have hwords : words o af a = words o af b ↔ if af = afInet then addr32 o a 0 = addr32 o b 0
      else addr32 o a 0 = addr32 o b 0 ∧ addr32 o a 1 = addr32 o b 1 ∧
        addr32 o a 2 = addr32 o b 2 ∧ addr32 o a 3 = addr32 o b 3 := by
    rw [words_eq_iff]
    split
    · simp
    · exact forall_lt_four fun i => addr32 o a i = addr32 o b i
  by_cases hp : p
  · by_cases hq : q
    · rw [if_pos hp, if_pos hq]
      split
      · next h =>
          rw [if_pos h] at hwords
          exact flag_congr (by simp [hwords, hp, hq])
      · next h =>
          rw [if_neg h] at hwords
          exact flag_congr (by simp [hwords, hp, hq])
    · simp [flag, hq]
  · simp [flag, hp]

open Classical in
theorem srcEqual_eq : srcEqual o af s t = flag ((view o af s).proto = (view o af t).proto ∧
    (view o af s).srcPort = (view o af t).srcPort ∧ (view o af s).src = (view o af t).src) :=
  sideEqual_eq

open Classical in
theorem dstEqual_eq : dstEqual o af s t = flag ((view o af s).proto = (view o af t).proto ∧
    (view o af s).dstPort = (view o af t).dstPort ∧ (view o af s).dst = (view o af t).dst) :=
  sideEqual_eq

open Classical in
/-- **Two tuples are equal if their views are.** -/
theorem equal_eq : equal o af s t = flag (view o af s = view o af t) := by
  rw [equal, srcEqual_eq, dstEqual_eq]
  apply flag_congr
  rw [flag_ne_zero_iff, flag_ne_zero_iff, View.ext_iff]
  tauto

open Classical in
/-- **Two tuples match if their views do under that of the mask.** -/
theorem maskCmp_eq : maskCmp o af s t m =
    flag ((view o af m).mask (view o af s) = (view o af m).mask (view o af t)) := by
  have hside : ∀ a b k : Kaddr,
      (fun i => words o af a i &&& words o af k i) = (fun i => words o af b i &&& words o af k i) ↔
      ∀ i, (i < if af = afInet then 1 else 4) →
        ¬ Differ (addr32 o a i) (addr32 o b i) (addr32 o k i) := by
    intro a b k
    rw [funext_iff]
    refine forall_congr' fun i => ?_
    rw [not_differ_iff, words, words, words, ← lt_width_iff]
    split
    · next h => simp [h]
    · next h => simp [h]
  simp only [maskCmp, View.mask, view, View.mk.injEq, hside, ← not_differ_iff]
  split
  · next hfields =>
      simp only [not_or] at hfields
      split
      · next h => exact flag_congr (by simp [hfields])
      · next h =>
          refine flag_congr ?_
          rw [forall_lt_four, forall_lt_four]
          tauto
  · next hfields =>
      rw [flag, if_neg]
      tauto

theorem equal_eq_one_iff : equal o af s t = 1 ↔ view o af s = view o af t := by
  classical
  rw [equal_eq]
  exact flag_eq_one_iff

theorem maskCmp_eq_one_iff : maskCmp o af s t m = 1 ↔
    (view o af m).mask (view o af s) = (view o af m).mask (view o af t) := by
  classical
  rw [maskCmp_eq]
  exact flag_eq_one_iff

end Views

/-! ## Laws -/

/-- The mask of all ones. -/
def ones : HostTuple := ⟨0xff, ⟨top, 0xffff⟩, ⟨top, 0xffff⟩⟩

/-- `m'` is `m` with some bits cleared. -/
structure Clears (o : Order) (m m' : HostTuple) : Prop where
  proto : m.proto &&& m'.proto = m'.proto
  srcPort : m.src.port &&& m'.src.port = m'.src.port
  dstPort : m.dst.port &&& m'.dst.port = m'.dst.port
  src : ∀ i, addr32 o m.src.addr i &&& addr32 o m'.src.addr i = addr32 o m'.src.addr i
  dst : ∀ i, addr32 o m.dst.addr i &&& addr32 o m'.dst.addr i = addr32 o m'.dst.addr i

/-- **How the functions go together.** -/
structure Laws (o : Order) (af : UInt8) : Prop where
  invert_invert : ∀ addr addr' t, invert o af addr' (invert o af addr t) = t
  srcEqual_invert : ∀ addr addr' s t,
    srcEqual o af (invert o af addr s) (invert o af addr' t) = dstEqual o af s t
  dstEqual_invert : ∀ addr addr' s t,
    dstEqual o af (invert o af addr s) (invert o af addr' t) = srcEqual o af s t
  equivalence : Equivalence fun s t => equal o af s t = 1
  equal_invert : ∀ addr addr' s t,
    equal o af (invert o af addr s) (invert o af addr' t) = equal o af s t
  maskCmp_ones : ∀ s t, maskCmp o af s t ones = equal o af s t
  maskCmp_equivalence : ∀ m, Equivalence fun s t => maskCmp o af s t m = 1
  maskCmp_clears : ∀ m m' s t, Clears o m m' → maskCmp o af s t m = 1 → maskCmp o af s t m' = 1
  maskCmp_invert : ∀ addr addr' addr'' s t m,
    maskCmp o af (invert o af addr s) (invert o af addr' t) (invert o af addr'' m) =
      maskCmp o af s t m

section Laws
variable {o : Order} {af : UInt8} {s t m m' : HostTuple}

theorem View.swap_inj {u v : View} : u.swap = v.swap ↔ u = v :=
  ⟨fun h => by rw [← u.swap_swap, h, v.swap_swap], fun h => by rw [h]⟩

/-- A mask of ones leaves a view as it is. -/
theorem mask_ones : (view o af ones).mask (view o af t) = view o af t := by
  have hword : ∀ a i, words o af a i &&& words o af top i = words o af a i := by
    intro a i
    have h32 : o.load 4 (fun _ => (0xff : UInt8)) 0 = BitVec.allOnes 32 := by cases o <;> decide
    rw [words, words]
    split
    · next h =>
        have htop : addr32 o top i = BitVec.allOnes 32 := by
          refine (addr32_eq_iff h32 i).mpr fun j hj => dif_pos ?_
          rw [width] at h
          split at h <;> omega
        rw [htop, BitVec.and_allOnes]
    · exact BitVec.and_zero
  have hproto : ∀ x : BitVec 8, x &&& 0xff = x := fun x => BitVec.and_allOnes
  have hport : ∀ x : BitVec 16, x &&& 0xffff = x := fun x => BitVec.and_allOnes
  simp only [View.mask, view, ones, hword, hproto, hport]

/-- Fewer bits in a mask are fewer in its view. -/
theorem Clears.mask_view (h : Clears o m m') :
    (view o af m').mask (view o af m) = view o af m' := by
  have hword : ∀ a k : Kaddr, (∀ i, addr32 o a i &&& addr32 o k i = addr32 o k i) →
      ∀ i, words o af a i &&& words o af k i = words o af k i := by
    intro a k hall i
    rw [words, words]
    split
    · exact hall i
    · exact BitVec.and_zero
  simp only [View.mask, view, h.proto, h.srcPort, h.dstPort, hword _ _ h.src, hword _ _ h.dst]

theorem maskCmp_clears (h : Clears o m m') (heq : maskCmp o af s t m = 1) :
    maskCmp o af s t m' = 1 := by
  rw [maskCmp_eq_one_iff] at *
  have hview : (view o af m').mask (view o af m) = view o af m' := h.mask_view
  rw [← hview, ← View.mask_mask, ← View.mask_mask, heq]

end Laws

open Classical in
/-- **The laws hold**, for every family and in both byte orders. -/
theorem laws (o : Order) (af : UInt8) : Laws o af where
  invert_invert _ _ _ := invert_invert _ _
  srcEqual_invert _ _ _ _ := by
    rw [srcEqual_eq, dstEqual_eq]
    exact flag_congr (by simp only [view_invert, View.swap])
  dstEqual_invert _ _ _ _ := by
    rw [srcEqual_eq, dstEqual_eq]
    exact flag_congr (by simp only [view_invert, View.swap])
  equivalence := by
    simp only [equal_eq_one_iff]
    exact eq_equivalence.comap (view o af)
  equal_invert _ _ _ _ := by
    rw [equal_eq, equal_eq]
    exact flag_congr (by simp only [view_invert, View.swap_inj])
  maskCmp_ones _ _ := by rw [maskCmp_eq, equal_eq, mask_ones, mask_ones]
  maskCmp_equivalence m := by
    simp only [maskCmp_eq_one_iff]
    exact eq_equivalence.comap fun t => (view o af m).mask (view o af t)
  maskCmp_clears _ _ _ _ := maskCmp_clears
  maskCmp_invert _ _ _ _ _ _ := by
    rw [maskCmp_eq, maskCmp_eq]
    exact flag_congr (by simp only [view_invert, ← View.swap_mask, View.swap_inj])

end HostTuple

end Kylin
