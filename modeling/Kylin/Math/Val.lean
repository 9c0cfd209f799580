import Mathlib.Algebra.Ring.Nat
import Mathlib.Data.Int.Notation
import Mathlib.Data.List.Basic
import Mathlib.Tactic.Common

/-!
# Generic container values

Every container of the library stores its elements as a `kmath_val_t`, a 64-bit
union read as a pointer, a signed or an unsigned integer according to a `kobj_t`
type tag (`lib/core/math/kylin_math.h`, `include/utils/kylin_object.h`).

A `void *` is modelled by what can be observed through it.  `KPtr.user c` is
memory the caller owns and `KPtr.copy c` memory the container allocated, both
with contents `c`; comparison and hash callbacks see contents only, destructors
see the pointer.  A pointer to an integer is a `Cell.int w`, where `w` is the
64-bit word that starts at that address, so that a load of fewer bytes takes its
low part.  Undefined behaviour, such as a callback on `NULL`, is `none`.

## Main definitions

* `Kobj` — the type tags; `Kobj.code` is their numeric order.
* `Cell`, `KPtr`, `KmathVal` — memory contents, pointers and the union.
* `kmathValCtor`, `kmathValDtor`, `kmathValCmp`, `kmathValCmpRaw`, `kmathValGet` —
  the five helpers the containers are written with.
-/

namespace Kylin

/-- Return codes of type `kerr_t` that the modelled functions produce; `fail` is the `-1`
of a system call. -/
inductive Kerr
  | ok | noent | nomem | busy | exist | inval | nospc | nodata | fail
  deriving DecidableEq, Repr

/-- The numeric value of a `kerr_t` code. -/
def Kerr.code : Kerr → ℕ
  | .ok => 0 | .noent => 2 | .nomem => 12 | .busy => 16 | .exist => 17 | .inval => 22
  | .nospc => 28 | .nodata => 61 | .fail => 2 ^ 32 - 1

/-- The object types `kobj_t`. -/
inductive Kobj
  | int8 | int16 | int32 | int64 | signed
  | uint8 | uint16 | uint32 | uint64 | unsigned
  | normal | string | kmap | kset | kstr | others
  deriving DecidableEq, Repr

/-- The enumerators' values; the library orders types by them. -/
def Kobj.code : Kobj → ℕ
  | .int8 => 1 | .int16 => 2 | .int32 => 3 | .int64 => 4 | .signed => 8
  | .uint8 => 9 | .uint16 => 10 | .uint32 => 11 | .uint64 => 12 | .unsigned => 16
  | .normal => 32 | .string => 33 | .kmap => 34 | .kset => 35 | .kstr => 36 | .others => 64

/-- Types at or above `KOBJ_NORMAL`, whose values are pointers compared by the
container's own callback. -/
def Kobj.IsPointer (type : Kobj) : Prop := Kobj.normal.code ≤ type.code

instance (type : Kobj) : Decidable type.IsPointer :=
  inferInstanceAs (Decidable (_ ≤ _))

/-- The types whose values need no destructor. -/
def Kobj.IsInt : Kobj → Prop
  | .int8 | .int16 | .int32 | .int64 | .uint8 | .uint16 | .uint32 | .uint64 => True
  | _ => False

instance (type : Kobj) : Decidable type.IsInt := by
  cases type <;> unfold Kobj.IsInt <;> infer_instance

/-- The contents of a piece of memory: an object, or the word at an integer's
address. -/
inductive Cell (α : Type)
  | obj (a : α)
  | int (w : BitVec 64)
  deriving DecidableEq, Repr

/-- A `void *`. -/
inductive KPtr (α : Type)
  /-- `NULL`. -/
  | null
  /-- Memory of the caller. -/
  | user (c : Cell α)
  /-- Memory the container allocated or holds itself. -/
  | copy (c : Cell α)
  /-- A non-zero integer read as an address. -/
  | raw (w : BitVec 64)
  deriving DecidableEq, Repr

/-- The union `kmath_val_t`: the last member written is a pointer or a word. -/
inductive KmathVal (α : Type)
  | v (p : KPtr α)
  | word (w : BitVec 64)
  deriving DecidableEq, Repr

variable {α : Type}

namespace KPtr

/-- Read through a pointer. -/
def deref : KPtr α → Option (Cell α)
  | .user c | .copy c => some c
  | .null | .raw _ => none

/-- Load the word an integer pointer points to. -/
def load (p : KPtr α) : Option (BitVec 64) :=
  match p.deref with
  | some (.int w) => some w
  | _ => none

@[simp] theorem deref_user (c : Cell α) : (user c).deref = some c := rfl
@[simp] theorem deref_copy (c : Cell α) : (copy c).deref = some c := rfl

end KPtr

namespace KmathVal

/-- The union of a zero-filled node. -/
def zero : KmathVal α := .word 0

/-- The member `v`. -/
def ptr : KmathVal α → KPtr α
  | .v p => p
  | .word w => if w = 0 then .null else .raw w

/-- The members `s64` and `u64`: the same 64 bits.  An address used as an integer
has no value here. -/
def bits : KmathVal α → Option (BitVec 64)
  | .v _ => none
  | .word w => some w

@[simp] theorem ptr_v (p : KPtr α) : (v p).ptr = p := rfl

end KmathVal

/-- `kmath_val_ctor`: store the element `v` points to.  `ctor` says whether the
container has a value constructor; the copy it makes holds the same contents. -/
def kmathValCtor (v : KPtr α) (type : Kobj) (ctor : Bool) : Option (KmathVal α) :=
  match type with
  | .int8 => v.load.map fun w => .word ((w.setWidth 8).signExtend 64)
  | .int16 => v.load.map fun w => .word ((w.setWidth 16).signExtend 64)
  | .int32 => v.load.map fun w => .word ((w.setWidth 32).signExtend 64)
  | .int64 => v.load.map fun w => .word w
  | .uint8 => v.load.map fun w => .word ((w.setWidth 8).setWidth 64)
  | .uint16 => v.load.map fun w => .word ((w.setWidth 16).setWidth 64)
  | .uint32 => v.load.map fun w => .word ((w.setWidth 32).setWidth 64)
  | .uint64 => v.load.map fun w => .word w
  | .string | .kmap | .kset | .kstr | .others =>
      if ctor then v.deref.map fun c => .v (.copy c) else some (.v v)
  | .signed | .unsigned | .normal => some (.v v)

/-- `kmath_val_dtor`: the pointers handed to a destructor. -/
def kmathValDtor (val : KmathVal α) (type : Kobj) : List (KPtr α) :=
  match type with
  | .int8 | .int16 | .int32 | .int64 | .uint8 | .uint16 | .uint32 | .uint64 => []
  | _ => [val.ptr]

/-- `kmath_val_cmp`.  The branch for types between `KOBJ_UNSIGNED` and
`KOBJ_NORMAL` compares two stored addresses as `double`s; it has no meaning here. -/
def kmathValCmp (v1 v2 : KmathVal α) (type : Kobj) (cmp : Cell α → Cell α → ℤ) : Option ℤ :=
  if type.code < Kobj.normal.code then
    if type.code < Kobj.signed.code then do
      let a ← v1.bits
      let b ← v2.bits
      some (if b.toInt < a.toInt then 1 else -1)
    else if type.code < Kobj.unsigned.code then do
      let a ← v1.bits
      let b ← v2.bits
      some (if b.toNat < a.toNat then 1 else -1)
    else none
  else do
    let a ← v1.ptr.deref
    let b ← v2.ptr.deref
    some (cmp a b)

/-- `kmath_val_cmp_raw`.  For unsigned types the source compares `s64` with a
`uint64_t`, which converts both to unsigned. -/
def kmathValCmpRaw (v1 : KmathVal α) (v2 : KPtr α) (type : Kobj)
    (cmp : Cell α → Cell α → ℤ) : Option ℤ :=
  if type.code < Kobj.normal.code then
    if type.code < Kobj.signed.code then do
      let a ← v1.bits
      let b ← v2.load
      some (if b.toInt < a.toInt then 1 else -1)
    else if type.code < Kobj.unsigned.code then do
      let a ← v1.bits
      let b ← v2.load
      some (if b.toNat < a.toNat then 1 else -1)
    else none
  else do
    let a ← v1.ptr.deref
    let b ← v2.deref
    some (cmp a b)

/-- Two words never compare equal. -/
theorem compare_words_ne_zero {x y : Option (BitVec 64)} {p : BitVec 64 → BitVec 64 → Prop}
    [DecidableRel p] :
    (x.bind fun a => y.bind fun b => some (if p b a then (1 : ℤ) else -1)) ≠ some 0 := by
  intro h
  obtain ⟨a, -, h⟩ := Option.bind_eq_some_iff.mp h
  obtain ⟨b, -, h⟩ := Option.bind_eq_some_iff.mp h
  split at h <;> cases h

/-- `kmath_val_get`: a pointer to the stored integer, or the stored pointer. -/
def kmathValGet (val : KmathVal α) (type : Kobj) : KPtr α :=
  match type, val with
  | .int8, .word w | .int16, .word w | .int32, .word w | .int64, .word w
  | .uint8, .word w | .uint16, .word w | .uint32, .word w | .uint64, .word w => .copy (.int w)
  | _, val => val.ptr

/-! ## Pointer types -/

section Pointer
variable {type : Kobj}

/-- A stored element of a pointer type has the contents it was built from. -/
theorem kmathValCtor_of_isPointer (h : type.IsPointer) (c : Cell α) (ctor : Bool) :
    ∃ p, kmathValCtor (.user c) type ctor = some (.v p) ∧ p.deref = some c := by
  cases type <;> simp [Kobj.IsPointer, Kobj.code] at h <;> cases ctor <;>
    simp [kmathValCtor]

/-- Without a value constructor the caller's pointer itself is stored. -/
theorem kmathValCtor_no_ctor (h : type.IsPointer) (v : KPtr α) :
    kmathValCtor v type false = some (.v v) := by
  cases type <;> simp [Kobj.IsPointer, Kobj.code] at h <;> simp [kmathValCtor]

@[simp] theorem kmathValGet_of_isPointer (h : type.IsPointer) (val : KmathVal α) :
    kmathValGet val type = val.ptr := by
  cases type <;> simp [Kobj.IsPointer, Kobj.code] at h <;> cases val <;> rfl

theorem kmathValDtor_of_isPointer (h : type.IsPointer) (val : KmathVal α) :
    kmathValDtor val type = [val.ptr] := by
  cases type <;> simp [Kobj.IsPointer, Kobj.code] at h <;> rfl

theorem kmathValCmp_of_isPointer (h : type.IsPointer) {v1 v2 : KmathVal α} {a b : Cell α}
    (h1 : v1.ptr.deref = some a) (h2 : v2.ptr.deref = some b) (cmp : Cell α → Cell α → ℤ) :
    kmathValCmp v1 v2 type cmp = some (cmp a b) := by
  have hn : ¬ type.code < Kobj.normal.code := Nat.not_lt.mpr h
  simp [kmathValCmp, hn, h1, h2]

theorem kmathValCmpRaw_of_isPointer (h : type.IsPointer) {v1 : KmathVal α} {v2 : KPtr α}
    {a b : Cell α} (h1 : v1.ptr.deref = some a) (h2 : v2.deref = some b)
    (cmp : Cell α → Cell α → ℤ) : kmathValCmpRaw v1 v2 type cmp = some (cmp a b) := by
  have hn : ¬ type.code < Kobj.normal.code := Nat.not_lt.mpr h
  simp [kmathValCmpRaw, hn, h1, h2]

end Pointer

end Kylin
