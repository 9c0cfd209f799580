import Mathlib.Data.List.Basic
import Mathlib.Tactic.Common

/-!
# Heaps of nodes

A heap maps the addresses in use to the objects there.  A pointer is an
`Option ℕ`, with `none` for the null pointer; a load or a store through a null or a
dangling pointer is a fault and returns `none`.

## Main definitions

* `Heap`, `Heap.load`, `Heap.modify` — objects and checked accesses to them.
* `Heap.map`, `Heap.mapAt` — the heap after the object at an address has changed.
* `Heap.alloc`, `Heap.free` — taking an address into use and giving it back.
-/

namespace Lib

/-- The objects at the addresses in use. -/
structure Heap (ν : Type) where
  get : ℕ → Option ν

namespace Heap
variable {ν : Type}

/-- The object a pointer points to. -/
def load (h : Heap ν) (p : Option ℕ) : Option ν := p.bind h.get

/-- The heap with the object at `a`, if there is one, changed by `f`. -/
def map (h : Heap ν) (a : ℕ) (f : ν → ν) : Heap ν :=
  ⟨fun b => if b = a then (h.get b).map f else h.get b⟩

/-- The heap with the object that a pointer points to, if it does, changed by `f`. -/
def mapAt (h : Heap ν) (p : Option ℕ) (f : ν → ν) : Heap ν := p.elim h fun a => h.map a f

/-- Store through a pointer. -/
def modify (h : Heap ν) (p : Option ℕ) (f : ν → ν) : Option (Heap ν) :=
  p.bind fun a => if (h.get a).isSome then some (h.map a f) else none

/-- Put a new object at the address `a`. -/
def alloc (h : Heap ν) (a : ℕ) (x : ν) : Heap ν := ⟨Function.update h.get a (some x)⟩

/-- Give an address back. -/
def free (h : Heap ν) (a : ℕ) : Option (Heap ν) :=
  if (h.get a).isSome then some ⟨Function.update h.get a none⟩ else none

variable (h : Heap ν) (a b : ℕ) (f : ν → ν)

theorem get_map : (h.map a f).get b = if b = a then (h.get b).map f else h.get b := rfl

@[simp] theorem get_map_self : (h.map a f).get a = (h.get a).map f := if_pos rfl

variable {b} in
theorem get_map_of_ne (hb : b ≠ a) : (h.map a f).get b = h.get b := if_neg hb

/-- Stores change no object's lifetime. -/
@[simp] theorem isSome_get_map : ((h.map a f).get b).isSome = (h.get b).isSome := by
  rw [get_map]
  split <;> simp

variable {a} in
theorem modify_of_isSome (ha : (h.get a).isSome) : h.modify (some a) f = some (h.map a f) :=
  if_pos ha

theorem get_mapAt (p : Option ℕ) :
    (h.mapAt p f).get b = if p = some b then (h.get b).map f else h.get b := by
  cases p with
  | none => rfl
  | some a => simp only [mapAt, Option.elim_some, get_map, Option.some.injEq, eq_comm]

variable {b} in
theorem get_mapAt_of_ne {p : Option ℕ} (hb : p ≠ some b) : (h.mapAt p f).get b = h.get b := by
  rw [get_mapAt, if_neg hb]

@[simp] theorem isSome_get_mapAt (p : Option ℕ) :
    ((h.mapAt p f).get b).isSome = (h.get b).isSome := by
  rw [get_mapAt]
  split <;> simp

theorem modify_eq {p : Option ℕ} (hp : (h.load p).isSome) : h.modify p f = some (h.mapAt p f) := by
  cases p with
  | none => cases hp
  | some a => exact h.modify_of_isSome f hp

variable {b} in
theorem get_alloc_of_ne (x : ν) (hb : b ≠ a) : (h.alloc a x).get b = h.get b :=
  Function.update_of_ne hb _ _

@[simp] theorem get_alloc_self (x : ν) : (h.alloc a x).get a = some x :=
  Function.update_self _ _ _

variable {a} in
theorem free_of_isSome (ha : (h.get a).isSome) :
    h.free a = some ⟨Function.update h.get a none⟩ := if_pos ha

end Heap

end Lib
