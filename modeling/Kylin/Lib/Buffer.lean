import Mathlib.Data.List.Basic
import Mathlib.Data.Nat.ModEq
import Mathlib.Tactic.Common

/-!
# Bounded blocks of memory, read straight and read round

A `Buffer β` is a block of `size` cells.  Reads and writes outside it are faults,
so they return `none`; a program that never yields `none` stays inside its block.

The contents are a function on indices, and the two views of it used here are
lists: `slice g off n` is the `n` cells from `off`, and `circle g N o n` the `n`
cells from `o` counted round a block of `N`, which is what a queue kept in a ring
of cells holds.

## Main definitions

* `Buffer`, `Buffer.load`, `Buffer.store`, `Buffer.read`, `Buffer.write` — the block
  and its checked accesses.
* `overlay` — contents after a list has been copied over them.
* `slice`, `circle` — straight and circular views.
* `circle_overwrite`, `circle_overlay` — appending to a circular view by writing
  after it.
-/

namespace Lib

variable {β : Type}

/-- A block of `size` cells. -/
structure Buffer (β : Type) where
  size : ℕ
  get : ℕ → β

/-- Contents with the list `src` copied to offset `off`. -/
def overlay (g : ℕ → β) (off : ℕ) (src : List β) : ℕ → β := fun i =>
  if off ≤ i then (src[i - off]?).getD (g i) else g i

/-- The `n` cells from `off`. -/
def slice (g : ℕ → β) (off n : ℕ) : List β := (List.range n).map fun i => g (off + i)

/-- The `n` cells from `o`, counted round a block of `N`. -/
def circle (g : ℕ → β) (N o n : ℕ) : List β := (List.range n).map fun i => g ((o + i) % N)

namespace Buffer

/-- Read one cell. -/
def load (b : Buffer β) (i : ℕ) : Option β := if i < b.size then some (b.get i) else none

/-- Write one cell. -/
def store (b : Buffer β) (i : ℕ) (x : β) : Option (Buffer β) :=
  if i < b.size then some { b with get := Function.update b.get i x } else none

/-- Read `n` cells from `off`. -/
def read (b : Buffer β) (off n : ℕ) : Option (List β) :=
  if off + n ≤ b.size then some (slice b.get off n) else none

/-- Copy a list to offset `off`. -/
def write (b : Buffer β) (off : ℕ) (src : List β) : Option (Buffer β) :=
  if off + src.length ≤ b.size then some { b with get := overlay b.get off src } else none

/-- The contents translated. -/
def map {γ : Type} (f : β → γ) (b : Buffer β) : Buffer γ := ⟨b.size, fun i => f (b.get i)⟩

theorem load_of_lt {b : Buffer β} {i : ℕ} (h : i < b.size) : b.load i = some (b.get i) :=
  if_pos h

theorem store_of_lt {b : Buffer β} {i : ℕ} (h : i < b.size) (x : β) :
    b.store i x = some { b with get := Function.update b.get i x } := if_pos h

theorem read_of_le {b : Buffer β} {off n : ℕ} (h : off + n ≤ b.size) :
    b.read off n = some (slice b.get off n) := if_pos h

theorem write_of_le {b : Buffer β} {off : ℕ} {src : List β} (h : off + src.length ≤ b.size) :
    b.write off src = some { b with get := overlay b.get off src } := if_pos h

theorem size_of_write {b b' : Buffer β} {off : ℕ} {src : List β}
    (h : b.write off src = some b') : b'.size = b.size := by
  rw [write] at h
  split at h
  · cases h
    rfl
  · cases h

theorem load_map {γ : Type} (f : β → γ) (b : Buffer β) (i : ℕ) :
    (b.map f).load i = (b.load i).map f := by
  by_cases hi : i < b.size
  · simp [load, map, hi]
  · simp [load, map, hi]

theorem store_map {γ : Type} (f : β → γ) (b : Buffer β) (i : ℕ) (x : β) :
    (b.map f).store i (f x) = (b.store i x).map (map f) := by
  by_cases hi : i < b.size
  · simp only [store, map, hi, if_true, Option.map_some, Option.some.injEq, Buffer.mk.injEq,
      true_and]
    exact (Function.comp_update f b.get i x).symm
  · simp [store, map, hi]

end Buffer

/-! ## Overlays -/

section Overlay
variable (g : ℕ → β) (src : List β) {off i : ℕ}

theorem overlay_of_lt (h : i < off) : overlay g off src i = g i := by
  simp [overlay, Nat.not_le.mpr h]

theorem overlay_of_ge (h : off + src.length ≤ i) : overlay g off src i = g i := by
  have hnone : src[i - off]? = none := List.getElem?_eq_none (by omega)
  simp [overlay, hnone]

theorem overlay_of_mem (h1 : off ≤ i) (h2 : i - off < src.length) :
    overlay g off src i = src[i - off] := by
  simp [overlay, h1, List.getElem?_eq_getElem h2]

@[simp] theorem overlay_nil (off : ℕ) : overlay g off [] = g := by
  funext i
  simp [overlay]

end Overlay

/-! ## Straight views -/

section Slice
variable (g : ℕ → β) (off n : ℕ)

@[simp] theorem length_slice : (slice g off n).length = n := by simp [slice]

@[simp] theorem getElem_slice {i : ℕ} (h : i < (slice g off n).length) :
    (slice g off n)[i] = g (off + i) := by simp [slice]

theorem mem_slice {x : β} : x ∈ slice g off n ↔ ∃ i, i < n ∧ g (off + i) = x := by
  simp [slice]

@[simp] theorem slice_zero : slice g off 0 = [] := rfl

theorem slice_congr {g g' : ℕ → β} {off n : ℕ} (h : ∀ i, i < n → g (off + i) = g' (off + i)) :
    slice g off n = slice g' off n :=
  List.map_congr_left fun i hi => h i (List.mem_range.mp hi)

/-- Two views are equal if their cells are. -/
theorem slice_eq_iff {g g' : ℕ → β} {off off' n : ℕ} :
    slice g off n = slice g' off' n ↔ ∀ i, i < n → g (off + i) = g' (off' + i) := by
  constructor
  · intro h i hi
    have hget : (slice g off n)[i]? = (slice g' off' n)[i]? := by rw [h]
    simpa [slice, hi] using hget
  · exact fun h => List.map_congr_left fun i hi => h i (List.mem_range.mp hi)

theorem slice_overlay_self (src : List β) : slice (overlay g off src) off src.length = src := by
  apply List.ext_getElem (by simp)
  intro i _ hi
  rw [getElem_slice, overlay_of_mem g src (by omega) (by omega)]
  congr 1
  omega

theorem slice_append (m : ℕ) : slice g off (m + n) = slice g off m ++ slice g (off + m) n := by
  simp [slice, List.range_add, Function.comp_def, Nat.add_assoc]

theorem slice_succ : slice g off (n + 1) = slice g off n ++ [g (off + n)] := by
  rw [slice_append]
  simp [slice]

theorem slice_cons : slice g off (n + 1) = g off :: slice g (off + 1) n := by
  rw [Nat.add_comm, slice_append]
  simp [slice]

/-- A store behind a view. -/
theorem slice_update_of_le {i : ℕ} (x : β) (h : off + n ≤ i) :
    slice (Function.update g i x) off n = slice g off n := by
  apply slice_congr
  intro j hj
  exact Function.update_of_ne (by omega) _ _

theorem take_slice {k : ℕ} (hk : k ≤ n) : (slice g off n).take k = slice g off k := by
  obtain ⟨m, rfl⟩ := Nat.exists_eq_add_of_le hk
  rw [slice_append, List.take_left' (by simp)]

theorem drop_slice {k : ℕ} (hk : k ≤ n) :
    (slice g off n).drop k = slice g (off + k) (n - k) := by
  obtain ⟨m, rfl⟩ := Nat.exists_eq_add_of_le hk
  rw [slice_append, List.drop_left' (by simp), Nat.add_sub_cancel_left]

end Slice

/-! ## Circular views -/

section Circle
variable (g : ℕ → β) (N o n : ℕ)

@[simp] theorem length_circle : (circle g N o n).length = n := by simp [circle]

@[simp] theorem getElem_circle {i : ℕ} (h : i < (circle g N o n).length) :
    (circle g N o n)[i] = g ((o + i) % N) := by simp [circle]

theorem circle_congr {g g' : ℕ → β} {N o n : ℕ}
    (h : ∀ i, i < n → g ((o + i) % N) = g' ((o + i) % N)) : circle g N o n = circle g' N o n :=
  List.map_congr_left fun i hi => h i (List.mem_range.mp hi)

/-- The start of a circular view matters only modulo the size of the block. -/
theorem circle_mod : circle g N (o % N) n = circle g N o n :=
  List.map_congr_left fun i _ => by rw [Nat.mod_add_mod]

theorem circle_append (m : ℕ) :
    circle g N o (m + n) = circle g N o m ++ circle g N (o + m) n := by
  simp [circle, List.range_add, Function.comp_def, Nat.add_assoc]

theorem circle_succ : circle g N o (n + 1) = g (o % N) :: circle g N (o + 1) n := by
  rw [Nat.add_comm n 1, circle_append]
  simp [circle]

theorem take_circle {k : ℕ} (hk : k ≤ n) : (circle g N o n).take k = circle g N o k := by
  obtain ⟨m, rfl⟩ := Nat.exists_eq_add_of_le hk
  rw [circle_append, List.take_left' (by simp)]

theorem drop_circle {k : ℕ} (hk : k ≤ n) :
    (circle g N o n).drop k = circle g N (o + k) (n - k) := by
  obtain ⟨m, rfl⟩ := Nat.exists_eq_add_of_le hk
  rw [circle_append, List.drop_left' (by simp), Nat.add_sub_cancel_left]

/-- A circular view that does not reach the end of the block is straight. -/
theorem circle_eq_slice (h : o + n ≤ N) : circle g N o n = slice g o n :=
  List.map_congr_left fun i hi => by
    rw [Nat.mod_eq_of_lt (by have := List.mem_range.mp hi; omega)]

/-- A circular view that reaches the end continues at index zero. -/
theorem circle_wrap {g : ℕ → β} {N o n : ℕ} (ho : o < N) (hn : N - o ≤ n) (hle : n ≤ N) :
    circle g N o n = slice g o (N - o) ++ slice g 0 (n - (N - o)) := by
  obtain ⟨m, rfl⟩ := Nat.exists_eq_add_of_le hn
  have hend : o + (N - o) = N := by omega
  rw [circle_append, circle_eq_slice g N o _ (by omega), Nat.add_sub_cancel_left, hend,
    ← circle_mod, Nat.mod_self, circle_eq_slice g N 0 _ (by omega)]

/-- Distinct positions of a circular view occupy distinct cells. -/
theorem add_mod_ne {N o i j : ℕ} (hij : i < j) (hj : j < i + N) :
    (o + i) % N ≠ (o + j) % N := by
  intro h
  have hd : N ∣ (o + j) - (o + i) := (Nat.modEq_iff_dvd' (by omega)).mp h
  have : N ≤ (o + j) - (o + i) := Nat.le_of_dvd (by omega) hd
  omega

/-- **Appending to a circular view.**  If `g'` keeps the `n` cells of the view and
holds `src` in the cells after them, its longer view is the old one with `src`
appended. -/
theorem circle_overwrite (g g' : ℕ → β) (N o n : ℕ) (src : List β)
    (hold : ∀ i, i < n → g' ((o + i) % N) = g ((o + i) % N))
    (hnew : ∀ (j : ℕ) (hj : j < src.length), g' ((o + n + j) % N) = src[j]) :
    circle g' N o (n + src.length) = circle g N o n ++ src := by
  rw [circle_append, circle_congr hold]
  congr 1
  apply List.ext_getElem (by simp)
  intro j _ hj
  rw [getElem_circle]
  exact hnew j hj

/-- Copying `src` straight behind a circular view, without reaching the end of the
block or the start of the view, appends it. -/
theorem circle_overlay (g : ℕ → β) {N o n off : ℕ} (src : List β) (hoff : off = (o + n) % N)
    (hend : off + src.length ≤ N) (hfit : n + src.length ≤ N) :
    circle (overlay g off src) N o (n + src.length) = circle g N o n ++ src := by
  have hpos : ∀ j, j < src.length → (o + n + j) % N = off + j := by
    intro j hj
    rw [← Nat.mod_add_mod, ← hoff, Nat.mod_eq_of_lt (by omega)]
  apply circle_overwrite
  · intro i hi
    rcases Nat.lt_or_ge ((o + i) % N) off with hlt | hge
    · exact overlay_of_lt _ _ hlt
    · apply overlay_of_ge
      by_contra hin
      have hj : (o + i) % N - off < src.length := by omega
      refine add_mod_ne (o := o) (i := i) (j := n + ((o + i) % N - off)) (N := N)
        (by omega) (by omega) ?_
      rw [← Nat.add_assoc, hpos _ hj]
      omega
  · intro j hj
    rw [hpos j hj, overlay_of_mem _ _ (by omega) (by omega)]
    congr 1
    omega

end Circle

end Lib
