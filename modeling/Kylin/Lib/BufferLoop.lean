import Kylin.Lib.Buffer
import Kylin.Lib.Loop
import Mathlib.Data.List.InsertIdx

/-!
# Loops over the cells of a block

A loop may write each of its cells.  An element is put into an array by exchanging it with each
of those from its place on, and it is taken out by exchanging it with its neighbours until it is
the last.

## Main definitions

* `swapTurn` — exchange of an element that is held outside with one of the array.
* `bubbleTurn` — exchange of two neighbours.

## Main results

* `writeLoop_spec` — turns that write.
* `swapLoop_spec` — exchanges that insert.
* `bubbleLoop_spec` — exchanges that erase.
-/

namespace Lib

variable {β : Type} {limit i : ℕ} {x : β}

/-- Exchange the element that is held outside with that at `j`. -/
def swapTurn (j : ℕ) (s : β × Buffer β) : Option (β × Buffer β) := do
  let y ← s.2.load j
  let b ← s.2.store j s.1
  some (y, b)

/-- Exchange the elements at `i` and `i + 1`. -/
def bubbleTurn (i : ℕ) (b : Buffer β) : Option (Buffer β) := do
  let x ← b.load i
  let y ← b.load (i + 1)
  let b ← b.store i y
  b.store (i + 1) x

/-- A loop whose turns each write their cell. -/
theorem writeLoop_spec {body : ℕ → Buffer β → Option (Buffer β)} {n : ℕ} {g : ℕ → β}
    (b : Buffer β) (hlimit : n < limit) (hbody : ∀ i d, i < n → d.size = b.size →
      body i d = some { d with get := Function.update d.get i (g i) }) :
    ∃ b', forLoop limit body n 0 b = some b' ∧ b'.size = b.size ∧
      ∀ j, b'.get j = if j < n then g j else b.get j := by
  have hloop := @forLoop_spec _ limit n 0 body b
    (fun k d => d.size = b.size ∧ ∀ j, d.get j = if j < k then g j else b.get j)
    (by omega) ⟨rfl, fun j => by simp⟩ ?_
  · rwa [Nat.zero_add] at hloop
  · rintro i d - hi ⟨hsize, hget⟩
    refine ⟨_, hbody i d (by omega) hsize, hsize, fun j => ?_⟩
    dsimp only
    by_cases hj : j = i
    · subst hj
      rw [Function.update_self, if_pos (Nat.lt_succ_self j)]
    · rw [Function.update_of_ne hj, hget]
      exact if_congr (by omega) rfl rfl

theorem insertIdx_append_of_le {l l' : List β} (h : i ≤ l.length) :
    (l ++ l').insertIdx i x = l.insertIdx i x ++ l' := by
  induction l generalizing i with
  | nil =>
      rw [Nat.le_zero.mp h]
      rfl
  | cons y l ih =>
      cases i with
      | zero => rfl
      | succ i =>
          rw [List.cons_append, List.insertIdx_succ_cons, List.insertIdx_succ_cons,
            ih (Nat.le_of_succ_le_succ h), List.cons_append]

/-- The exchanges with the slots from `i` on put `x` there, and the last of them is left. -/
theorem swapLoop_spec (i left : ℕ) (b : Buffer β) (x : β) (hlimit : i + left < limit)
    (hin : i + left ≤ b.size) :
    ∃ y b', forLoop limit swapTurn left i (x, b) = some (y, b') ∧ b'.size = b.size ∧
      slice b'.get 0 (i + left) ++ [y] = (slice b.get 0 (i + left)).insertIdx i x ∧
      ∀ m, i + left ≤ m → b'.get m = b.get m := by
  have hloop := @forLoop_spec _ limit left i swapTurn (x, b)
    (fun j s => s.2.size = b.size ∧
      slice s.2.get 0 j ++ [s.1] = (slice b.get 0 j).insertIdx i x ∧
      ∀ m, j ≤ m → s.2.get m = b.get m) hlimit ⟨rfl, ?_, fun _ _ => rfl⟩ ?_
  · rcases hloop with ⟨⟨y, b'⟩, hrun, hsize, hslice, hrest⟩
    exact ⟨y, b', hrun, hsize, hslice, hrest⟩
  · have hlen := length_slice b.get 0 i
    nth_rewrite 3 [← hlen]
    exact List.insertIdx_length_self.symm
  · rintro j ⟨y, c⟩ hij hj ⟨hsize, hslice, hrest⟩
    dsimp only at hsize hslice hrest
    have hlt : j < c.size := by omega
    refine ⟨(c.get j, { c with get := Function.update c.get j y }), ?_, hsize, ?_, fun m hm => ?_⟩
    · rw [swapTurn, Buffer.load_of_lt hlt, Buffer.store_of_lt hlt]
      rfl
    · dsimp only
      rw [slice_succ, slice_update_of_le _ _ _ _ (by omega), Nat.zero_add, Function.update_self,
        hslice, hrest j le_rfl, slice_succ, Nat.zero_add, insertIdx_append_of_le]
      rw [length_slice]
      exact hij
    · rw [← hrest m (by omega)]
      exact Function.update_of_ne (by omega) _ _

/-- The exchanges of neighbours from `i` on bring the element there behind the others. -/
theorem bubbleLoop_spec (i left : ℕ) (b : Buffer β) (hlimit : i + left < limit)
    (hin : i + left < b.size) :
    ∃ b', forLoop limit bubbleTurn left i b = some b' ∧ b'.size = b.size ∧
      slice b'.get 0 (i + left) = (slice b.get 0 (i + left + 1)).eraseIdx i ∧
      b'.get (i + left) = b.get i ∧ ∀ m, i + left < m → b'.get m = b.get m := by
  refine forLoop_spec (I := fun j (c : Buffer β) => c.size = b.size ∧
      slice c.get 0 j = (slice b.get 0 (j + 1)).eraseIdx i ∧ c.get j = b.get i ∧
      ∀ m, j < m → c.get m = b.get m) hlimit ⟨rfl, ?_, rfl, fun _ _ => rfl⟩ ?_
  · rw [slice_succ, List.eraseIdx_append_of_length_le (by rw [length_slice]), length_slice,
      Nat.sub_self, List.eraseIdx_cons_zero, List.append_nil]
  · rintro j c hij hj ⟨hsize, hslice, hthis, hrest⟩
    have hlt : j + 1 < c.size := by omega
    have hlt' : j < c.size := by omega
    refine ⟨⟨c.size, Function.update (Function.update c.get j (c.get (j + 1))) (j + 1)
      (c.get j)⟩, ?_, hsize, ?_, ?_, fun m hm => ?_⟩
    · rw [bubbleTurn, Buffer.load_of_lt hlt', Buffer.load_of_lt hlt, Option.bind_eq_bind,
        Option.bind_some, Option.bind_some, Buffer.store_of_lt hlt', Option.bind_eq_bind,
        Option.bind_some]
      exact if_pos hlt
    · dsimp only
      rw [slice_update_of_le _ _ _ _ (by omega), slice_succ, Nat.zero_add, Function.update_self,
        slice_update_of_le _ _ _ _ (by omega), hslice, hrest (j + 1) (Nat.lt_succ_self j),
        slice_succ _ _ (j + 1), Nat.zero_add, List.eraseIdx_append_of_lt_length]
      rw [length_slice]
      omega
    · dsimp only
      rw [Function.update_self, hthis]
    · dsimp only
      rw [Function.update_of_ne (by omega), Function.update_of_ne (by omega), hrest m (by omega)]

end Lib
