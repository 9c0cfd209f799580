import Mathlib.Logic.Function.Basic
import Mathlib.Data.Nat.Notation
import Mathlib.Tactic.Common

/-!
# Directories

A directory maps the names of its files to their contents.  Renaming puts a file in the place of
whatever had the new name, and does nothing if there is no file of the old name.

Files that are numbered by age are moved on by renaming them one after another, the oldest first.
If the name after the last is free, nothing is overwritten.

## Main definitions

* `Directory`, `create`, `unlink`, `rename` — directories and what is done to them.
* `renameChain` — each of the first names of a sequence is renamed to the next.

## Main results

* `renameChain_spec` — every file has moved on by one, and no other has changed.
-/

namespace Lib

variable {α β : Type} [DecidableEq α]

/-- The contents of the files, by their names. -/
abbrev Directory (α β : Type) := α → Option β

namespace Directory

/-- Make an empty file, unless there is a file of that name. -/
def create (d : Directory α β) (name : α) (empty : β) : Directory α β :=
  Function.update d name (some ((d name).getD empty))

/-- Remove a file. -/
def unlink (d : Directory α β) (name : α) : Directory α β := Function.update d name none

/-- Rename a file, in place of another. -/
def rename (d : Directory α β) (old new : α) : Directory α β :=
  match d old with
  | none => d
  | some x => Function.update (Function.update d old none) new (some x)

/-- Rename the name `n - 1` of the sequence to `n`, then `n - 2` to `n - 1`, and so on. -/
def renameChain (name : ℕ → α) : ℕ → Directory α β → Directory α β
  | 0, d => d
  | n + 1, d => renameChain name n (d.rename (name n) (name (n + 1)))

section Lemmas
variable {d : Directory α β} {name : ℕ → α} {old new other : α} {n : ℕ}

theorem create_self (d : Directory α β) (name : α) (empty : β) :
    d.create name empty name = some ((d name).getD empty) := Function.update_self _ _ _

theorem create_of_ne {empty : β} (h : other ≠ new) : d.create new empty other = d other :=
  Function.update_of_ne h _ _

/-- A file that is there stays as it is. -/
theorem create_of_isSome {empty : β} (h : (d new).isSome = true) : d.create new empty = d := by
  obtain ⟨x, hx⟩ := Option.isSome_iff_exists.mp h
  rw [create, Function.update_eq_self_iff, hx]
  rfl

theorem unlink_self (d : Directory α β) (name : α) : d.unlink name name = none :=
  Function.update_self _ _ _

theorem unlink_of_ne (h : other ≠ new) : d.unlink new other = d other :=
  Function.update_of_ne h _ _

theorem rename_of_none (h : d old = none) : d.rename old new = d := by rw [rename, h]

theorem rename_of_some {x : β} (h : d old = some x) :
    d.rename old new = Function.update (Function.update d old none) new (some x) := by
  rw [rename, h]

theorem rename_new (h : d new = none) : d.rename old new new = d old := by
  cases hold : d old with
  | none => rw [rename_of_none hold, h]
  | some x => rw [rename_of_some hold, Function.update_self]

theorem rename_old (h : old ≠ new) : d.rename old new old = none := by
  cases hold : d old with
  | none => rw [rename_of_none hold, hold]
  | some x => rw [rename_of_some hold, Function.update_of_ne h, Function.update_self]

theorem rename_of_ne (hold : other ≠ old) (hnew : other ≠ new) :
    d.rename old new other = d other := by
  cases h : d old with
  | none => rw [rename_of_none h]
  | some x => rw [rename_of_some h, Function.update_of_ne hnew, Function.update_of_ne hold]

/-- **Every file has moved on by one**, and no other has changed, if the names differ and the last
is free. -/
theorem renameChain_spec (hinj : ∀ i j, i ≤ n → j ≤ n → name i = name j → i = j)
    (hfree : d (name n) = none) :
    (∀ i, i < n → renameChain name n d (name (i + 1)) = d (name i)) ∧
      renameChain name n d (name 0) = none ∧
      ∀ other, (∀ i, i ≤ n → other ≠ name i) → renameChain name n d other = d other := by
  induction n generalizing d with
  | zero => exact ⟨fun i hi => absurd hi (Nat.not_lt_zero i), hfree, fun _ _ => rfl⟩
  | succ n ih =>
      have hne : ∀ i j, i ≤ n + 1 → j ≤ n + 1 → i ≠ j → name i ≠ name j :=
        fun i j hi hj hij h => hij (hinj i j hi hj h)
      -- the last is moved first, and its name is free then
      have hlast : d.rename (name n) (name (n + 1)) (name n) = none :=
        rename_old (hne n (n + 1) (by omega) (by omega) (by omega))
      obtain ⟨hmoved, hzero, hframe⟩ := ih (fun i j hi hj => hinj i j (by omega) (by omega)) hlast
      refine ⟨fun i hi => ?_, hzero, fun other h => ?_⟩
      · rw [renameChain]
        rcases Nat.lt_or_eq_of_le (Nat.le_of_lt_succ hi) with hlt | rfl
        · rw [hmoved i hlt, rename_of_ne (hne i n (by omega) (by omega) (by omega))
            (hne i (n + 1) (by omega) (by omega) (by omega))]
        · rw [hframe _ fun j hj => hne _ j (by omega) (by omega) (by omega), rename_new hfree]
      · rw [renameChain, hframe other fun i hi => h i (by omega),
          rename_of_ne (h n (by omega)) (h (n + 1) (by omega))]

end Lemmas

end Directory

end Lib
