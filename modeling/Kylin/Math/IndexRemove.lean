import Kylin.Math.IndexMap

/-!
# Removing from an index by value and by node

`kylin_index_remove_raw` unlinks a node and destroys it.  `kylin_index_remove` was written to
do the same, but calls `kylin_index_unlink`, which frees the node itself and returns the value:
what is destroyed next as a node is the memory of the value, and the value in it the word that
this memory starts with.

The tables come out alike, so that only what is destroyed tells the two apart.

## Main definitions

* `World.RemovesAlike` — removing a value by either way is the same.

## Main results

* `World.Mirrors.remove_guard` — the tables are the same.
* `World.removesAlike_iff` — everything is the same exactly for values that are not there.
-/

namespace Kylin.Kindex.World

open Lib

variable {α : Type} {w : World α} {c : Cell α}

/-- **Removal by value and by node agree.**  For a value that is stored both return
`KYLIN_ERROR_OK`, leave the same tables, destroy the stored value and free the node, each
once, and nothing else.  For one that is not, both return `KYLIN_ERROR_NODATA` and destroy
nothing. -/
structure RemovesAlike (w : World α) (c : Cell α) : Prop where
  stored : ∀ x ∈ w.linked, cell x = some c → ∃ w1 w2 ds1 ds2,
    w.remove (.user c) = some (.ok, w1) ∧ w.removeRaw x = some (.ok, w2) ∧ w1.guard = w2.guard ∧
    w1.log = w.log ++ ds1 ∧ ds1.Perm [.val x.val.ptr, .node x.addr] ∧
    w2.log = w.log ++ ds2 ∧ ds2.Perm [.val x.val.ptr, .node x.addr]
  absent : (∀ x ∈ w.linked, cell x ≠ some c) → ∀ node, cell node = some c →
    ∃ w1 w2, w.remove (.user c) = some (.nodata, w1) ∧ w.removeRaw node = some (.nodata, w2) ∧
      w1.guard = w2.guard ∧ w1.log = w.log ∧ w2.log = w.log

/-- **The tables are the same**, and so is the code. -/
theorem Mirrors.remove_guard (M : Mirrors w) {node : KindexNode α} (hc : cell node = some c) :
    ∃ code w1 w2, w.remove (.user c) = some (code, w1) ∧ w.removeRaw node = some (code, w2) ∧
      w1.guard = w2.guard := by
  rcases M.unlinkBy c with ⟨r, w', hr, M', -, -, -, hsome⟩
  have hraw := M.unlinkRaw_eq hc
  rw [hr] at hraw
  cases r with
  | none => exact ⟨.nodata, w', w', remove_of_none hr, by simp [World.removeRaw, hraw], rfl⟩
  | some x =>
      exact ⟨.ok, _, { w' with log := w'.log ++ destroyNode w'.guard.opts x },
        remove_of_some M'.pointer (hsome x rfl).1 hr, by simp [World.removeRaw, hraw], rfl⟩

/-- A value that is stored: the destructors are called on other things. -/
theorem Mirrors.not_removesAlike (M : Mirrors w) {x : KindexNode α} (hx : x ∈ w.linked)
    (hc : cell x = some c) : ¬ RemovesAlike w c := by
  intro A
  rcases A.stored x hx hc with ⟨w1, -, ds1, -, hrem, -, -, hlog, hperm, -⟩
  rcases M.unlinkBy c with ⟨r, w', hr, M', hlog', -, hnone, hsome⟩
  cases r with
  | none => exact hnone rfl x hx hc
  | some y =>
      rw [remove_of_some M'.pointer (hsome y rfl).1 hr] at hrem
      cases hrem
      rw [hlog', List.append_cancel_left_eq] at hlog
      subst hlog
      have hlen := hperm.length_eq
      simp at hlen

/-- A value that is not stored: nothing happens. -/
theorem Mirrors.removesAlike (M : Mirrors w) (habsent : ∀ x ∈ w.linked, cell x ≠ some c) :
    RemovesAlike w c where
  stored := fun x hx hc => absurd hc (habsent x hx)
  absent := by
    intro _ node hc
    rcases M.unlinkBy c with ⟨r, w', hr, -, hlog, -, -, hsome⟩
    have hraw := M.unlinkRaw_eq hc
    rw [hr] at hraw
    cases r with
    | none =>
        exact ⟨w', w', remove_of_none hr, by simp [World.removeRaw, hraw], rfl, hlog, hlog⟩
    | some x =>
        rcases hsome x rfl with ⟨hcx, hperm⟩
        exact absurd hcx (habsent x (hperm.mem_iff.mpr (by simp)))

/-- **When the two removals agree**, in every state that sound calls lead to: for the values
that the index does not hold. -/
theorem removesAlike_iff {opts : KindexOpts α} (L : Kmap.Lawful (mapOpts opts))
    {tr : List (Step (World α) (Call α) (Answer α))} (h : Run step Sound (create opts) tr w)
    (c : Cell α) : RemovesAlike w c ↔ ∀ x ∈ w.linked, cell x ≠ some c := by
  have M := mirrors_of_run L h
  constructor
  · intro A x hx hc
    exact M.not_removesAlike hx hc A
  · exact M.removesAlike

/-- An index with three elements, in the middle of a move, and a fourth value. -/
theorem removesAlike_iff_moving : ∃ tr w, Run step Sound (create numberOpts) tr w ∧
    w.isRehashing = true ∧ w.count = 3 ∧ RemovesAlike w (.obj 7) := by
  have hrun : ∃ tr w, Run step Sound (create numberOpts) tr w ∧ w.isRehashing = true ∧
      w.count = 3 ∧ ∀ x ∈ w.linked, cell x ≠ some (.obj 7) :=
    exists_run_of_eval
      [.insert (.obj 1) 0, .insert (.obj 2) 1, .insert (.obj 3) 2, .resize 8, .remove (.obj 5)]
      (by decide +kernel)
  rcases hrun with ⟨tr, w, h, hre, hcount, habsent⟩
  exact ⟨tr, w, h, hre, hcount, (removesAlike_iff numberOpts_lawful h _).mpr habsent⟩

/-- An index of one value that was inserted by a caller who owns it: removing it by value
frees its node, then what the memory of the value starts with, then this memory. -/
theorem not_removesAlike_single : ∃ tr w, Run step Sound (create numberOpts) tr w ∧
    (∃ x ∈ w.linked, cell x = some (.obj 1)) ∧
    (∃ w', w.remove (.user (.obj 1)) = some (.ok, w') ∧
      w'.log = [.node 0, .valAt (.user (.obj 1)), .nodeAt (.user (.obj 1))]) ∧
    ¬ RemovesAlike w (.obj 1) := by
  have hrun : ∃ tr w, Run step Sound (create numberOpts) tr w ∧
      (∃ x ∈ w.linked, cell x = some (.obj 1)) ∧ w.log = [] ∧
      ((w.remove (.user (.obj 1))).map fun q => (q.1, q.2.log)) =
        some (.ok, [.node 0, .valAt (.user (.obj 1)), .nodeAt (.user (.obj 1))]) :=
    exists_run_of_eval [.insert (.obj 1) 0] (by decide +kernel)
  rcases hrun with ⟨tr, w, h, hmem, hlog, hrem⟩
  rcases Option.map_eq_some_iff.mp hrem with ⟨⟨code, w'⟩, hrem, hq⟩
  rw [Prod.mk.injEq] at hq
  rcases hq with ⟨rfl, hlog'⟩
  refine ⟨tr, w, h, hmem, ⟨w', hrem, hlog'⟩, fun A => ?_⟩
  rcases hmem with ⟨x, hx, hc⟩
  rcases A.stored x hx hc with ⟨w1, -, ds1, -, hrem', -, -, hds, hperm, -⟩
  rw [hrem] at hrem'
  cases hrem'
  rw [hlog, List.nil_append] at hds
  rw [← hds, hlog'] at hperm
  exact absurd hperm.length_eq (by simp)

end Kylin.Kindex.World
