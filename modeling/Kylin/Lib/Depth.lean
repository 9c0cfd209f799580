import Mathlib.Algebra.Ring.Nat
import Mathlib.Data.Nat.Log
import Kylin.Lib.RedBlack

/-!
# The depth of red-black trees

The number of nodes on the longest path from the root bounds every descent and every climb.
A red-black tree is balanced: its depth is at most twice the binary logarithm of its size.

## Main definitions

* `ColorTree.depth` — the length of the longest path.

## Main results

* `RedBlack.depth_le` — the logarithmic bound.
-/

namespace Lib.ColorTree

variable {ι : Type} {s : Side} {a : ι} {c above : Color} {x y t : ColorTree ι} {k : ℕ}

/-- The number of nodes on the longest path from the root. -/
def depth : ColorTree ι → ℕ
  | nil => 0
  | node l _ _ r => max l.depth r.depth + 1

@[simp] theorem depth_nil : depth (nil : ColorTree ι) = 0 := rfl

theorem depth_join : depth (join s x a c y) = max x.depth y.depth + 1 := by
  cases s with
  | left => rfl
  | right => rw [join, depth, max_comm]

/-- A place is no deeper than the tree. -/
theorem length_add_depth_le (path : List (Frame ι)) (t : ColorTree ι) :
    path.length + t.depth ≤ (plug path t).depth := by
  induction path generalizing t with
  | nil => simp [plug]
  | cons f fs ih =>
      have hstep := ih (f.fill t)
      rw [Frame.fill, depth_join] at hstep
      rw [List.length_cons, plug, Frame.fill]
      omega

theorem depth_le_length (t : ColorTree ι) : t.depth ≤ t.toList.length := by
  induction t with
  | nil => simp
  | node l a c r ihl ihr =>
      simp only [depth, toList, List.length_append, List.length_cons]
      omega

/-- A tree of black height `k` has at least as many nodes as the full tree of depth `k`. -/
theorem Height.pow_le (h : Height t k) : 2 ^ k ≤ t.toList.length + 1 := by
  induction t generalizing k with
  | nil =>
      obtain rfl : k = 0 := h
      simp
  | node l a c r ihl ihr =>
      obtain ⟨m, hl, hr, rfl⟩ := h
      have hleft := ihl hl
      have hright := ihr hr
      simp only [toList, List.length_append, List.length_cons]
      cases c with
      | red =>
          rw [Color.weight, Nat.add_zero]
          omega
      | black =>
          rw [Color.weight, pow_succ]
          omega

/-- On no path there are more red nodes than black ones, but for a red root. -/
theorem Colored.depth_le (hc : Colored none above t) (h : Height t k) :
    t.depth ≤ 2 * k + above.weight := by
  induction t generalizing above k with
  | nil => simp
  | node l a c r ihl ihr =>
      obtain ⟨m, hl, hr, rfl⟩ := h
      obtain ⟨hred, hcl, hcr⟩ := hc
      have hleft := ihl hcl hl
      have hright := ihr hcr hr
      rw [depth]
      cases c with
      | red =>
          obtain rfl | hex := hred rfl
          · simp only [Color.weight] at hleft hright ⊢
            omega
          · cases hex
      | black =>
          simp only [Color.weight] at hleft hright ⊢
          omega

/-- **Red-black trees are balanced.** -/
theorem RedBlack.depth_le (h : RedBlack t) : t.depth ≤ 2 * Nat.log2 (t.toList.length + 1) := by
  obtain ⟨hc, k, hk⟩ := h
  have hdepth : t.depth ≤ 2 * k := hc.depth_le hk
  have hlog : k ≤ Nat.log2 (t.toList.length + 1) := by
    rw [Nat.le_log2 (Nat.succ_ne_zero _)]
    exact hk.pow_le
  omega

end Lib.ColorTree
