import Kylin.Lib.RedBlack

/-!
# Walking a tree in a direction

The in-order walk of a tree and its reverse are one list with a `Side`.  What follows a place in
it is split along the path, so that the neighbour of a node is the head of a list.

## Main definitions

* `toward` — the walk of a tree in a direction.
* `beyond` — the rest of the walk behind a place.

## Main results

* `toward_plug` — the walk, split at a place.
-/

namespace Lib.ColorTree

variable {ι : Type} {s : Side} {a : ι} {c : Color} {x y t : ColorTree ι} {fs path : List (Frame ι)}

/-- The walk of a tree that ends on a side. -/
def toward : Side → ColorTree ι → List ι
  | .left, t => t.toList.reverse
  | .right, t => t.toList

/-- What that walk meets behind a place. -/
def beyond : Side → List (Frame ι) → List ι
  | .left, path => (before path).reverse
  | .right, path => behind path

@[simp] theorem mem_toward : a ∈ toward s t ↔ a ∈ t.toList := by
  cases s <;> simp [toward]

theorem reverse_toward (s : Side) (t : ColorTree ι) : (toward s t).reverse = toward s.other t := by
  cases s <;> simp [toward, Side.other]

@[simp] theorem toward_nil : toward s (nil : ColorTree ι) = [] := by cases s <;> rfl

theorem toward_join : toward s (join s x a c y) = toward s y ++ a :: toward s x := by
  cases s <;> simp [toward, join, toList]

@[simp] theorem beyond_nil : beyond s ([] : List (Frame ι)) = [] := by cases s <;> rfl

/-- Nothing is added by a node whose child on that side is below it, -/
theorem beyond_same : beyond s (⟨s, a, c, y⟩ :: fs) = beyond s fs := by cases s <;> rfl

/-- and a node whose other child is comes next, with its subtree. -/
theorem beyond_other :
    beyond s (⟨s.other, a, c, y⟩ :: fs) = a :: (toward s y ++ beyond s fs) := by
  cases s <;> simp [beyond, toward, Side.other, before, behind]

/-- **The walk in a direction, split at a place.** -/
theorem toward_plug (s : Side) (path : List (Frame ι)) (t : ColorTree ι) :
    toward s (plug path t) =
      (beyond s.other path).reverse ++ (toward s t ++ beyond s path) := by
  cases s <;> simp [toward, beyond, Side.other, toList_plug]

end Lib.ColorTree
