import Mathlib.Data.Int.Notation
import Mathlib.Data.List.Count
import Mathlib.Data.List.Perm.Basic
import Mathlib.Tactic.Common

/-!
# Search trees over elements kept elsewhere

The nodes of a tree hold references to elements that others own and may change or free, so
every step of a search looks at the element anew and may fail: the comparison with the key
of the search is a partial function on references, `none` for a fault.  Nothing is assumed
about the order of the elements in a tree.

## Main definitions

* `SearchTree`, `SearchTree.toList` — a tree and its in-order walk.
* `SearchTree.find`, `SearchTree.insert`, `SearchTree.remove` — by comparisons from the root;
  the comparison is negative for keys that are to the left.

## Main results

* `SearchTree.insert_perm` — what an insertion adds.
-/

namespace Lib

/-- A binary tree of references. -/
inductive SearchTree (ι : Type)
  | leaf
  | node (left : SearchTree ι) (a : ι) (right : SearchTree ι)

namespace SearchTree
variable {ι : Type}

/-- The in-order walk. -/
def toList : SearchTree ι → List ι
  | leaf => []
  | node l a r => l.toList ++ a :: r.toList

/-- The reference that compares equal. -/
def find (cmp : ι → Option ℤ) : SearchTree ι → Option (Option ι)
  | leaf => some none
  | node l a r => do
      let c ← cmp a
      if c < 0 then l.find cmp else if 0 < c then r.find cmp else some (some a)

/-- The tree with a new reference at the leaf where the search ends; `none` inside when an
equal one is met. -/
def insert (cmp : ι → Option ℤ) (x : ι) : SearchTree ι → Option (Option (SearchTree ι))
  | leaf => some (some (node leaf x leaf))
  | node l a r => do
      let c ← cmp a
      if c < 0 then (l.insert cmp x).map fun t => t.map fun l => node l a r
      else if 0 < c then (r.insert cmp x).map fun t => t.map fun r => node l a r
      else some none

/-- The first reference of a walk, and the tree without it. -/
def popMin : SearchTree ι → Option (ι × SearchTree ι)
  | leaf => none
  | node l a r =>
      match l.popMin with
      | none => some (a, r)
      | some (b, l) => some (b, node l a r)

/-- Two trees side by side, as one. -/
def join (l r : SearchTree ι) : SearchTree ι :=
  match r.popMin with
  | none => l
  | some (b, r) => node l b r

/-- The tree without the reference that compares equal, and that reference. -/
def remove (cmp : ι → Option ℤ) : SearchTree ι → Option (Option (ι × SearchTree ι))
  | leaf => some none
  | node l a r => do
      let c ← cmp a
      if c < 0 then (l.remove cmp).map fun t => t.map fun (b, l) => (b, node l a r)
      else if 0 < c then (r.remove cmp).map fun t => t.map fun (b, r) => (b, node l a r)
      else some (some (a, join l r))

/-- An insertion adds the new reference, and nothing else. -/
theorem insert_perm {cmp : ι → Option ℤ} {x : ι} {t t' : SearchTree ι}
    (h : t.insert cmp x = some (some t')) : t'.toList.Perm (x :: t.toList) := by
  induction t generalizing t' with
  | leaf =>
      obtain rfl := Option.some.inj (Option.some.inj h)
      exact .refl _
  | node l a r ihl ihr =>
      simp only [insert, Option.bind_eq_bind, Option.bind_eq_some_iff] at h
      obtain ⟨c, -, h⟩ := h
      split at h
      · obtain ⟨o, ho, h⟩ := Option.map_eq_some_iff.mp h
        obtain ⟨l', rfl, rfl⟩ := Option.map_eq_some_iff.mp h
        exact (ihl ho).append_right _
      · split at h
        · obtain ⟨o, ho, h⟩ := Option.map_eq_some_iff.mp h
          obtain ⟨r', rfl, rfl⟩ := Option.map_eq_some_iff.mp h
          simp only [toList]
          have hright : (a :: r'.toList).Perm (x :: a :: r.toList) :=
            ((ihr ho).cons a).trans (.swap x a r.toList)
          exact (hright.append_left _).trans List.perm_middle
        · cases h

end SearchTree

end Lib
