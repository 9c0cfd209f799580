import Mathlib.Data.List.Nodup
import Mathlib.Data.List.Perm.Basic
import Mathlib.Tactic.Common

/-!
# Red-black trees, and places in them

A place in a tree is a path of frames, the innermost first, and the tree below it.  Filling
the hole of a path gives the whole tree back, so a change of one subtree is stated for the
subtree and holds in every tree around it.

The mirror images of the usual case analysis are one case with a `Side`: `join s x a c y` has
`x` on the side `s` and `y` on the other.

The place above the root counts as red.  So `Colored` says both that no red node is below a
red one and that the root is black.

## Main definitions

* `ColorTree`, `ColorTree.join`, `ColorTree.toList` — trees and their in-order walk.
* `Colored`, `Height`, `RedBlack` — the conditions on colours and black heights.
* `Frame`, `plug` — paths; `PathColored` and `Fits` are the conditions around the hole.

## Main results

* `colored_plug`, `height_plug` — the conditions, split at a place.
* `toList_plug` — the walk, split at a place.
-/

namespace Lib

/-- The two children of a node. -/
inductive Side
  | left
  | right
  deriving DecidableEq

/-- The opposite side. -/
def Side.other : Side → Side
  | .left => .right
  | .right => .left

@[simp] theorem Side.other_other (s : Side) : s.other.other = s := by cases s <;> rfl

theorem Side.eq_or_eq_other (s t : Side) : t = s ∨ t = s.other := by
  cases s <;> cases t <;> simp [Side.other]

/-- Node colours. -/
inductive Color
  | red
  | black
  deriving DecidableEq

/-- What a node adds to the black height. -/
def Color.weight : Color → ℕ
  | .red => 0
  | .black => 1

/-- Binary trees with a label and a colour at each node. -/
inductive ColorTree (ι : Type)
  | nil
  | node (left : ColorTree ι) (a : ι) (color : Color) (right : ColorTree ι)

variable {ι : Type}

namespace ColorTree

/-- The label at the root. -/
def root : ColorTree ι → Option ι
  | nil => none
  | node _ a _ _ => some a

/-- The colour of the root; an empty tree is black. -/
def color : ColorTree ι → Color
  | nil => .black
  | node _ _ c _ => c

/-- The tree with another colour at the root. -/
def paint (c : Color) : ColorTree ι → ColorTree ι
  | nil => nil
  | node l a _ r => node l a c r

/-- The in-order walk. -/
def toList : ColorTree ι → List ι
  | nil => []
  | node l a _ r => l.toList ++ a :: r.toList

/-- A node with `x` on a side and `y` on the other. -/
def join (s : Side) (x : ColorTree ι) (a : ι) (c : Color) (y : ColorTree ι) : ColorTree ι :=
  match s with
  | .left => node x a c y
  | .right => node y a c x

/-- No red node is below a red one, where `above` is the colour above the tree; nothing is
asked of a node with the label `ex`. -/
def Colored (ex : Option ι) : Color → ColorTree ι → Prop
  | _, nil => True
  | above, node l a c r =>
      (c = .red → above = .black ∨ ex = some a) ∧ Colored ex c l ∧ Colored ex c r

/-- All paths to a leaf have the same number of black nodes. -/
def Height : ColorTree ι → ℕ → Prop
  | nil, n => n = 0
  | node l _ c r, n => ∃ m, Height l m ∧ Height r m ∧ n = m + c.weight

/-- **Red-black trees.** -/
def RedBlack (t : ColorTree ι) : Prop := Colored none .red t ∧ ∃ n, Height t n

section Join
variable {s : Side} {l r x y z : ColorTree ι} {a b : ι} {c c' d d' : Color} {ex : Option ι}

theorem join_other (s : Side) (x : ColorTree ι) (a : ι) (c : Color) (y : ColorTree ι) :
    join s.other x a c y = join s y a c x := by
  cases s <;> rfl

/-- Every node can be seen from either side. -/
theorem exists_join (s : Side) (l : ColorTree ι) (a : ι) (c : Color) (r : ColorTree ι) :
    ∃ x y, node l a c r = join s x a c y := by
  cases s with
  | left => exact ⟨l, r, rfl⟩
  | right => exact ⟨r, l, rfl⟩

@[simp] theorem root_nil : (nil : ColorTree ι).root = none := rfl

@[simp] theorem root_node : (node l a c r).root = some a := rfl

@[simp] theorem root_join : (join s x a c y).root = some a := by cases s <;> rfl

@[simp] theorem color_join : (join s x a c y).color = c := by cases s <;> rfl

@[simp] theorem paint_join : (join s x a c y).paint d = join s x a d y := by cases s <;> rfl

theorem colored_join {above : Color} :
    Colored ex above (join s x a c y) ↔
      (c = .red → above = .black ∨ ex = some a) ∧ Colored ex c x ∧ Colored ex c y := by
  cases s with
  | left => rfl
  | right => exact and_congr_right' and_comm

theorem height_join {n : ℕ} :
    Height (join s x a c y) n ↔ ∃ m, Height x m ∧ Height y m ∧ n = m + c.weight := by
  cases s with
  | left => rfl
  | right => exact exists_congr fun m => and_left_comm

theorem perm_join : (join s x a c y).toList.Perm (a :: (x.toList ++ y.toList)) := by
  cases s with
  | left => exact List.perm_middle
  | right => exact List.perm_middle.trans (List.perm_append_comm.cons a)

/-- The walk of a join depends on the walks of its parts alone. -/
theorem toList_join_congr {x' y' : ColorTree ι} (hx : x.toList = x'.toList)
    (hy : y.toList = y'.toList) : (join s x a c y).toList = (join s x' a c' y').toList := by
  cases s <;> simp [join, toList, hx, hy]

/-- **A rotation keeps the walk.** -/
theorem toList_rotate :
    (join s x a c (join s y b d z)).toList = (join s (join s x a c' y) b d' z).toList := by
  cases s <;> simp [join, toList]

/-- So do two rotations. -/
theorem toList_rotate_twice {u : ColorTree ι} {e : ι} {c₁ c₂ c₃ : Color} :
    (join s (join s x a c y) b d (join s z e c' u)).toList =
      (join s (join s x a c₁ (join s y b c₂ z)) e c₃ u).toList := by
  cases s <;> simp [join, toList]

end Join

section Shape
variable {t : ColorTree ι} {ex : Option ι}

theorem mem_toList_of_root {a : ι} (h : t.root = some a) : a ∈ t.toList := by
  cases t with
  | nil => cases h
  | node l b c r =>
      cases h
      simp [toList]

theorem exists_root (h : t ≠ nil) : ∃ a, t.root = some a := by
  cases t with
  | nil => exact absurd rfl h
  | node l a c r => exact ⟨a, rfl⟩

theorem root_ne_of_notMem {a : ι} (h : a ∉ t.toList) : t.root ≠ some a :=
  fun hroot => h (mem_toList_of_root hroot)

/-- A tree has one black height. -/
theorem Height.unique {m n : ℕ} (hm : Height t m) (hn : Height t n) : m = n := by
  induction t generalizing m n with
  | nil => exact Eq.trans hm (Eq.symm hn)
  | node l a c r ihl _ =>
      obtain ⟨m', hl, -, rfl⟩ := hm
      obtain ⟨n', hl', -, rfl⟩ := hn
      rw [ihl hl hl']

/-- Below a black node there is no condition on the root. -/
theorem Colored.of_red {above : Color} (h : Colored ex .red t) : Colored ex above t := by
  cases t with
  | nil => trivial
  | node l a c r =>
      refine ⟨fun hc => ?_, h.2⟩
      obtain hblack | hex := h.1 hc
      · cases hblack
      · exact .inr hex

/-- A tree with a black root may stand below a red node. -/
theorem Colored.red_of_color {above : Color} (h : Colored ex above t) (hc : t.color = .black) :
    Colored ex .red t := by
  cases t with
  | nil => trivial
  | node l a c r =>
      refine ⟨fun hred => ?_, h.2⟩
      exact absurd (hred.symm.trans hc) (by decide)

/-- Below a red node, the root is black. -/
theorem Colored.color_eq (h : Colored none .red t) : t.color = .black := by
  cases t with
  | nil => rfl
  | node l a c r =>
      cases c with
      | black => rfl
      | red =>
          obtain hblack | hex := h.1 rfl
          · cases hblack
          · cases hex

/-- An exception that does not occur is none. -/
theorem Colored.of_notMem {a : ι} {above : Color} (h : Colored (some a) above t)
    (ha : a ∉ t.toList) : Colored none above t := by
  induction t generalizing above with
  | nil => trivial
  | node l b c r ihl ihr =>
      simp only [toList, List.mem_append, List.mem_cons, not_or] at ha
      refine ⟨fun hc => ?_, ihl h.2.1 ha.1, ihr h.2.2 ha.2.2⟩
      obtain hblack | hex := h.1 hc
      · exact .inl hblack
      · exact absurd (Option.some.inj hex) ha.2.1

theorem Colored.weaken {above : Color} (h : Colored none above t) : Colored ex above t := by
  induction t generalizing above with
  | nil => trivial
  | node l b c r ihl ihr =>
      refine ⟨fun hc => ?_, ihl h.2.1, ihr h.2.2⟩
      obtain hblack | hex := h.1 hc
      · exact .inl hblack
      · cases hex

@[simp] theorem toList_paint (c : Color) : (t.paint c).toList = t.toList := by cases t <;> rfl

/-- Painting the root in its own colour. -/
theorem paint_color : t.paint t.color = t := by cases t <;> rfl

/-- A tree that is too shallow by one is not empty next to one that is not. -/
theorem exists_node_of_height {n : ℕ} (h : Height t (n + 1)) :
    ∃ l a c r, t = node l a c r := by
  cases t with
  | nil => cases h
  | node l a c r => exact ⟨l, a, c, r, rfl⟩

/-- A node with an empty child and a child that is not. -/
theorem height_zero_of_color {x : ColorTree ι} (h : Height x 0) (hc : x.color = .black) :
    x = nil := by
  cases x with
  | nil => rfl
  | node l a c r =>
      cases hc
      obtain ⟨m, -, -, hm⟩ := h
      cases hm

end Shape

/-! ## Places -/

/-- One step of a path: a node whose child on a side is further down the path. -/
structure Frame (ι : Type) where
  side : Side
  label : ι
  color : Color
  sibling : ColorTree ι

/-- A frame with its hole filled. -/
def Frame.fill (f : Frame ι) (t : ColorTree ι) : ColorTree ι :=
  join f.side t f.label f.color f.sibling

/-- The whole tree. -/
def plug : List (Frame ι) → ColorTree ι → ColorTree ι
  | [], t => t
  | f :: fs, t => plug fs (f.fill t)

/-- The node above a hole. -/
def holder : List (Frame ι) → Option ι
  | [] => none
  | f :: _ => some f.label

/-- The colour above a hole. -/
def aboveColor : List (Frame ι) → Color
  | [] => .red
  | f :: _ => f.color

/-- The conditions on colours around a hole. -/
def PathColored (ex : Option ι) : List (Frame ι) → Prop
  | [] => True
  | f :: fs => Colored ex f.color f.sibling ∧
      (f.color = .red → aboveColor fs = .black ∨ ex = some f.label) ∧ PathColored ex fs

/-- A hole for trees of a black height. -/
def Fits : List (Frame ι) → ℕ → Prop
  | [], _ => True
  | f :: fs, n => Height f.sibling n ∧ Fits fs (n + f.color.weight)

/-- What the walk meets before a hole. -/
def before : List (Frame ι) → List ι
  | [] => []
  | f :: fs =>
      match f.side with
      | .left => before fs
      | .right => before fs ++ (f.sibling.toList ++ [f.label])

/-- What the walk meets behind a hole. -/
def behind : List (Frame ι) → List ι
  | [] => []
  | f :: fs =>
      match f.side with
      | .left => f.label :: f.sibling.toList ++ behind fs
      | .right => behind fs

section Plug
variable {path : List (Frame ι)} {t t' : ColorTree ι} {ex : Option ι}

/-- **The walk, split at a place.** -/
theorem toList_plug (path : List (Frame ι)) (t : ColorTree ι) :
    (plug path t).toList = before path ++ (t.toList ++ behind path) := by
  induction path generalizing t with
  | nil => simp [plug, before, behind]
  | cons f fs ih =>
      rw [plug, ih, Frame.fill, before, behind]
      cases f.side <;> simp [join, toList]

theorem plug_append (path path' : List (Frame ι)) (t : ColorTree ι) :
    plug (path ++ path') t = plug path' (plug path t) := by
  induction path generalizing t with
  | nil => rfl
  | cons f fs ih => rw [List.cons_append, plug, plug, ih]

theorem toList_plug_congr (h : t.toList = t'.toList) :
    (plug path t).toList = (plug path t').toList := by
  rw [toList_plug, toList_plug, h]

/-- **Colours, split at a place.** -/
theorem colored_plug :
    Colored ex .red (plug path t) ↔ PathColored ex path ∧ Colored ex (aboveColor path) t := by
  induction path generalizing t with
  | nil => simp [plug, PathColored, aboveColor]
  | cons f fs ih =>
      rw [plug, ih, Frame.fill, colored_join, PathColored]
      constructor
      · rintro ⟨hfs, hred, ht, hsib⟩
        exact ⟨⟨hsib, hred, hfs⟩, ht⟩
      · rintro ⟨⟨hsib, hred, hfs⟩, ht⟩
        exact ⟨hfs, hred, ht, hsib⟩

/-- **Black heights, split at a place.** -/
theorem height_plug :
    (∃ n, Height (plug path t) n) ↔ ∃ k, Height t k ∧ Fits path k := by
  induction path generalizing t with
  | nil => simp [plug, Fits]
  | cons f fs ih =>
      rw [plug, ih]
      constructor
      · rintro ⟨k, hk, hfits⟩
        obtain ⟨m, ht, hsib, rfl⟩ := height_join.mp hk
        exact ⟨m, ht, hsib, hfits⟩
      · rintro ⟨m, ht, hsib, hfits⟩
        exact ⟨_, height_join.mpr ⟨m, ht, hsib, rfl⟩, hfits⟩

/-- A label is at some place. -/
theorem exists_plug {a : ι} (h : a ∈ t.toList) : ∃ path l c r, t = plug path (node l a c r) := by
  -- the path is built from the root down, so it is generalised over what is above
  have hgen : ∀ (t : ColorTree ι) (up : List (Frame ι)), a ∈ t.toList →
      ∃ path l c r, plug up t = plug path (node l a c r) := by
    intro t
    induction t with
    | nil =>
        intro up h
        cases h
    | node l b c r ihl ihr =>
        intro up h
        simp only [toList, List.mem_append, List.mem_cons] at h
        obtain hl | rfl | hr := h
        · exact ihl (⟨.left, b, c, r⟩ :: up) hl
        · exact ⟨up, l, c, r, rfl⟩
        · exact ihr (⟨.right, b, c, l⟩ :: up) hr
  exact hgen t [] h

theorem PathColored.weaken (h : PathColored none path) : PathColored ex path := by
  induction path with
  | nil => trivial
  | cons f fs ih =>
      refine ⟨h.1.weaken, fun hc => ?_, ih h.2.2⟩
      obtain hblack | hex := h.2.1 hc
      · exact .inl hblack
      · cases hex

/-- The labels on and beside a path. -/
theorem perm_plug (path : List (Frame ι)) (t : ColorTree ι) :
    (plug path t).toList.Perm (t.toList ++ (before path ++ behind path)) := by
  rw [toList_plug, ← List.append_assoc, ← List.append_assoc]
  exact List.perm_append_comm.append_right _

theorem mem_sides_cons {f : Frame ι} {a : ι} :
    a ∈ before (f :: path) ++ behind (f :: path) ↔
      a = f.label ∨ a ∈ f.sibling.toList ∨ a ∈ before path ++ behind path := by
  simp only [before, behind]
  cases f.side <;> simp only [List.mem_append, List.mem_cons, List.not_mem_nil, or_false] <;> tauto

theorem perm_sides_cons (f : Frame ι) (path : List (Frame ι)) :
    (before (f :: path) ++ behind (f :: path)).Perm
      (f.label :: (f.sibling.toList ++ (before path ++ behind path))) := by
  have h := (perm_plug (f :: path) nil).symm.trans (perm_plug path (f.fill nil))
  refine h.trans (((perm_join.append_right _)).trans ?_)
  simp [toList]

/-- The node above a hole is in the whole tree. -/
theorem mem_toList_plug_of_holder {a : ι} (h : holder path = some a) :
    a ∈ (plug path t).toList := by
  cases path with
  | nil => cases h
  | cons f fs =>
      refine (perm_plug _ t).mem_iff.mpr (List.mem_append_right _ (mem_sides_cons.mpr (.inl ?_)))
      exact (Option.some.inj h).symm

theorem PathColored.of_notMem {a : ι} (h : PathColored (some a) path)
    (ha : a ∉ before path ++ behind path) : PathColored none path := by
  induction path with
  | nil => trivial
  | cons f fs ih =>
      rw [mem_sides_cons, not_or, not_or] at ha
      refine ⟨h.1.of_notMem ha.2.1, fun hc => ?_, ih h.2.2 ha.2.2⟩
      obtain hblack | hex := h.2.1 hc
      · exact .inl hblack
      · exact absurd (Option.some.inj hex) ha.1

end Plug

end ColorTree

end Lib
