import Kylin.Lib.Depth
import Kylin.Lib.OrderedSet
import Kylin.Math.RbSearch

/-!
# The red-black tree macros

`RB_GENERATE` (`include/math/kylin_rb_hpi.h`) generates the functions of an intrusive red-black
tree.  Its rotations and its two colour loops are those of `lib/core/math/kylin_rb.c`, and so is
the removal of an element with at most one child; a node stands for an element, with its
`RB_ENTRY` and the rest of the structure as the value.

Unlike that file, `RB_INSERT` links the element below the last one of its descent, and
`RB_REMOVE` copies the links of an element with two children into its successor.  So both
updates keep a red-black tree in search order.

## Main definitions

* `insert`, `remove`, `find`, `nfind`, `minmax` — the generated functions.
* `IsTree` — red-black trees in search order.

## Main results

* `insert_spec`, `remove_spec` — the two updates.
-/

namespace Kylin

open Lib ColorTree
open Krb (World)
open Krb.World (Holds At Relinked Linked PathLinked at_join at_cons holds_plug holds_iff)

namespace RbHpi
variable {α : Type}

/-! ## The generated functions -/

/-- `RB_INIT`. -/
def init (w : World α) : World α := w.setRoot none

/-- How a descent ends: at an element with an equal key, or past a leaf, with the final values
of `parent` and `comp`. -/
inductive Place
  | equal (tmp : ℕ)
  | leaf (parent : Option ℕ) (comp : ℤ)

/-- The descent of `RB_INSERT`; `cmp` compares two elements. -/
def descend (cmp : ℕ → ℕ → ℤ) (w : World α) (elm : ℕ) : ℕ → Option ℕ → Option ℕ → ℤ → Option Place
  | _, none, parent, comp => some (.leaf parent comp)
  | 0, some _, _, _ => none
  | fuel + 1, some tmp, _, _ => do
      let x ← w.heap.get tmp
      if cmp elm tmp < 0 then descend cmp w elm fuel x.left (some tmp) (cmp elm tmp)
      else if 0 < cmp elm tmp then descend cmp w elm fuel x.right (some tmp) (cmp elm tmp)
      else some (.equal tmp)

/-- `RB_SET`. -/
def rbSet (w : World α) (elm : ℕ) (parent : Option ℕ) : Option (World α) :=
  w.set (some elm) fun x => { x with parent := parent, left := none, right := none, color := .red }

/-- The stores of `RB_INSERT` below the last element of the descent. -/
def attach (w : World α) (elm : ℕ) (parent : Option ℕ) (comp : ℤ) : Option (World α) := do
  let w ← rbSet w elm parent
  if parent = none then some (w.setRoot (some elm))
  else if comp < 0 then w.set parent fun p => { p with left := some elm }
  else w.set parent fun p => { p with right := some elm }

/-- `RB_INSERT`: the element that was there already, if one was. -/
def insert (cmp : ℕ → ℕ → ℤ) (fuel : ℕ) (w : World α) (elm : ℕ) :
    Option (Option ℕ × World α) := do
  match ← descend cmp w elm fuel w.guard.root none 0 with
  | .equal tmp => some (some tmp, w)
  | .leaf parent comp =>
      let w ← attach w elm parent comp
      let w ← w.insertColor fuel elm
      some (none, w)

/-- The loop of `RB_REMOVE` from a parent, if there is one, up to the root; its body is
`RB_AUGMENT`, which is empty. -/
def climb (w : World α) : ℕ → Option ℕ → Option Unit
  | _, none => some ()
  | 0, some _ => none
  | fuel + 1, some left => do
      let above ← w.parentOf (some left)
      climb w fuel above

/-- The part of `RB_REMOVE` for an element with two children: its successor takes over its
links and its colour. -/
def removeInner (fuel : ℕ) (w : World α) (old right : ℕ) :
    Option (Color × Option ℕ × Option ℕ × World α) := do
  let elm ← w.leftmost fuel right
  let x ← w.heap.get elm
  let w ← w.setIf x.right fun y => { y with parent := x.parent }
  let w ← w.replaceChild x.parent elm x.right
  let up ← w.parentOf (some elm)
  let parent := if up = some old then some elm else x.parent
  let o ← w.heap.get old
  let w ← w.set (some elm) fun y =>
    { y with parent := o.parent, left := o.left, right := o.right, color := o.color }
  let above ← w.parentOf (some old)
  let w ← w.replaceChild above old (some elm)
  let left ← w.childOf .left (some old)
  let w ← w.set left fun y => { y with parent := some elm }
  let right ← w.childOf .right (some old)
  let w ← w.setIf right fun y => { y with parent := some elm }
  climb w fuel parent
  some (x.color, parent, x.right, w)

/-- `RB_REMOVE`, which returns the element. -/
def remove (fuel : ℕ) (w : World α) (elm : ℕ) : Option (Option ℕ × World α) := do
  let x ← w.heap.get elm
  let (color, parent, child, w) ←
    match x.left, x.right with
    | none, right => w.unlinkLeaf elm right
    | some left, none => w.unlinkLeaf elm (some left)
    | some _, some right => removeInner fuel w elm right
  (if color = .black then w.removeColor fuel parent child else some w).map fun w => (some elm, w)

/-- The loop of `RB_FIND`. -/
def findLoop (cmp : ℕ → ℕ → ℤ) (w : World α) (elm : ℕ) : ℕ → Option ℕ → Option (Option ℕ)
  | _, none => some none
  | 0, some _ => none
  | fuel + 1, some tmp => do
      let x ← w.heap.get tmp
      if cmp elm tmp < 0 then findLoop cmp w elm fuel x.left
      else if 0 < cmp elm tmp then findLoop cmp w elm fuel x.right
      else some (some tmp)

/-- `RB_FIND`. -/
def find (cmp : ℕ → ℕ → ℤ) (fuel : ℕ) (w : World α) (elm : ℕ) : Option (Option ℕ) :=
  findLoop cmp w elm fuel w.guard.root

/-- The loop of `RB_NFIND`. -/
def nfindLoop (cmp : ℕ → ℕ → ℤ) (w : World α) (elm : ℕ) :
    ℕ → Option ℕ → Option ℕ → Option (Option ℕ)
  | _, none, res => some res
  | 0, some _, _ => none
  | fuel + 1, some tmp, res => do
      let x ← w.heap.get tmp
      if cmp elm tmp < 0 then nfindLoop cmp w elm fuel x.left (some tmp)
      else if 0 < cmp elm tmp then nfindLoop cmp w elm fuel x.right res
      else some (some tmp)

/-- `RB_NFIND`. -/
def nfind (cmp : ℕ → ℕ → ℤ) (fuel : ℕ) (w : World α) (elm : ℕ) : Option (Option ℕ) :=
  nfindLoop cmp w elm fuel w.guard.root none

/-- The loop of `RB_MINMAX`, to the child on a side. -/
def minmaxLoop (side : Side) (w : World α) : ℕ → Option ℕ → Option ℕ → Option (Option ℕ)
  | _, none, parent => some parent
  | 0, some _, _ => none
  | fuel + 1, some tmp, _ => do
      let child ← w.childOf side (some tmp)
      minmaxLoop side w fuel child (some tmp)

/-- `RB_MINMAX`; `RB_MIN` passes `RB_NEGINF` and `RB_MAX` passes `RB_INF`. -/
def minmax (fuel : ℕ) (w : World α) (val : ℤ) : Option (Option ℕ) :=
  minmaxLoop (if val < 0 then .left else .right) w fuel w.guard.root none

/-- `RB_MIN`. -/
def min (fuel : ℕ) (w : World α) : Option (Option ℕ) := minmax fuel w (-1)

/-- `RB_MAX`. -/
def max (fuel : ℕ) (w : World α) : Option (Option ℕ) := minmax fuel w 1

/-- `RB_NEXT`, whose branches are those of `kylin_rb_next_raw`. -/
def next (fuel : ℕ) (w : World α) (elm : ℕ) : Option (Option ℕ) := w.nextRaw fuel elm

/-- `RB_PREV`. -/
def prev (fuel : ℕ) (w : World α) (elm : ℕ) : Option (Option ℕ) := w.prevRaw fuel elm

/-! ## Search -/

/-- The callback compares by keys. -/
structure Orders {K : Type} [LinearOrder K] (cmp : ℕ → ℕ → ℤ) (key : ℕ → K) : Prop where
  lt : ∀ a b, cmp a b < 0 ↔ key a < key b
  gt : ∀ a b, 0 < cmp a b ↔ key b < key a

/-- **A red-black tree in search order.** -/
structure IsTree {K : Type} [LinearOrder K] (key : ℕ → K) (w : World α) (t : ColorTree ℕ) :
    Prop where
  holds : Holds w t
  redBlack : RedBlack t
  ascending : OrderedSet.Ascending key t.toList

/-- The key of an element belongs in a hole. -/
structure Belongs {K : Type} [LinearOrder K] (key : ℕ → K) (path : List (Frame ℕ)) (elm : ℕ) :
    Prop where
  lower : ∀ b ∈ before path, key b < key elm
  upper : ∀ b ∈ behind path, key elm < key b

section Search
variable {K : Type} [LinearOrder K] {cmp : ℕ → ℕ → ℤ} {key : ℕ → K} {w : World α}
  {fuel elm n : ℕ} {c : Color} {t l r : ColorTree ℕ} {path : List (Frame ℕ)}

theorem belongs_nil : Belongs key [] elm := ⟨by simp [before], by simp [behind]⟩

/-- The element belongs below a node with a larger key on the left of it, -/
theorem Belongs.left (B : Belongs key path elm) (hn : key elm < key n)
    (hr : ∀ b ∈ r.toList, key n < key b) : Belongs key (⟨.left, n, c, r⟩ :: path) elm where
  lower := B.lower
  upper := by
    simp only [behind, List.forall_mem_append, List.forall_mem_cons, List.cons_append]
    exact ⟨hn, fun b hb => hn.trans (hr b hb), B.upper⟩

/-- and below one with a smaller key on the right. -/
theorem Belongs.right (B : Belongs key path elm) (hn : key n < key elm)
    (hl : ∀ b ∈ l.toList, key b < key n) : Belongs key (⟨.right, n, c, l⟩ :: path) elm where
  lower := by
    simp only [before, List.forall_mem_append, List.forall_mem_cons]
    exact ⟨B.lower, fun b hb => (hl b hb).trans hn, hn, by simp⟩
  upper := B.upper

/-- The keys around a node of an ascending tree. -/
theorem ascending_node (h : OrderedSet.Ascending key (node l n c r).toList) :
    OrderedSet.Ascending key l.toList ∧ OrderedSet.Ascending key r.toList ∧
      (∀ b ∈ l.toList, key b < key n) ∧ ∀ b ∈ r.toList, key n < key b := by
  rw [toList, OrderedSet.Ascending, List.pairwise_append, List.pairwise_cons] at h
  exact ⟨h.1, h.2.1.2, fun b hb => h.2.2 b hb n (List.mem_cons_self ..), h.2.1.1⟩

/-- The three ways of a comparison at a node. -/
theorem compare_cases (hord : Orders cmp key) (elm n : ℕ) :
    (key elm < key n ∧ cmp elm n < 0) ∨ (key elm = key n ∧ cmp elm n = 0) ∨
      (key n < key elm ∧ ¬ cmp elm n < 0 ∧ 0 < cmp elm n) := by
  obtain hkey | hkey | hkey := lt_trichotomy (key elm) (key n)
  · exact .inl ⟨hkey, (hord.lt elm n).mpr hkey⟩
  · have hnlt := (hord.lt elm n).not.mpr hkey.not_lt
    have hngt := (hord.gt elm n).not.mpr hkey.not_gt
    exact .inr (.inl ⟨hkey, by omega⟩)
  · have hpos := (hord.gt elm n).mpr hkey
    exact .inr (.inr ⟨hkey, by omega, hpos⟩)

/-- What `comp` remembers of the last comparison of a descent. -/
def Remembers (comp : ℤ) : List (Frame ℕ) → Prop
  | [] => True
  | f :: _ => comp < 0 ↔ f.side = .left

/-- **The descent of an insertion** ends at an element of the key, or in the hole where the key
belongs. -/
theorem descend_spec (hord : Orders cmp key) (hfuel : t.depth ≤ fuel) (H : At w path t)
    (ht : OrderedSet.Ascending key t.toList) (B : Belongs key path elm) (comp : ℤ)
    (hcomp : Remembers comp path) :
    (∃ b ∈ t.toList, key b = key elm ∧
      descend cmp w elm fuel t.root (holder path) comp = some (.equal b)) ∨
    ∃ path' comp', plug path' nil = plug path t ∧ Belongs key path' elm ∧ Remembers comp' path' ∧
      descend cmp w elm fuel t.root (holder path) comp = some (.leaf (holder path') comp') := by
  induction t generalizing path fuel comp with
  | nil => exact .inr ⟨path, comp, rfl, B, hcomp, by cases fuel <;> rfl⟩
  | node l n c r ihl ihr =>
      obtain ⟨fuel, rfl⟩ : ∃ k, fuel = k + 1 := ⟨fuel - 1, by rw [depth] at hfuel; omega⟩
      rw [depth, Nat.succ_le_succ_iff, Nat.max_le] at hfuel
      obtain ⟨hl, hr, hlt, hgt⟩ := ascending_node ht
      obtain ⟨⟨v, hn⟩, -⟩ := H.linked
      have hstep : descend cmp w elm (fuel + 1) (node l n c r).root (holder path) comp =
          if cmp elm n < 0 then descend cmp w elm fuel l.root (some n) (cmp elm n)
          else if 0 < cmp elm n then descend cmp w elm fuel r.root (some n) (cmp elm n)
          else some (.equal n) := by
        rw [root_node, descend, hn]
        rfl
      rw [hstep]
      obtain ⟨hkey, hneg⟩ | ⟨hkey, hzero⟩ | ⟨hkey, hnneg, hpos⟩ := compare_cases hord elm n
      · rw [if_pos hneg]
        obtain ⟨b, hb, hbk, hrun⟩ | hleaf := ihl hfuel.1 (at_join (s := .left).mp H) hl
          (B.left hkey hgt) _
          (iff_of_true hneg rfl)
        · exact .inl ⟨b, by simp [toList, hb], hbk, hrun⟩
        · exact .inr hleaf
      · refine .inl ⟨n, by simp [toList], hkey.symm, ?_⟩
        rw [hzero]
        rfl
      · rw [if_neg hnneg, if_pos hpos]
        obtain ⟨b, hb, hbk, hrun⟩ | hleaf := ihr hfuel.2 (at_join (s := .right).mp H) hr
          (B.right hkey hlt) _
          (iff_of_false hnneg (by simp))
        · exact .inl ⟨b, by simp [toList, hb], hbk, hrun⟩
        · exact .inr hleaf

end Search

/-! ## Insertion -/

section Insert
variable {K : Type} [LinearOrder K] {cmp : ℕ → ℕ → ℤ} {key : ℕ → K} {w : World α}
  {fuel elm : ℕ} {t : ColorTree ℕ} {path : List (Frame ℕ)}

/-- The hole where a key belongs is its place in the list. -/
theorem Belongs.place_eq (B : Belongs key path elm) :
    OrderedSet.place key elm (plug path nil).toList = before path ++ elm :: behind path := by
  have hlower := B.lower
  have hupper := B.upper
  rw [toList_plug, toList, List.nil_append]
  generalize before path = pre at hlower ⊢
  generalize behind path = post at hupper ⊢
  induction pre with
  | nil =>
      cases post with
      | nil => rfl
      | cons b post => exact if_pos (hupper b (List.mem_cons_self ..))
  | cons b pre ih =>
      rw [List.forall_mem_cons] at hlower
      rw [List.cons_append, OrderedSet.place, if_neg hlower.1.not_gt, ih hlower.2,
        List.cons_append]

/-- The element becomes a red leaf in the hole. -/
theorem attach_spec (H : At w path nil) (helm : elm ∉ before path ++ behind path)
    (hsome : (w.heap.get elm).isSome) {comp : ℤ} (hcomp : Remembers comp path) :
    ∃ w', attach w elm (holder path) comp = some w' ∧ At w' path (node nil elm .red nil) := by
  obtain ⟨x, hx⟩ := Option.isSome_iff_exists.mp hsome
  let f : KrbNode α → KrbNode α := fun x =>
    { x with parent := holder path, left := none, right := none, color := .red }
  have hkeep : ∀ b ∈ before path ++ behind path, (w.put (some elm) f).heap.get b = w.heap.get b :=
    fun b hb => World.get_put_of_ne fun h => helm (Option.some.inj h ▸ hb)
  have hpath : PathLinked (w.put (some elm) f).heap path none := H.around.congr hkeep
  have hnodup : (before path ++ behind path).Nodup := H.nodup
  have hset : rbSet w elm (holder path) = some (w.put (some elm) f) := World.set_eq hsome
  refine ⟨(w.put (some elm) f).hang path (some elm), ?_, ⟨?_, ?_, ?_, ?_⟩⟩
  · rw [attach, hset, Option.bind_eq_bind, Option.bind_some]
    cases path with
    | nil => rfl
    | cons g gs =>
        obtain ⟨⟨v, hg⟩, -⟩ := hpath
        have hset : ∀ h, (w.put (some elm) f).set (some g.label) h =
            some ((w.put (some elm) f).put (some g.label) h) :=
          fun h => World.set_eq (Option.isSome_iff_exists.mpr ⟨_, hg⟩)
        rw [holder, if_neg (Option.some_ne_none _), hset, hset, World.hang]
        cases hside : g.side with
        | left => exact if_pos (hcomp.mpr hside)
        | right => exact if_neg fun hneg => by simp [hcomp.mp hneg] at hside
  · exact World.root_hang (w := w.put (some elm) f) H.root
  · exact hpath.refill hnodup fun b hb => rfl
  · refine ⟨⟨x.val, ?_⟩, trivial, trivial⟩
    rw [World.get_hang_of_ne (World.holder_ne helm), World.get_put_self, hx]
    rfl
  · exact List.nodup_cons.mpr ⟨helm, hnodup⟩

/-- `RB_INSERT_COLOR` below a place with a red tree. -/
theorem insertColor_of_redAt (hfuel : path.length < fuel) (H : At w path t)
    (ht : t.root = some elm) (R : RedAt path t) :
    ∃ w' T, w.insertColor fuel elm = some w' ∧ Holds w' T ∧ RedBlack T ∧
      T.toList = (plug path t).toList := by
  obtain ⟨w₁, T, hloop, hT, hcol, ⟨k, hk⟩, hlist, hne⟩ :=
    World.insertColorLoop_spec hfuel H ht R
  obtain ⟨b, hb⟩ := exists_root hne
  obtain ⟨w', hset, H'⟩ := World.paint_spec (holds_iff.mp hT) hb .black
  refine ⟨w', T.paint .black, ?_, holds_plug.mpr H', ⟨hcol.paint_black, ?_⟩, ?_⟩
  · rw [World.insertColor, hloop]
    change w₁.set w₁.guard.root _ = _
    rw [hT.root, hb, hset]
  · cases hc : T.color with
    | red => exact ⟨k + 1, hk.paint_black hc⟩
    | black => exact ⟨k, by rwa [← hc, paint_color]⟩
  · rw [toList_paint, hlist]

/-- A red leaf in a hole of a red-black tree. -/
theorem redAt_leaf (R : RedBlack (plug path nil)) : RedAt path (node nil elm .red nil) := by
  obtain ⟨hpath, -⟩ := colored_plug.mp R.1
  obtain ⟨k, hk, hfits⟩ := height_plug.mp R.2
  obtain rfl : k = 0 := hk
  exact ⟨rfl, ⟨fun _ => .inl rfl, trivial, trivial⟩, hpath, 0, ⟨0, rfl, rfl, rfl⟩, hfits⟩

/-- **Insertion.**  The element of an equal key is returned and nothing changes; without one
the element is linked in at its place. -/
theorem insert_spec (hord : Orders cmp key) (hfuel : t.depth < fuel) (T : IsTree key w t)
    (hsome : (w.heap.get elm).isSome) (helm : elm ∉ t.toList) :
    (∃ b, OrderedSet.lookup key (key elm) t.toList = some b ∧
      insert cmp fuel w elm = some (some b, w)) ∨
    ∃ w' t', OrderedSet.lookup key (key elm) t.toList = none ∧
      insert cmp fuel w elm = some (none, w') ∧ IsTree key w' t' ∧
      t'.toList = OrderedSet.place key elm t.toList := by
  have hdescent := descend_spec hord (Nat.le_of_lt hfuel) (holds_iff.mp T.holds) T.ascending
    (belongs_nil : Belongs key [] elm) 0 trivial
  rw [← T.holds.root] at hdescent
  obtain ⟨b, hb, hkey, hrun⟩ | ⟨path, comp, hplug, B, hcomp, hrun⟩ := hdescent
  · left
    refine ⟨b, (OrderedSet.lookup_eq_some_iff T.ascending).mpr ⟨hb, hkey⟩, ?_⟩
    rw [insert, show descend cmp w elm fuel w.guard.root none 0 = _ from hrun]
    rfl
  · right
    have hplug' : plug path nil = t := hplug
    subst hplug'
    have hlist : (plug path nil).toList = before path ++ behind path := by
      rw [toList_plug, toList, List.nil_append]
    have hlen := length_add_depth_le path nil
    rw [hlist] at helm
    obtain ⟨w₂, hattach, H₂⟩ := attach_spec (holds_plug.mp T.holds) helm hsome hcomp
    obtain ⟨w', t', hcolor, H', R', hlist'⟩ :=
      insertColor_of_redAt (by omega : path.length < fuel) H₂ rfl (redAt_leaf T.redBlack)
    have hnone : OrderedSet.lookup key (key elm) (plug path nil).toList = none := by
      rw [OrderedSet.lookup_eq_none_iff, hlist, List.forall_mem_append]
      exact ⟨fun b hb => (B.lower b hb).ne, fun b hb => (B.upper b hb).ne'⟩
    rw [toList_plug] at hlist'
    have hplace : t'.toList = OrderedSet.place key elm (plug path nil).toList := by
      rw [B.place_eq, hlist']
      simp [toList]
    refine ⟨w', t', hnone, ?_, ⟨H', R', ?_⟩, hplace⟩
    · rw [insert, show descend cmp w elm fuel w.guard.root none 0 = _ from hrun]
      simp only [Option.bind_eq_bind, Option.bind_some, hattach, hcolor]
    · rw [hplace]
      exact T.ascending.place (OrderedSet.lookup_eq_none_iff.mp hnone)

end Insert

/-! ## Removal -/

section Remove
variable {K : Type} [LinearOrder K] {key : ℕ → K} {w : World α} {fuel n m old : ℕ}
  {c d : Color} {t l q x : ColorTree ℕ} {path up : List (Frame ℕ)}

/-- The left-most node of a tree. -/
theorem leftmost_eq (hfuel : t.depth ≤ fuel) (H : At w path t) (hn : t.root = some n) :
    ∃ up m d x, w.leftmost fuel n = some m ∧ t = plug up (node nil m d x) ∧
      t.toList = m :: (plug up x).toList := by
  induction fuel generalizing path t n with
  | zero =>
      cases t with
      | nil => cases hn
      | node l a c r => simp [depth] at hfuel
  | succ fuel ih =>
      obtain ⟨l, r, hjoin⟩ := exists_join_of_root .left hn
      rw [hjoin] at H hfuel ⊢
      rw [depth_join, Nat.succ_le_succ_iff, Nat.max_le] at hfuel
      rw [World.leftmost, World.childOf_eq H, Option.bind_eq_bind, Option.bind_some]
      cases hl : l.root with
      | none =>
          cases l with
          | nil => exact ⟨[], n, t.color, r, rfl, rfl, rfl⟩
          | node => cases hl
      | some left =>
          obtain ⟨up, m, d, x, hrun, hplug, hlist⟩ := ih hfuel.1 (at_join.mp H) hl
          refine ⟨up ++ [⟨.left, n, t.color, r⟩], m, d, x, hrun, ?_, ?_⟩
          · rw [plug_append, ← hplug]
            rfl
          · rw [plug_append, join, toList, hlist]
            rfl

/-- The stores that put another node with the same links in the place of a node. -/
theorem succeed_spec (H : At w path (join .left l n c q)) (hl : l ≠ nil)
    (A : World.Parted l q n m (before path ++ behind path))
    (hm : ∃ v, w.heap.get m = some ⟨holder path, l.root, q.root, c, v⟩) :
    ∃ w₁ w₂ w', w.parentOf (some n) = some (holder path) ∧
      w.replaceChild (holder path) n (some m) = some w₁ ∧ w₁.childOf .left (some n) = some l.root ∧
      w₁.set l.root (fun y => { y with parent := some m }) = some w₂ ∧
      w₂.childOf .right (some n) = some q.root ∧
      w₂.setIf q.root (fun y => { y with parent := some m }) = some w' ∧
      At w' path (node l m c q) := by
  obtain ⟨⟨v, hn⟩, hlinked, hq⟩ := World.linked_join.mp H.linked
  have hload : ∀ (w : World α) a, w.heap.load (some a) = w.heap.get a := fun _ _ => rfl
  have hpath : PathLinked w.heap path (some n) := by
    have haround := H.around
    rwa [root_join] at haround
  have hroot : w.guard.root = World.rootOf path (some n) := by
    have hroot := H.root
    rwa [root_join] at hroot
  have hlroot : l.root ≠ none := Option.ne_none_iff_exists'.mpr (exists_root hl)
  -- the node itself is not written
  have hn₁ : (w.hang path (some m)).heap.get n = w.heap.get n :=
    World.get_hang_of_ne (World.holder_ne A.n_sides)
  have hkeep : ∀ b, l.root ≠ some b → q.root ≠ some b →
      (((w.hang path (some m)).put l.root fun y => { y with parent := some m }).put q.root
        fun y => { y with parent := some m }).heap.get b = (w.hang path (some m)).heap.get b := by
    intro b hlb hqb
    rw [World.get_put_of_ne hqb, World.get_put_of_ne hlb]
  have hlnodup : l.toList.Nodup ∧ ∀ b ∈ l.toList, b ∉ q.toList := by
    have hnodup := (List.nodup_append.mp H.nodup).1
    rw [join, toList, List.nodup_append, List.nodup_cons] at hnodup
    refine ⟨hnodup.1, fun b hb hbq => hnodup.2.2 b hb b ?_ rfl⟩
    exact List.mem_cons_of_mem _ hbq
  refine ⟨_, _, _, ?_, World.replaceChild_eq hpath A.n_sides, ?_, World.set_eq ?_, ?_,
    World.setIf_eq fun hne => ?_, ⟨World.root_hang hroot, ?_, ⟨?_, ?_, ?_⟩, ?_⟩⟩
  · rw [World.parentOf, hload, hn]
    rfl
  · rw [World.childOf, hload, hn₁, hn]
    rfl
  · rw [World.isSome_load_hang]
    exact hlinked.isSome_root hlroot
  · rw [World.childOf, hload, World.get_put_of_ne (root_ne_of_notMem A.n_l), hn₁, hn]
    rfl
  · rw [World.isSome_load_put, World.isSome_load_hang]
    exact hq.isSome_root hne
  · refine hpath.refill A.sides fun b hb => hkeep b ?_ ?_
    · exact root_ne_of_notMem fun h => A.l_sides b h hb
    · exact root_ne_of_notMem fun h => A.q_sides b h hb
  · obtain ⟨v', hm⟩ := hm
    refine ⟨v', ?_⟩
    rw [hkeep m (root_ne_of_notMem A.m_l) (root_ne_of_notMem A.m_q),
      World.get_hang_of_ne (World.holder_ne A.m_sides), hm]
  · refine hlinked.adopt hlnodup.1 fun b hb => ?_
    rw [World.get_put_of_ne (root_ne_of_notMem (hlnodup.2 b hb)), World.put, Heap.get_mapAt,
      Heap.get_mapAt, World.get_hang_of_ne (World.holder_ne (A.l_sides b hb))]
  · refine hq.adopt A.q fun b hb => ?_
    rw [World.put, Heap.get_mapAt, Heap.get_mapAt,
      World.get_put_of_ne (root_ne_of_notMem (A.q_l b hb)),
      World.get_hang_of_ne (World.holder_ne (A.q_sides b hb))]
  · have hperm : ∀ a, (node l a c q).toList.Perm (a :: (l.toList ++ q.toList)) :=
      fun _ => List.perm_middle
    have hnodup := ((hperm n).append_right _).nodup_iff.mp H.nodup
    rw [((hperm m).append_right _).nodup_iff]
    rw [List.cons_append, List.nodup_cons] at hnodup ⊢
    have hmsides := A.m_sides
    rw [List.mem_append] at hmsides
    simp only [List.mem_append, not_or]
    exact ⟨⟨⟨A.m_l, A.m_q⟩, not_or.mp hmsides⟩, hnodup.2⟩

/-- A node apart from a tree is written. -/
theorem at_put_of_notMem {f : KrbNode α → KrbNode α} (H : At w path t)
    (hm : m ∉ t.toList ++ (before path ++ behind path)) : At (w.put (some m) f) path t := by
  rw [List.mem_append, not_or] at hm
  refine ⟨H.root, H.around.congr fun b hb => ?_, H.linked.congr fun b hb => ?_, H.nodup⟩
  · exact World.get_put_of_ne fun h => hm.2 (Option.some.inj h ▸ hb)
  · exact World.get_put_of_ne fun h => hm.1 (Option.some.inj h ▸ hb)

/-- The loop to the root takes a turn for each node on the path. -/
theorem climb_spec {p : Option ℕ} (hfuel : path.length ≤ fuel) (H : PathLinked w.heap path p) :
    climb w fuel (holder path) = some () := by
  induction path generalizing fuel p with
  | nil => cases fuel <;> rfl
  | cons f fs ih =>
      obtain ⟨fuel, rfl⟩ : ∃ k, fuel = k + 1 := ⟨fuel - 1, by
        rw [List.length_cons] at hfuel
        omega⟩
      obtain ⟨⟨v, hf⟩, -, hfs⟩ := H
      have hload : w.heap.load (some f.label) = _ := hf
      have hup : w.parentOf (some f.label) = some (holder fs) := by
        rw [World.parentOf, hload, Option.map_some, KrbNode.parent_sided]
      rw [holder, climb, hup, Option.bind_eq_bind, Option.bind_some]
      exact ih (Nat.le_of_succ_le_succ hfuel) hfs

/-- **The successor takes the place of an element with two children**, and what was below it
moves up. -/
theorem removeInner_spec {k : ℕ} (hfuel : (up ++ ⟨.right, m, c, l⟩ :: path).length ≤ fuel)
    (H : At w path (node l n c (plug up (node nil m d x))))
    (hl : l ≠ nil) (hleft : w.leftmost fuel k = some m) :
    ∃ w', removeInner fuel w n k =
        some (d, holder (up ++ ⟨.right, m, c, l⟩ :: path), x.root, w') ∧
      At w' (up ++ ⟨.right, m, c, l⟩ :: path) x := by
  have A := H.parted
  have H₀ : At w (up ++ ⟨.right, n, c, l⟩ :: path) (join .right x m d nil) := by
    rw [← holds_plug, plug_append]
    exact holds_plug.mpr (at_join (s := .right).mp H)
  obtain ⟨v, hm⟩ := H₀.get
  obtain ⟨w₁, w₂, hset, hreplace, H₂, hm₂⟩ := World.takeOut_spec H₀
  rw [hm] at hm₂
  have hup : w₂.parentOf (some m) = some (holder (up ++ ⟨.right, n, c, l⟩ :: path)) := by
    have hload : w₂.heap.load (some m) = some _ := hm₂
    rw [World.parentOf, hload, Option.map_some, KrbNode.parent_sided]
  have H₂' : At w₂ path (join .left l n c (plug up x)) := by
    rw [← holds_plug, plug_append] at H₂
    exact at_join (s := .right).mpr (holds_plug.mp H₂)
  obtain ⟨vn, hn⟩ := H₂'.get
  -- the copy of the links
  have hapart : m ∉ (join .left l n c (plug up x)).toList ++ (before path ++ behind path) := by
    rw [join, toList, List.mem_append, List.mem_append, List.mem_cons]
    simp only [not_or]
    exact ⟨⟨A.m_l, A.m_ne, A.m_q⟩, A.m_sides⟩
  have hcopy : ∀ f, w₂.set (some m) f = some (w₂.put (some m) f) :=
    fun f => World.set_eq (Option.isSome_iff_exists.mpr ⟨_, hm₂⟩)
  have H₃ := at_put_of_notMem (f := fun y => { y with
    parent := holder path, left := l.root, right := (plug up x).root, color := c }) H₂' hapart
  obtain ⟨w₃, w₄, w', habove, hreplace₃, hleft₃, hset₄, hright₄, hset₅, H'⟩ :=
    succeed_spec H₃ hl A ⟨_, by rw [World.get_put_self, hm₂]; rfl⟩
  -- the parent to repair from is the successor itself when that was the right child
  have hparent : (if holder (up ++ ⟨.right, n, c, l⟩ :: path) = some n then some m
      else holder (up ++ ⟨.right, n, c, l⟩ :: path)) =
        holder (up ++ ⟨.right, m, c, l⟩ :: path) := by
    cases up with
    | nil => exact if_pos rfl
    | cons g gs =>
        have hne : holder (g :: gs) ≠ some n := fun h => A.n_q (mem_toList_plug_of_holder h)
        exact if_neg hne
  have Hx : At w' (up ++ ⟨.right, m, c, l⟩ :: path) x := by
    rw [← holds_plug, plug_append]
    exact holds_plug.mpr (at_join (s := .right).mp H')
  refine ⟨w', ?_, Hx⟩
  rw [removeInner, hleft, Option.bind_eq_bind, Option.bind_some, hm]
  simp only [Option.bind_eq_bind, Option.bind_some, KrbNode.sided, hset, hreplace, hup, hn, hcopy,
    habove, hreplace₃, hleft₃, hset₄, hright₄, hset₅, hparent, climb_spec hfuel Hx.around]

/-- Neither colours nor heights depend on a label. -/
theorem redBlack_relabel (h : RedBlack (plug path (node l n c q))) (m : ℕ) :
    RedBlack (plug path (node l m c q)) := by
  obtain ⟨hpath, hred, hl, hq⟩ := colored_plug.mp h.1
  obtain ⟨k, hk, hfits⟩ := height_plug.mp h.2
  refine ⟨colored_plug.mpr ⟨hpath, fun hc => ?_, hl, hq⟩, height_plug.mpr ⟨k, hk, hfits⟩⟩
  exact .inl ((hred hc).resolve_right nofun)

/-- The end of a removal: a node of the colour `d` with at most one child has gone. -/
theorem repair_spec {s : Side} (hfuel : path.length < fuel) (H : At w path x)
    (R : RedBlack (plug path (join s x m d nil))) :
    ∃ w' T, (if d = .black then w.removeColor fuel (holder path) x.root else some w) = some w' ∧
      Holds w' T ∧ RedBlack T ∧ T.toList = (plug path x).toList := by
  obtain ⟨hpath, hcol⟩ := colored_plug.mp R.1
  obtain ⟨-, hx, -⟩ := colored_join.mp hcol
  obtain ⟨k, hk, hfits⟩ := height_plug.mp R.2
  obtain ⟨j, hxj, rfl, rfl⟩ := height_join.mp hk
  cases d with
  | red =>
      -- there is no child, as it would have to be black
      obtain rfl := height_zero_of_color hxj hx.color_eq
      refine ⟨w, plug path nil, if_neg (by simp), holds_plug.mpr H, ⟨?_, ?_⟩, rfl⟩
      · exact colored_plug.mpr ⟨hpath, trivial⟩
      · exact height_plug.mpr ⟨0, rfl, hfits⟩
  | black =>
      obtain ⟨w', T, hrun, hT, hrb, hlist⟩ :=
        World.removeColor_of_shallowAt hfuel H ⟨hx.paint_black, hpath, 0, hxj, hfits⟩
      exact ⟨w', T, (if_pos rfl).trans hrun, hT, hrb, hlist⟩

/-- An element with at most one child. -/
theorem remove_leaf {s : Side} (hfuel : path.length < fuel) (H : At w path (join s x old c nil))
    (R : RedBlack (plug path (join s x old c nil))) :
    ∃ w' T, remove fuel w old = some (some old, w') ∧ Holds w' T ∧ RedBlack T ∧
      T.toList = (plug path (join s x old c nil)).toList.erase old := by
  obtain ⟨w₁, w₂, hset, hreplace, H₂, -⟩ := World.takeOut_spec H
  obtain ⟨w', T, hrun, hT, hrb, hlist⟩ := repair_spec hfuel H₂ R
  obtain ⟨v, hget⟩ := H.get
  have hleaf : w.unlinkLeaf old x.root = some (c, holder path, x.root, w₂) := by
    rw [World.unlinkLeaf, hget]
    simp only [Option.bind_eq_bind, Option.bind_some, KrbNode.parent_sided, KrbNode.color_sided,
      hset, hreplace]
  have hmatch : remove fuel w old = (w.unlinkLeaf old x.root).bind fun r =>
      (if r.1 = .black then r.2.2.2.removeColor fuel r.2.1 r.2.2.1 else some r.2.2.2).map
        fun w => (some old, w) := by
    rw [remove, hget]
    cases s with
    | left => cases x <;> rfl
    | right => rfl
  refine ⟨w', T, ?_, hT, hrb, hlist.trans H.toList_erase⟩
  rw [hmatch, hleaf, Option.bind_some, hrun, Option.map_some]

/-- The walk when the successor has taken the place of an element. -/
theorem toList_erase_inner (hnodup : (plug path (node l old c q)).toList.Nodup)
    (hq : q.toList = m :: (plug up x).toList) :
    (plug (up ++ ⟨.right, m, c, l⟩ :: path) x).toList =
      (plug path (node l old c q)).toList.erase old := by
  have hsplit : (plug path (node l old c q)).toList =
      (before path ++ l.toList) ++ old :: (q.toList ++ behind path) := by
    rw [toList_plug]
    simp [toList]
  have hnot : old ∉ before path ++ l.toList := by
    rw [hsplit] at hnodup
    exact fun h => (List.nodup_append.mp hnodup).2.2 old h old (List.mem_cons_self ..) rfl
  rw [hsplit, List.erase_append_right _ hnot, List.erase_cons_head, plug_append]
  change (plug path (node l m c (plug up x))).toList = _
  rw [toList_plug, hq]
  simp [toList]

/-- An element with two children. -/
theorem remove_inner (hfuel : (plug path (node l old c q)).depth < fuel)
    (H : At w path (node l old c q)) (R : RedBlack (plug path (node l old c q)))
    (hl : l ≠ nil) (hq : q ≠ nil) :
    ∃ w' T, remove fuel w old = some (some old, w') ∧ Holds w' T ∧ RedBlack T ∧
      T.toList = (plug path (node l old c q)).toList.erase old := by
  obtain ⟨a, ha⟩ := exists_root hl
  obtain ⟨k, hk⟩ := exists_root hq
  have hdepth := length_add_depth_le path (node l old c q)
  rw [depth] at hdepth
  obtain ⟨up, m, d, x, hleft, rfl, hlist⟩ :=
    leftmost_eq (by omega : q.depth ≤ fuel) (at_join (s := .right).mp H) hk
  have hnodup := (holds_plug.mpr H).nodup
  have R₁ : RedBlack (plug (up ++ ⟨.right, m, c, l⟩ :: path) (join .right x m d nil)) := by
    rw [plug_append]
    exact redBlack_relabel R m
  have hlen := length_add_depth_le up (node nil m d x)
  have hfuel₁ : (up ++ ⟨.right, m, c, l⟩ :: path).length < fuel := by
    rw [depth] at hlen
    simp only [List.length_append, List.length_cons]
    omega
  obtain ⟨w₁, hinner, H₁⟩ := removeInner_spec (Nat.le_of_lt hfuel₁) H hl hleft
  obtain ⟨w', T, hrun, hT, hrb, hlist'⟩ := repair_spec hfuel₁ H₁ R₁
  obtain ⟨⟨v, hget⟩, -⟩ := H.linked
  rw [ha, hk] at hget
  refine ⟨w', T, ?_, hT, hrb, hlist'.trans (toList_erase_inner hnodup hlist)⟩
  rw [remove, hget]
  simp only [Option.bind_eq_bind, Option.bind_some, hinner, hrun, Option.map_some]

/-- **Removal.**  The element is returned, and the tree loses it. -/
theorem remove_spec (hfuel : t.depth < fuel) (T : IsTree key w t) (hold : old ∈ t.toList) :
    ∃ w' t', remove fuel w old = some (some old, w') ∧ IsTree key w' t' ∧
      t'.toList = t.toList.erase old := by
  obtain ⟨path, l, c, r, rfl⟩ := exists_plug hold
  have H := holds_plug.mp T.holds
  have hascending : OrderedSet.Ascending key ((plug path (node l old c r)).toList.erase old) :=
    List.Pairwise.sublist List.erase_sublist T.ascending
  suffices hrun : ∃ w' t', remove fuel w old = some (some old, w') ∧ Holds w' t' ∧ RedBlack t' ∧
      t'.toList = (plug path (node l old c r)).toList.erase old by
    obtain ⟨w', t', hrun, hT, hrb, hlist⟩ := hrun
    exact ⟨w', t', hrun, ⟨hT, hrb, hlist ▸ hascending⟩, hlist⟩
  have hlen := length_add_depth_le path (node l old c r)
  have hpath : path.length < fuel := by omega
  by_cases hl : l = nil
  · subst hl
    exact remove_leaf (s := .right) hpath H T.redBlack
  · by_cases hr : r = nil
    · subst hr
      exact remove_leaf (s := .left) hpath H T.redBlack
    · exact remove_inner hfuel H T.redBlack hl hr

end Remove

end RbHpi

end Kylin
