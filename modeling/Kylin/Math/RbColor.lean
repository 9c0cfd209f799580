import Kylin.Lib.Rebalance
import Kylin.Math.RbLinks

/-!
# Rebalancing after an insertion and after a removal

`_insert_color` and `_remove_color` (`lib/core/math/kylin_rb.c`) on linked trees.  Each turn of
their loops is one case of the bottom-up repair of a red-black tree: the place it leaves is
the one that `RedAt` and `ShallowAt` have a lemma about.

## Main results

* `insertColor_spec` — a red leaf below a red node, or at the root, is repaired.
* `removeColor_spec` — a subtree that is too shallow by one is repaired.
-/

namespace Kylin

open Lib ColorTree

namespace Krb.World
variable {α : Type} {w : World α} {s : Side} {f g : Frame ℕ} {fs gs path : List (Frame ℕ)}
  {n p q m fuel : ℕ} {c d : Color} {t x y z : ColorTree ℕ}

/-! ## Places and their neighbours -/

/-- The same two trees below a node, seen from the other one. -/
theorem at_swap : At w (⟨s, n, c, y⟩ :: fs) x ↔ At w (⟨s.other, n, c, x⟩ :: fs) y := by
  rw [at_cons, at_cons, join_other]

/-- One step down. -/
theorem at_join : At w path (join s x n c y) ↔ At w (⟨s, n, c, y⟩ :: path) x := by
  rw [at_cons]

/-- The node above a place. -/
theorem At.above (H : At w (f :: fs) t) :
    ∃ v, w.heap.get f.label = some (.sided f.side (holder fs) t.root f.sibling.root f.color v) :=
  H.around.1

/-- The node of a place. -/
theorem At.exists_get (H : At w path t) (hn : t.root = some n) :
    ∃ x, w.heap.get n = some x ∧ x.parent = holder path ∧ x.color = t.color := by
  cases t with
  | nil => cases hn
  | node l a c r =>
      cases hn
      obtain ⟨⟨v, hget⟩, -⟩ := H.linked
      exact ⟨_, hget, rfl, rfl⟩

/-- A node is not its own sibling. -/
theorem At.sibling_ne (H : At w (f :: fs) t) (hn : t.root = some n) : f.sibling.root ≠ some n := by
  intro h
  have hdisj := (List.nodup_append.mp H.nodup).2.2 n (mem_toList_of_root hn) n
  exact hdisj (mem_sides_cons.mpr (.inr (.inl (mem_toList_of_root h)))) rfl

/-- The node above a place is painted, -/
theorem paint_above (H : At w (f :: fs) t) (d : Color) :
    ∃ w', w.set (some f.label) (fun x => { x with color := d }) = some w' ∧
      At w' (⟨f.side, f.label, d, f.sibling⟩ :: fs) t := by
  obtain ⟨w', hw', H'⟩ := paint_spec (at_cons.mp H) root_join d
  rw [paint_join] at H'
  exact ⟨w', hw', at_cons.mpr H'⟩

/-- or the one beside it. -/
theorem paint_beside (H : At w (f :: fs) t) (hm : f.sibling.root = some m) (d : Color) :
    ∃ w', w.set (some m) (fun x => { x with color := d }) = some w' ∧
      At w' (⟨f.side, f.label, f.color, f.sibling.paint d⟩ :: fs) t := by
  obtain ⟨w', hw', H'⟩ := paint_spec (at_swap.mp H) hm d
  exact ⟨w', hw', at_swap.mpr H'⟩

/-- The test `node == RB_LEFT(parent)` of a child on the side `s`. -/
theorem ite_left {β : Type} (F : Side → β) {x : KrbNode α} {r : Option ℕ} (hx : x.child s = r)
    (hne : x.child s.other ≠ r) : (if x.left = r then F .left else F .right) = F s := by
  cases s with
  | left => exact if_pos hx
  | right => exact if_neg hne

/-! ## Insertion -/

/-- The grandparent goes down on the other side. -/
theorem rotate_outer {u : ColorTree ℕ}
    (H : At w (⟨s, p, c, x⟩ :: ⟨s, q, d, u⟩ :: gs) t) :
    ∃ w', w.rotate s.other q = some w' ∧ At w' (⟨s, p, c, join s x q d u⟩ :: gs) t := by
  have H₀ : At w gs (join s.other u q d (join s.other x p c t)) := by
    rw [join_other, join_other]
    exact at_cons.mp (at_cons.mp H)
  obtain ⟨w', hw', H'⟩ := rotate_spec H₀
  rw [join_other, join_other] at H'
  exact ⟨w', hw', at_cons.mpr H'⟩

/-- The parent goes down below an inner child. -/
theorem rotate_inner {u : ColorTree ℕ} (H : At w (⟨s.other, p, c, u⟩ :: fs) (join s x n d y)) :
    ∃ w', w.rotate s p = some w' ∧ At w' (⟨s, n, d, y⟩ :: fs) (join s u p c x) := by
  rw [at_cons, join_other] at H
  obtain ⟨w', hw', H'⟩ := rotate_spec H
  exact ⟨w', hw', at_cons.mpr H'⟩

/-- The node beside a place. -/
theorem At.beside (H : At w (f :: fs) t) (hm : f.sibling.root = some m) :
    ∃ x, w.heap.get m = some x ∧ x.color = f.sibling.color := by
  obtain ⟨x, hget, -, hcolor⟩ := (at_swap.mp H).exists_get hm
  exact ⟨x, hget, hcolor⟩

theorem exists_root_of_red (h : t.color = .red) : ∃ m, t.root = some m := by
  apply exists_root
  rintro rfl
  cases h

/-- A red uncle: the two levels above are recoloured. -/
theorem insertColorTurn_recolor (H : At w (f :: g :: gs) t) (hu : g.sibling.color = .red) (n : ℕ) :
    ∃ w', w.insertColorTurn g.side n f.label g.label = some (g.label, w') ∧
      At w' gs (join g.side (join f.side t f.label .black f.sibling) g.label .red
        (g.sibling.paint .black)) := by
  obtain ⟨v, hg⟩ := (at_cons.mp H).above
  obtain ⟨m, hm⟩ := exists_root_of_red hu
  obtain ⟨u, huncle, hcolor⟩ := (at_cons.mp H).beside hm
  rw [hu] at hcolor
  obtain ⟨w₁, hset₁, H₁⟩ := paint_beside (at_cons.mp H) hm .black
  obtain ⟨w₂, hset₂, H₂⟩ := paint_above (at_cons.mpr H₁) .black
  obtain ⟨w₃, hset₃, H₃⟩ := paint_above (at_cons.mp H₂) .red
  refine ⟨w₃, ?_, at_cons.mp H₃⟩
  rw [insertColorTurn, hg]
  simp only [Option.bind_eq_bind, Option.bind_some, KrbNode.child_other_sided, hm, huncle, hcolor,
    Option.map_some, if_true, hset₁, hset₂, hset₃]

/-- The end of a turn without a red uncle. -/
theorem insertColorTurn_rotate {u : ColorTree ℕ} (H : At w (⟨s, p, c, x⟩ :: ⟨s, q, d, u⟩ :: gs) t) :
    ∃ w₁ w₂ w', w.set (some p) (fun x => { x with color := .black }) = some w₁ ∧
      w₁.set (some q) (fun x => { x with color := .red }) = some w₂ ∧
      w₂.rotate s.other q = some w' ∧ At w' (⟨s, p, .black, join s x q .red u⟩ :: gs) t := by
  obtain ⟨w₁, hset₁, H₁⟩ := paint_above H .black
  obtain ⟨w₂, hset₂, H₂⟩ := paint_above (at_cons.mp H₁) .red
  obtain ⟨w', hrot, H'⟩ := rotate_outer (at_cons.mpr H₂)
  exact ⟨w₁, w₂, w', hset₁, hset₂, hrot, H'⟩

/-- A turn without a red uncle looks at the parent alone. -/
theorem insertColorTurn_black (H : At w (f :: g :: gs) t) (hu : g.sibling.color = .black) (n : ℕ) :
    w.insertColorTurn g.side n f.label g.label = (do
      let p ← w.heap.get f.label
      let (child, parent, w) ←
        if p.child g.side.other = some n then do
          let w ← w.rotate g.side f.label
          some (f.label, n, w)
        else some (n, f.label, w)
      let w ← w.set (some parent) fun p => { p with color := .black }
      let w ← w.set (some g.label) fun g => { g with color := .red }
      let w ← w.rotate g.side.other g.label
      some (child, w)) := by
  obtain ⟨v, hg⟩ := (at_cons.mp H).above
  rw [insertColorTurn, hg]
  cases hm : g.sibling.root with
  | none => simp only [Option.bind_eq_bind, Option.bind_some, KrbNode.child_other_sided]
  | some m =>
      obtain ⟨x, hget, hblack⟩ := (at_cons.mp H).beside hm
      rw [hu] at hblack
      simp only [Option.bind_eq_bind, Option.bind_some, KrbNode.child_other_sided, hget,
        Option.map_some, hblack, reduceCtorEq, if_false]

/-- An outer child: one rotation. -/
theorem insertColorTurn_outer (H : At w (f :: g :: gs) t) (hn : t.root = some n)
    (hs : f.side = g.side) (hu : g.sibling.color = .black) :
    ∃ w', w.insertColorTurn g.side n f.label g.label = some (n, w') ∧
      At w' (⟨g.side, f.label, .black, join g.side f.sibling g.label .red g.sibling⟩ :: gs) t := by
  have hturn := insertColorTurn_black H hu n
  obtain ⟨v, hf⟩ := H.above
  have hne := H.sibling_ne hn
  obtain ⟨side, p, c, x⟩ := f
  obtain rfl : side = g.side := hs
  obtain ⟨w₁, w₂, w', hset₁, hset₂, hrot, H'⟩ := insertColorTurn_rotate H
  refine ⟨w', ?_, H'⟩
  rw [hturn]
  simp only [Option.bind_eq_bind, Option.bind_some, KrbNode.child_other_sided, hf, if_neg hne,
    hset₁, hset₂, hrot]

/-- An inner child: two rotations. -/
theorem insertColorTurn_inner (H : At w (f :: g :: gs) (join g.side x n c y))
    (hs : f.side = g.side.other) (hu : g.sibling.color = .black) :
    ∃ w', w.insertColorTurn g.side n f.label g.label = some (f.label, w') ∧
      At w' (⟨g.side, n, .black, join g.side y g.label .red g.sibling⟩ :: gs)
        (join g.side f.sibling f.label f.color x) := by
  have hturn := insertColorTurn_black H hu n
  obtain ⟨v, hf⟩ := H.above
  obtain ⟨side, p, c', u⟩ := f
  obtain rfl : side = g.side.other := hs
  obtain ⟨w₀, hrot₀, H₀⟩ := rotate_inner H
  obtain ⟨w₁, w₂, w', hset₁, hset₂, hrot, H'⟩ := insertColorTurn_rotate H₀
  refine ⟨w', ?_, H'⟩
  have hchild := KrbNode.child_sided g.side.other (holder (g :: gs)) (some n) u.root c' v
  rw [root_join] at hf
  rw [hturn]
  simp only [Option.bind_eq_bind, Option.bind_some, hf, hchild, if_true, hrot₀, hset₁, hset₂,
    hrot]

/-- The loop ends below a black node, and at the root. -/
theorem insertColorLoop_stop (H : At w path t) (hn : t.root = some n)
    (h : path = [] ∨ aboveColor path = .black) : insertColorLoop (fuel + 1) w n = some w := by
  obtain ⟨x, hget, hparent, -⟩ := H.exists_get hn
  cases path with
  | nil => simp [insertColorLoop, hget, hparent, holder]
  | cons f fs =>
      obtain ⟨v, hf⟩ := H.above
      have hblack : f.color = .black := h.resolve_left (by simp)
      simp [insertColorLoop, hget, hparent, holder, hf, hblack]

/-- A turn of the loop, on the side where the parent is. -/
theorem insertColorLoop_turn (H : At w (f :: g :: gs) t) (hn : t.root = some n)
    (hf : f.color = .red) :
    insertColorLoop (fuel + 1) w n =
      (w.insertColorTurn g.side n f.label g.label).bind fun r => insertColorLoop fuel r.2 r.1 := by
  obtain ⟨x, hget, hparent, -⟩ := H.exists_get hn
  obtain ⟨v, hf'⟩ := H.above
  obtain ⟨v', hg⟩ := (at_cons.mp H).above
  have hne := (at_cons.mp H).sibling_ne root_join
  have hside := ite_left (s := g.side) (fun s => (w.insertColorTurn s n f.label g.label).bind
    fun r => insertColorLoop fuel r.2 r.1)
    (KrbNode.child_sided _ _ _ _ _ _)
    (by rwa [KrbNode.child_other_sided, root_join] :
      (KrbNode.sided g.side (holder gs) (join f.side t f.label f.color f.sibling).root
        g.sibling.root g.color v').child g.side.other ≠ _)
  rw [root_join] at hg hside
  rw [insertColorLoop, hget]
  simp only [Option.bind_eq_bind, Option.bind_some, hparent, holder, hf',
    KrbNode.color_sided, hf, if_true, KrbNode.parent_sided, hg]
  exact hside

/-- **The loop of `_insert_color`** leaves no fault but a root that may be red. -/
theorem insertColorLoop_spec (hfuel : path.length < fuel) (H : At w path t) (hn : t.root = some n)
    (R : RedAt path t) :
    ∃ w' T, insertColorLoop fuel w n = some w' ∧ Holds w' T ∧ Colored none .black T ∧
      (∃ k, Height T k) ∧ T.toList = (plug path t).toList ∧ T ≠ nil := by
  induction fuel generalizing w path t n with
  | zero => cases hfuel
  | succ fuel ih =>
      by_cases hstop : path = [] ∨ aboveColor path = .black
      · refine ⟨w, plug path t, insertColorLoop_stop H hn hstop, holds_plug.mpr H,
          R.colored hstop, height_plug.mpr R.height, rfl, fun h => ?_⟩
        have hle := length_le_length_toList_plug path t
        have hpos := List.length_pos_of_mem (mem_toList_of_root hn)
        rw [h, toList, List.length_nil] at hle
        omega
      · -- the parent is red, so there is a black grandparent
        obtain ⟨f, g, gs, rfl, hf, hg⟩ : ∃ f g gs, path = f :: g :: gs ∧ f.color = .red ∧
            g.color = .black := by
          cases path with
          | nil => simp at hstop
          | cons f fs =>
              have hf : f.color = .red := by
                cases hc : f.color with
                | red => rfl
                | black => exact absurd (.inr hc) hstop
              obtain ⟨g, gs, rfl, hg⟩ := R.around.exists_black hf
              exact ⟨f, g, gs, rfl, hf, hg⟩
        rw [insertColorLoop_turn H hn hf]
        simp only [List.length_cons] at hfuel
        cases hu : g.sibling.color with
        | red =>
            obtain ⟨w', hturn, H'⟩ := insertColorTurn_recolor H hu n
            rw [hturn, Option.bind_some]
            obtain ⟨w'', T, hloop, hT, hcol, hheight, hlist, hne⟩ :=
              ih (by omega) H' root_join (R.recolor hf hg hu)
            refine ⟨w'', T, hloop, hT, hcol, hheight, hlist.trans ?_, hne⟩
            exact toList_plug_congr (toList_join_congr (toList_join_congr rfl rfl) (toList_paint _))
        | black =>
            obtain hs | hs := Side.eq_or_eq_other g.side f.side
            · obtain ⟨w', hturn, H'⟩ := insertColorTurn_outer H hn hs hu
              rw [hturn, Option.bind_some]
              obtain ⟨w'', T, hloop, hT, hcol, hheight, hlist, hne⟩ :=
                ih (by simp only [List.length_cons]; omega) H' hn (R.outer hf hg hu g.side)
              refine ⟨w'', T, hloop, hT, hcol, hheight, hlist.trans ?_, hne⟩
              change (plug gs _).toList = (plug gs _).toList
              apply toList_plug_congr
              simp only [Frame.fill, hs]
              exact toList_rotate
            · obtain ⟨x, y, hxy⟩ := exists_join_of_root g.side hn
              rw [R.color] at hxy
              subst hxy
              obtain ⟨w', hturn, H'⟩ := insertColorTurn_inner H hs hu
              rw [hturn, Option.bind_some]
              rw [hf] at H'
              obtain ⟨w'', T, hloop, hT, hcol, hheight, hlist, hne⟩ :=
                ih (by simp only [List.length_cons]; omega) H' root_join (R.inner hf hg hu)
              refine ⟨w'', T, hloop, hT, hcol, hheight, hlist.trans ?_, hne⟩
              change (plug gs _).toList = (plug gs _).toList
              apply toList_plug_congr
              simp only [Frame.fill, hs, join_other]
              exact toList_rotate_twice

/-- **Insertion fix-up.**  In a linked tree whose only fault may be that the red leaf `n` has a
red parent, or is the root, `_insert_color` returns, and the tree is a red-black tree with the
same walk. -/
theorem insertColor_spec (H : Holds w (plug path (node nil n .red nil)))
    (hcol : Colored (some n) .red (plug path (node nil n .red nil)))
    (hheight : ∃ k, Height (plug path (node nil n .red nil)) k)
    (hfuel : (plug path (node nil n .red nil)).toList.length < fuel) :
    ∃ w' T, w.insertColor fuel n = some w' ∧ Holds w' T ∧ RedBlack T ∧
      T.toList = (plug path (node nil n .red nil)).toList ∧ Relinked w w' := by
  have hat := holds_plug.mp H
  have hlen := length_le_length_toList_plug path (node nil n .red nil)
  obtain ⟨hpath, -⟩ := colored_plug.mp hcol
  have hnot : n ∉ before path ++ behind path :=
    fun h => (List.nodup_append.mp hat.nodup).2.2 n (by simp [toList]) n h rfl
  have R : RedAt path (node nil n .red nil) :=
    ⟨rfl, ⟨fun _ => .inl rfl, trivial, trivial⟩, hpath.of_notMem hnot, height_plug.mp hheight⟩
  obtain ⟨w₁, T, hloop, hT, hTcol, ⟨k, hk⟩, hlist, hne⟩ :=
    insertColorLoop_spec (by omega : path.length < fuel) hat rfl R
  -- the root is painted black
  obtain ⟨b, hb⟩ := exists_root hne
  obtain ⟨w', hset, H'⟩ := paint_spec (holds_iff.mp hT) hb .black
  have hrun : w.insertColor fuel n = some w' := by
    rw [insertColor, hloop]
    change w₁.set w₁.guard.root _ = _
    rw [hT.root, hb, hset]
  refine ⟨w', T.paint .black, hrun, holds_plug.mpr H', ⟨hTcol.paint_black, ?_⟩, ?_, ?_⟩
  · cases hc : T.color with
    | red => exact ⟨k + 1, hk.paint_black hc⟩
    | black => exact ⟨k, by rwa [← hc, paint_color]⟩
  · rw [toList_paint, hlist]
  · exact keeps_insertColor (stable_relinked w) fuel (.refl w) trivial w' hrun

/-- The world of some nodes, for the examples below. -/
def worldOf (root : ℕ) (nodes : List (ℕ × KrbNode ℕ)) : World ℕ :=
  { emptyTree.setRoot (some root) with heap := ⟨fun a => nodes.lookup a⟩ }

/-- A red leaf below a red node, at the left of the root. -/
def redLeaf : World ℕ :=
  worldOf 1 [(1, ⟨none, some 2, none, .black, .zero⟩), (2, ⟨some 1, some 3, none, .red, .zero⟩),
    (3, ⟨some 2, none, none, .red, .zero⟩)]

theorem insertColor_redLeaf :
    ∃ w' T, redLeaf.insertColor 4 3 = some w' ∧ Holds w' T ∧ RedBlack T ∧ T.toList = [3, 2, 1] ∧
      Relinked redLeaf w' :=
  insertColor_spec
    (⟨rfl, ⟨⟨_, rfl⟩, ⟨⟨_, rfl⟩, ⟨⟨_, rfl⟩, trivial, trivial⟩, trivial⟩, trivial⟩, by decide⟩ :
      Holds _ (plug [⟨.left, 2, .red, nil⟩, ⟨.left, 1, .black, nil⟩] (node nil 3 .red nil)))
    ⟨nofun, ⟨fun _ => .inl rfl, ⟨fun _ => .inr rfl, trivial, trivial⟩, trivial⟩, trivial⟩
    ⟨1, 0, ⟨0, ⟨0, rfl, rfl, rfl⟩, rfl, rfl⟩, rfl, rfl⟩ (by decide)

/-! ## Removal -/

theorem colorOf_eq (H : At w path t) (hn : t.root = some n) :
    w.colorOf (some n) = some t.color := by
  obtain ⟨x, hget, -, hcolor⟩ := H.exists_get hn
  have hload : w.heap.load (some n) = some x := hget
  rw [colorOf, hload, Option.map_some, hcolor]

theorem parentOf_eq (H : At w path t) (hn : t.root = some n) :
    w.parentOf (some n) = some (holder path) := by
  obtain ⟨x, hget, hparent, -⟩ := H.exists_get hn
  have hload : w.heap.load (some n) = some x := hget
  rw [parentOf, hload, Option.map_some, hparent]

theorem childOf_eq (H : At w path (join s x n c y)) : w.childOf s (some n) = some x.root := by
  obtain ⟨v, hget⟩ := H.get
  have hload : w.heap.load (some n) = some _ := hget
  rw [childOf, hload, Option.map_some, KrbNode.child_sided]

theorem childOf_other_eq (H : At w path (join s x n c y)) :
    w.childOf s.other (some n) = some y.root := by
  rw [← join_other] at H
  exact childOf_eq H

/-- The test of one nephew. -/
theorem blackChild_eq (H : At w path (join s x n c y)) :
    w.blackChild s (some n) = some (x.color == .black) := by
  have hx := at_join.mp H
  rw [blackChild, childOf_eq H]
  cases hroot : x.root with
  | none =>
      cases x with
      | nil => rfl
      | node l b c r => cases hroot
  | some b =>
      obtain ⟨u, hget, -, hcolor⟩ := hx.exists_get hroot
      simp [hget, hcolor]

theorem blackChild_other_eq (H : At w path (join s x n c y)) :
    w.blackChild s.other (some n) = some (y.color == .black) := by
  rw [← join_other] at H
  exact blackChild_eq H

/-- The first part of a turn: the sibling is black afterwards. -/
theorem removeColorRed_spec (H : At w (f :: fs) t) (S : ShallowAt (f :: fs) t) :
    ∃ w' c y m z fs', w.removeColorRed f.side f.label = some (some m, w') ∧
      At w' (⟨f.side, f.label, c, join f.side y m .black z⟩ :: fs') t ∧
      ShallowAt (⟨f.side, f.label, c, join f.side y m .black z⟩ :: fs') t ∧
      (plug (⟨f.side, f.label, c, join f.side y m .black z⟩ :: fs') t).toList =
        (plug (f :: fs) t).toList ∧ (fs' = fs ∨ c = .red) := by
  obtain ⟨y, m, z, hsib⟩ := S.exists_sibling f.side
  obtain ⟨s, p, c, u⟩ := f
  dsimp only at hsib ⊢
  have hm : u.root = some m := by rw [hsib, root_join]
  have hcolor := colorOf_eq (at_swap.mp H) hm
  have htmp : w.childOf s.other (some p) = some (some m) := by
    rw [childOf_other_eq (at_cons.mp H), hm]
  cases hc : u.color with
  | black =>
      rw [hc] at hsib hcolor
      refine ⟨w, c, y, m, z, fs, ?_, ?_, ?_, ?_, .inl rfl⟩
      · simp [removeColorRed, htmp, hcolor]
      · rwa [← hsib]
      · rwa [← hsib]
      · rw [← hsib]
  | red =>
      rw [hc] at hsib hcolor
      subst hsib
      obtain ⟨S', hy⟩ := S.redSibling
      obtain ⟨w₁, hset₁, H₁⟩ := paint_beside H hm .black
      obtain ⟨w₂, hset₂, H₂⟩ := paint_above H₁ .red
      dsimp only at H₂ hset₂
      rw [paint_join, at_cons] at H₂
      obtain ⟨w₃, hrot, H₃⟩ := rotate_spec H₂
      have H₄ : At w₃ (⟨s, p, .red, y⟩ :: ⟨s, m, .black, z⟩ :: fs) t :=
        at_join.mp (at_join.mp H₃)
      obtain ⟨y', m', z', hsib'⟩ := S'.exists_sibling s
      dsimp only at hsib'
      rw [hy] at hsib'
      have htmp' : w₃.childOf s.other (some p) = some (some m') := by
        rw [childOf_other_eq (at_cons.mp H₄), hsib', root_join]
      refine ⟨w₃, .red, y', m', z', ⟨s, m, .black, z⟩ :: fs, ?_, ?_, ?_, ?_, .inr rfl⟩
      · simp [removeColorRed, htmp, hcolor, hset₁, hset₂, hrot, htmp']
      · rwa [← hsib']
      · rwa [← hsib']
      · rw [← hsib']
        exact toList_plug_congr toList_rotate.symm

/-- Two black nephews: the place moves up. -/
theorem removeColorTurn_climb {w₁ : World α} (hred : w.removeColorRed s p = some (some m, w₁))
    (H : At w₁ (⟨s, p, c, join s y m .black z⟩ :: fs) t) (hy : y.color = .black)
    (hz : z.color = .black) :
    ∃ w', w.removeColorTurn s p = some (some (p, holder fs), w') ∧
      At w' fs (join s t p c (join s y m .red z)) := by
  obtain ⟨w₂, hset, H₂⟩ := paint_beside H root_join .red
  dsimp only at H₂
  rw [paint_join] at H₂
  have hup := parentOf_eq (at_cons.mp H₂) root_join
  refine ⟨w₂, ?_, at_cons.mp H₂⟩
  have hnear := blackChild_eq (at_swap.mp H)
  have hfar := blackChild_other_eq (at_swap.mp H)
  rw [hy] at hnear
  rw [hz] at hfar
  rw [removeColorTurn, hred]
  cases s <;> simp only [Side.other] at hnear hfar <;> simp [hnear, hfar, hset, hup]

/-- Otherwise the sibling is made one with a red outer child. -/
theorem removeColorInner_spec (H : At w (⟨s, p, c, join s y m .black z⟩ :: fs) t)
    (S : ShallowAt (⟨s, p, c, join s y m .black z⟩ :: fs) t)
    (hred : ¬ (y.color = .black ∧ z.color = .black)) :
    ∃ w' y' m' z', w.removeColorInner s p (some m) = some (some m', w') ∧
      At w' (⟨s, p, c, join s y' m' .black z'⟩ :: fs) t ∧
      ShallowAt (⟨s, p, c, join s y' m' .black z'⟩ :: fs) t ∧ z'.color = .red ∧
      (join s y' m' .black z').toList = (join s y m .black z).toList := by
  have hfar := blackChild_other_eq (at_swap.mp H)
  cases hz : z.color with
  | red =>
      rw [hz] at hfar
      exact ⟨w, y, m, z, by simp [removeColorInner, hfar], H, S, hz, rfl⟩
  | black =>
      have hy : y.color = .red := by
        cases hc : y.color with
        | red => rfl
        | black => exact absurd ⟨hc, hz⟩ hred
      obtain ⟨a, ha⟩ := exists_root_of_red hy
      obtain ⟨y₁, y₂, hjoin⟩ := exists_join_of_root s ha
      rw [hy] at hjoin
      subst hjoin
      rw [hz] at hfar
      have hinner := childOf_eq (at_swap.mp H)
      rw [root_join] at hinner
      obtain ⟨w₁, hset₁, H₁⟩ := paint_spec (at_join.mp (at_swap.mp H)) root_join .black
      rw [paint_join, at_cons] at H₁
      obtain ⟨w₂, hset₂, H₂⟩ := paint_spec H₁ root_join .red
      rw [paint_join] at H₂
      obtain ⟨w₃, hrot, H₃⟩ := rotate_outer (at_join.mp (at_join.mp H₂))
      have H₄ := at_swap.mpr (at_cons.mp H₃)
      have htmp : w₃.childOf s.other (some p) = some (some a) := by
        rw [childOf_other_eq (at_cons.mp H₄), root_join]
      refine ⟨w₃, y₁, a, join s y₂ m .red z, ?_, H₄, S.inner hz, color_join, toList_rotate⟩
      dsimp only at hset₂
      simp [removeColorInner, hfar, hinner, setIf, hset₁, hset₂, hrot, htmp]

/-- The last part of a turn. -/
theorem removeColorOuter_spec (H : At w (⟨s, p, c, join s y m .black z⟩ :: fs) t)
    (hz : z.color = .red) :
    ∃ w', w.removeColorOuter s p (some m) = some w' ∧
      At w' fs (join s (join s t p .black y) m c (z.paint .black)) := by
  obtain ⟨b, hb⟩ := exists_root_of_red hz
  have hcolor := colorOf_eq (at_cons.mp H) root_join
  rw [color_join] at hcolor
  obtain ⟨w₁, hset₁, H₁⟩ := paint_beside H root_join c
  obtain ⟨w₂, hset₂, H₂⟩ := paint_above H₁ .black
  dsimp only at H₂ hset₂
  rw [paint_join] at H₂
  have houter := childOf_other_eq (at_swap.mp H₂)
  rw [hb] at houter
  obtain ⟨w₃, hset₃, H₃⟩ := paint_beside (at_join.mp (at_swap.mp H₂)) hb .black
  obtain ⟨w₄, hrot, H₄⟩ := rotate_spec (at_cons.mp (at_swap.mpr (at_cons.mp H₃)))
  refine ⟨w₄, ?_, H₄⟩
  simp [removeColorOuter, hcolor, hset₁, hset₂, houter, setIf, hset₃, hrot]

/-- A red nephew: the repair ends. -/
theorem removeColorTurn_outer {w₁ : World α} (hred : w.removeColorRed s p = some (some m, w₁))
    (H : At w₁ (⟨s, p, c, join s y m .black z⟩ :: fs) t)
    (S : ShallowAt (⟨s, p, c, join s y m .black z⟩ :: fs) t) (ht : t.color = .black)
    (hnephew : ¬ (y.color = .black ∧ z.color = .black)) :
    ∃ w' T, w.removeColorTurn s p = some (none, w') ∧ Holds w' T ∧ RedBlack T ∧
      T.toList = (plug (⟨s, p, c, join s y m .black z⟩ :: fs) t).toList := by
  obtain ⟨w₂, y', m', z', hinner, H₂, S₂, hz', hlist⟩ := removeColorInner_spec H S hnephew
  obtain ⟨w', houter, H'⟩ := removeColorOuter_spec H₂ hz'
  refine ⟨w', _, ?_, holds_plug.mpr H', S₂.outer ht hz', ?_⟩
  · have hnear := blackChild_eq (at_swap.mp H)
    have hfar := blackChild_other_eq (at_swap.mp H)
    rw [removeColorTurn, hred]
    cases hy : y.color <;> cases hz : z.color <;> rw [hy] at hnear <;> rw [hz] at hfar
    case black.black => exact absurd ⟨hy, hz⟩ hnephew
    all_goals
      cases s <;> simp only [Side.other] at hnear hfar <;> simp [hnear, hfar, hinner, houter]
  · change _ = (plug fs _).toList
    apply toList_plug_congr
    calc (join s (join s t p .black y') m' c (z'.paint .black)).toList
        = (join s (join s t p .black y') m' c z').toList := toList_join_congr rfl (toList_paint _)
      _ = (join s t p c (join s y' m' .black z')).toList := toList_rotate.symm
      _ = (join s t p c (join s y m .black z)).toList := toList_join_congr rfl hlist

/-- The root of the tree around a place is on the path. -/
theorem exists_rootOf (f : Frame ℕ) (fs : List (Frame ℕ)) (r : Option ℕ) :
    ∃ b, rootOf (f :: fs) r = some b ∧ b ∈ before (f :: fs) ++ behind (f :: fs) := by
  induction fs generalizing f r with
  | nil => exact ⟨f.label, rfl, mem_sides_cons.mpr (.inl rfl)⟩
  | cons g gs ih =>
      obtain ⟨b, hb, hmem⟩ := ih g (some f.label)
      exact ⟨b, hb, mem_sides_cons.mpr (.inr (.inr hmem))⟩

/-- A place below another node is not the root. -/
theorem At.root_ne (H : At w (f :: fs) t) : t.root ≠ w.guard.root := by
  intro h
  obtain ⟨b, hb, hmem⟩ := exists_rootOf f fs t.root
  have hroot := h.trans (H.root.trans hb)
  exact (List.nodup_append.mp H.nodup).2.2 b (mem_toList_of_root hroot) b hmem rfl

/-- The test `node == NULL || RB_COLOR(node) == RB_BLACK`. -/
theorem blackTest_eq (H : At w path t) :
    (if t.root = none then some true else (w.colorOf t.root).map fun c => c == .black) =
      some (t.color == .black) := by
  cases hn : t.root with
  | none =>
      cases t with
      | nil => rfl
      | node l b c r => cases hn
  | some n => rw [if_neg (Option.some_ne_none n), colorOf_eq H hn, Option.map_some]

/-- The loop ends at a red node, and at the root. -/
theorem removeColorLoop_stop (H : At w path t) (h : path = [] ∨ t.color = .red) :
    removeColorLoop (fuel + 1) w (holder path) t.root = some (t.root, w) := by
  have hstop : ¬ ((t.color == .black) = true ∧ t.root ≠ w.guard.root) := by
    rintro ⟨hblack, hne⟩
    obtain rfl | hred := h
    · exact hne H.root.symm
    · rw [hred] at hblack
      cases hblack
  have htest := blackTest_eq H
  rw [removeColorLoop]
  split at htest <;> rename_i hroot
  · rw [if_pos hroot, htest]
    exact if_neg hstop
  · rw [if_neg hroot, htest]
    exact if_neg hstop

/-- A turn of the loop, on the side where the node is. -/
theorem removeColorLoop_turn (H : At w (f :: fs) t) (S : ShallowAt (f :: fs) t)
    (hc : t.color = .black) :
    removeColorLoop (fuel + 1) w (holder (f :: fs)) t.root =
      (w.removeColorTurn f.side f.label).bind fun r =>
        match r.1 with
        | some (next, parent) => removeColorLoop fuel r.2 parent (some next)
        | none => some (r.2.guard.root, r.2) := by
  have hne : f.sibling.root ≠ t.root := by
    cases hn : t.root with
    | none =>
        obtain ⟨y, m, z, hsib⟩ := S.exists_sibling f.side
        rw [hsib, root_join]
        exact Option.some_ne_none m
    | some n => exact H.sibling_ne hn
  obtain ⟨v, hf⟩ := H.above
  have hleft : w.childOf .left (some f.label) =
      some (KrbNode.sided f.side (holder fs) t.root f.sibling.root f.color v).left := by
    have hload : w.heap.load (some f.label) = some _ := hf
    rw [childOf, hload]
    rfl
  have hside := ite_left (s := f.side) (fun s => (w.removeColorTurn s f.label).bind fun r =>
      match r.1 with
      | some (next, parent) => removeColorLoop fuel r.2 parent (some next)
      | none => some (r.2.guard.root, r.2)) (KrbNode.child_sided _ _ _ _ _ _)
    (by rwa [KrbNode.child_other_sided] :
      (KrbNode.sided f.side (holder fs) t.root f.sibling.root f.color v).child f.side.other ≠ _)
  have hgo : (t.color == .black) = true ∧ t.root ≠ w.guard.root := ⟨by rw [hc]; rfl, H.root_ne⟩
  have htest := blackTest_eq H
  rw [← hside, removeColorLoop, holder]
  split at htest <;> rename_i hroot
  · rw [if_pos hroot, htest]
    dsimp only [Option.bind_eq_bind, Option.bind_some]
    rw [if_pos hgo, hleft]
    rfl
  · rw [if_neg hroot, htest]
    dsimp only [Option.bind_eq_bind, Option.bind_some]
    rw [if_pos hgo, hleft]
    rfl

/-- **The loop of `_remove_color`** ends at a place where a black root is all that is missing. -/
theorem removeColorLoop_spec (hfuel : path.length < fuel) (H : At w path t)
    (S : ShallowAt path t) :
    ∃ w' path' t', removeColorLoop fuel w (holder path) t.root = some (t'.root, w') ∧
      At w' path' t' ∧ RedBlack (plug path' (t'.paint .black)) ∧
      (plug path' t').toList = (plug path t).toList := by
  induction fuel generalizing w path t with
  | zero => cases hfuel
  | succ fuel ih =>
      by_cases hstop : path = [] ∨ t.color = .red
      · refine ⟨w, path, t, removeColorLoop_stop H hstop, H, ?_, rfl⟩
        obtain rfl | hred := hstop
        · exact S.redBlack_nil
        · exact S.redBlack hred
      · rw [not_or] at hstop
        have hc : t.color = .black := by
          cases hcol : t.color with
          | black => rfl
          | red => exact absurd hcol hstop.2
        obtain ⟨f, fs, rfl⟩ := List.exists_cons_of_ne_nil hstop.1
        rw [removeColorLoop_turn H S hc]
        obtain ⟨w₁, c, y, m, z, fs', hred, H₁, S₁, hlist, hfs⟩ := removeColorRed_spec H S
        by_cases hnephew : y.color = .black ∧ z.color = .black
        · obtain ⟨w₂, hturn, H₂⟩ := removeColorTurn_climb hred H₁ hnephew.1 hnephew.2
          have S₂ := S₁.climb hc hnephew.1 hnephew.2
          have hlist₂ : (plug fs' (join f.side t f.label c (join f.side y m .red z))).toList =
              (plug (f :: fs) t).toList := by
            rw [← hlist]
            exact toList_plug_congr (toList_join_congr rfl (toList_join_congr rfl rfl))
          rw [hturn, Option.bind_some]
          have hroot : some f.label = (join f.side t f.label c (join f.side y m .red z)).root :=
            root_join.symm
          dsimp only
          rw [hroot]
          -- either one level higher, or below a sibling that was red, with a red node
          obtain rfl | rfl := hfs
          · rw [List.length_cons, Nat.succ_lt_succ_iff] at hfuel
            obtain ⟨w', path', t', hloop, H', hrb, hlist'⟩ := ih hfuel H₂ S₂
            exact ⟨w', path', t', hloop, H', hrb, hlist'.trans hlist₂⟩
          · obtain ⟨fuel, rfl⟩ : ∃ k, fuel = k + 1 := ⟨fuel - 1, by
              rw [List.length_cons] at hfuel
              omega⟩
            refine ⟨w₂, fs', _, removeColorLoop_stop H₂ (.inr color_join), H₂,
              S₂.redBlack color_join, hlist₂⟩
        · obtain ⟨w₂, T, hturn, hT, hrb, hlist₂⟩ := removeColorTurn_outer hred H₁ S₁ hc hnephew
          refine ⟨w₂, [], T, ?_, holds_iff.mp hT, ?_, hlist₂.trans hlist⟩
          · rw [hturn, Option.bind_some, hT.root]
          · rwa [plug, ← hrb.1.color_eq, paint_color]

/-- `_remove_color` at a place that is too shallow by one. -/
theorem removeColor_of_shallowAt (hfuel : path.length < fuel) (H : At w path t)
    (S : ShallowAt path t) :
    ∃ w' T, w.removeColor fuel (holder path) t.root = some w' ∧ Holds w' T ∧ RedBlack T ∧
      T.toList = (plug path t).toList := by
  obtain ⟨w₁, path', t', hloop, H₁, hrb, hlist⟩ := removeColorLoop_spec hfuel H S
  have hfix : ∃ w', w₁.setIf t'.root (fun x => { x with color := .black }) = some w' ∧
      At w' path' (t'.paint .black) := by
    cases hn : t'.root with
    | none =>
        cases t' with
        | nil => exact ⟨w₁, rfl, H₁⟩
        | node l b c r => cases hn
    | some n =>
        rw [setIf, if_neg (Option.some_ne_none n)]
        exact paint_spec H₁ hn .black
  obtain ⟨w', hset, H'⟩ := hfix
  refine ⟨w', _, ?_, holds_plug.mpr H', hrb, (toList_plug_congr (toList_paint _)).trans hlist⟩
  rw [removeColor, hloop]
  exact hset

/-- **Removal fix-up.**  In a linked tree where the subtree at a place is too shallow by one
and, apart from that and from the colour of its root, nothing is wrong, `_remove_color`
returns, and the tree is a red-black tree with the same walk. -/
theorem removeColor_spec {k : ℕ} (H : Holds w (plug path t))
    (hcol : Colored t.root .red (plug path t)) (ht : Height t k) (hfits : Fits path (k + 1))
    (hfuel : (plug path t).toList.length < fuel) :
    ∃ w' T, w.removeColor fuel (holder path) t.root = some w' ∧ Holds w' T ∧ RedBlack T ∧
      T.toList = (plug path t).toList ∧ Relinked w w' := by
  have hat := holds_plug.mp H
  have hlen := length_le_length_toList_plug path t
  obtain ⟨hpath, hbelow⟩ := colored_plug.mp hcol
  have S : ShallowAt path t := by
    cases t with
    | nil => exact ⟨trivial, hpath, k, ht, hfits⟩
    | node l n c r =>
        have hnodup := List.nodup_append.mp hat.nodup
        have hnot : n ∉ before path ++ behind path :=
          fun h => hnodup.2.2 n (by simp [toList]) n h rfl
        have hcons := List.nodup_cons.mp (List.perm_middle.nodup_iff.mp hnodup.1)
        rw [List.mem_append, not_or] at hcons
        have hcolored : Colored none .black (node l n c r) :=
          ⟨fun _ => .inl rfl, hbelow.2.1.of_notMem hcons.1.1, hbelow.2.2.of_notMem hcons.1.2⟩
        exact ⟨hcolored.paint_black, hpath.of_notMem hnot, k, ht, hfits⟩
  obtain ⟨w', T, hrun, hT, hrb, hlist⟩ :=
    removeColor_of_shallowAt (by omega : path.length < fuel) hat S
  exact ⟨w', T, hrun, hT, hrb, hlist,
    keeps_removeColor (stable_relinked w) fuel (.refl w) (fun _ _ => trivial) _ w' hrun⟩

/-- Two black nodes, after the left child of the root has gone. -/
def shallowLeft : World ℕ :=
  worldOf 1 [(1, ⟨none, none, some 2, .black, .zero⟩), (2, ⟨some 1, none, none, .black, .zero⟩)]

theorem removeColor_shallowLeft :
    ∃ w' T, shallowLeft.removeColor 3 (some 1) none = some w' ∧ Holds w' T ∧ RedBlack T ∧
      T.toList = [1, 2] ∧ Relinked shallowLeft w' :=
  removeColor_spec (t := nil) (k := 0)
    (⟨rfl, ⟨⟨_, rfl⟩, trivial, ⟨_, rfl⟩, trivial, trivial⟩, by decide⟩ :
      Holds _ (plug [⟨.left, 1, .black, node nil 2 .black nil⟩] nil))
    ⟨nofun, trivial, nofun, trivial, trivial⟩ rfl ⟨⟨0, rfl, rfl, rfl⟩, trivial⟩ (by decide)

end Krb.World

end Kylin
