import Kylin.Math.RbColor

/-!
# Removing a node

`kylin_rb_unlink_raw` and `kylin_rb_remove_raw` (`lib/core/math/kylin_rb.c`) on well-formed
red-black trees.

A node with at most one child is taken out and the place repaired.  A node with two children is
to be replaced by its successor, but the source never copies its links and its colour into the
successor: whatever the repair does afterwards, no pointer from the rest of the tree leads to
the left subtree any more, so that subtree is lost.

## Main definitions

* `WellFormed` — linked red-black trees in search order.
* `UnlinksRight` — what the two functions should do.

## Main results

* `unlinksRight_iff` — they do it exactly when the node has at most one child.
-/

namespace Kylin

open Lib ColorTree

namespace Krb.World
variable {α : Type} {w w' : World α} {s : Side} {path : List (Frame ℕ)}
  {n m fuel : ℕ} {c d : Color} {t l r x : ColorTree ℕ} {P : ℕ → Prop}

/-- The value of a node is smaller than that of another one. -/
def Precedes (w : World α) (a b : ℕ) : Prop :=
  ∃ x y result, w.heap.get a = some x ∧ w.heap.get b = some y ∧
    kmathValCmp x.val y.val w.guard.opts.valType w.guard.opts.compare = some result ∧ result < 0

/-- **A well-formed red-black tree.** -/
structure WellFormed (w : World α) (t : ColorTree ℕ) : Prop where
  holds : Holds w t
  redBlack : RedBlack t
  sorted : t.toList.Pairwise w.Precedes

/-- **What the removal of a node should do**: both functions return, and leave a well-formed
tree with the same nodes in the same order, less that node. -/
def UnlinksRight (fuel : ℕ) (w : World α) (t : ColorTree ℕ) (old : ℕ) : Prop :=
  ∃ w' w'' t', w.unlinkRaw fuel old = some w' ∧ w.removeRaw fuel old = some w'' ∧
    t'.toList = t.toList.erase old ∧ WellFormed w' t' ∧ WellFormed w'' t'

/-! ## At most one child -/

/-- The nodes at a place with at most one child are apart. -/
theorem At.leaf_apart (H : At w path (join s x n c nil)) :
    n ∉ x.toList ∧ n ∉ before path ++ behind path ∧
      (x.toList ++ (before path ++ behind path)).Nodup := by
  have hperm : (join s x n c nil).toList.Perm (n :: x.toList) := by
    have h := perm_join (s := s) (x := x) (a := n) (c := c) (y := nil)
    rwa [toList, List.append_nil] at h
  have hnodup := (hperm.append_right _).nodup_iff.mp H.nodup
  rw [List.cons_append, List.nodup_cons, List.mem_append, not_or] at hnodup
  exact ⟨hnodup.1.1, hnodup.1.2, hnodup.2⟩

/-- The two stores that take such a node out. -/
theorem takeOut_spec (H : At w path (join s x n c nil)) :
    ∃ w₁ w', w.setIf x.root (fun y => { y with parent := holder path }) = some w₁ ∧
      w₁.replaceChild (holder path) n x.root = some w' ∧ At w' path x ∧
      w'.heap.get n = w.heap.get n := by
  obtain ⟨hnx, hnsides, hnodup⟩ := H.leaf_apart
  obtain ⟨hxnodup, hsides, hdisj⟩ := List.nodup_append.mp hnodup
  obtain ⟨⟨v, hn⟩, hx, -⟩ := linked_join.mp H.linked
  have hne : ∀ b ∈ before path ++ behind path, x.root ≠ some b := by
    intro b hb hroot
    exact hdisj b (mem_toList_of_root hroot) b hb rfl
  have hpath : PathLinked (w.put x.root fun y => { y with parent := holder path }).heap path
      (some n) := by
    have haround := H.around
    rw [root_join] at haround
    exact haround.congr fun b hb => get_put_of_ne (hne b hb)
  refine ⟨_, _, setIf_eq hx.isSome_root, replaceChild_eq hpath hnsides, ⟨?_, ?_, ?_, hnodup⟩, ?_⟩
  · have hroot := H.root
    rw [root_join] at hroot
    exact root_hang (w := w.put x.root _) hroot
  · exact hpath.refill hsides fun b hb => rfl
  · refine hx.adopt hxnodup fun b hb => ?_
    exact get_hang_of_ne (holder_ne fun h => hdisj b hb b h rfl)
  · rw [get_hang_of_ne (holder_ne hnsides), get_put_of_ne (root_ne_of_notMem hnx)]

/-- The node is found to have at most one child, and is taken out. -/
theorem unlinkRaw_leaf (fuel : ℕ) (H : At w path (join s x n c nil)) :
    ∃ w₁, w.unlinkRaw fuel n =
        (if c = .black then w₁.removeColor fuel (holder path) x.root else some w₁) ∧
      At w₁ path x := by
  obtain ⟨w₁, w₂, hset, hreplace, H₂, -⟩ := takeOut_spec H
  obtain ⟨v, hn⟩ := H.get
  have hleaf : w.unlinkLeaf n x.root = some (c, holder path, x.root, w₂) := by
    rw [unlinkLeaf, hn]
    simp only [Option.bind_eq_bind, Option.bind_some, KrbNode.parent_sided, KrbNode.color_sided,
      hset, hreplace]
  have hmatch : w.unlinkRaw fuel n = (w.unlinkLeaf n x.root).bind fun r =>
      if r.1 = .black then r.2.2.2.removeColor fuel r.2.1 r.2.2.1 else some r.2.2.2 := by
    rw [unlinkRaw, hn]
    cases s with
    | left => cases x <;> rfl
    | right => rfl
  refine ⟨w₂, ?_, H₂⟩
  rw [hmatch, hleaf, Option.bind_some]

/-- **A node with at most one child**: the place is repaired. -/
theorem unlinkRaw_spec (H : At w path (join s x n c nil))
    (R : RedBlack (plug path (join s x n c nil))) (hfuel : path.length < fuel) :
    ∃ w' T, w.unlinkRaw fuel n = some w' ∧ Holds w' T ∧ RedBlack T ∧
      T.toList = (plug path x).toList := by
  obtain ⟨w₁, hleaf, H₁⟩ := unlinkRaw_leaf fuel H
  obtain ⟨hpath, hcol⟩ := colored_plug.mp R.1
  obtain ⟨-, hx, -⟩ := colored_join.mp hcol
  obtain ⟨k, hk, hfits⟩ := height_plug.mp R.2
  obtain ⟨j, hxj, rfl, rfl⟩ := height_join.mp hk
  rw [hleaf]
  cases c with
  | red =>
      -- there is no child, as it would have to be black
      obtain rfl := height_zero_of_color hxj hx.color_eq
      refine ⟨w₁, plug path nil, if_neg (by simp), holds_plug.mpr H₁, ⟨?_, ?_⟩, rfl⟩
      · exact colored_plug.mpr ⟨hpath, trivial⟩
      · exact height_plug.mpr ⟨0, rfl, hfits⟩
  | black =>
      have S : ShallowAt path x := ⟨hx.paint_black, hpath, 0, hxj, hfits⟩
      obtain ⟨w', T, hrun, hT, hrb, hlist⟩ := removeColor_of_shallowAt hfuel H₁ S
      exact ⟨w', T, (if_pos rfl).trans hrun, hT, hrb, hlist⟩

/-- The walk without the node. -/
theorem At.toList_erase (H : At w path (join s x n c nil)) :
    (plug path x).toList = (plug path (join s x n c nil)).toList.erase n := by
  obtain ⟨hnx, hnsides, -⟩ := H.leaf_apart
  rw [List.mem_append, not_or] at hnsides
  have hjoin : (join s x n c nil).toList.erase n = x.toList := by
    cases s with
    | left => simp [join, toList, List.erase_append_right _ hnx]
    | right => simp [join, toList]
  rw [toList_plug, toList_plug, List.erase_append_right _ hnsides.1, List.erase_append_left, hjoin]
  exact mem_toList_of_root root_join

/-! ## Two children -/

/-- Pointers to nodes of the kind `P` are all that the root and the nodes of the kind hold. -/
structure Sealed (P : ℕ → Prop) (w : World α) : Prop where
  root : Within P w.guard.root
  links : ∀ a, P a → ∀ x, w.heap.get a = some x → LinksWithin P x

/-- Stores of such pointers keep it so. -/
theorem stable_sealed (P : ℕ → Prop) : Stable P (Sealed (α := α) P) where
  load := by
    intro w hw p hp x hx
    obtain ⟨a, rfl, ha⟩ := Option.bind_eq_some_iff.mp hx
    exact hw.links a (hp a rfl) x ha
  set := by
    intro w hw p f _ hf
    apply Ensures.map
    intro h hh
    refine ⟨hw.root, fun a ha x hx => ?_⟩
    obtain ⟨b, rfl, hb⟩ := Option.bind_eq_some_iff.mp hh
    obtain rfl := Option.some.inj (Option.ite_none_right_eq_some.mp hb).2
    rw [Heap.get_map] at hx
    split at hx
    · obtain ⟨y, hy, rfl⟩ := Option.map_eq_some_iff.mp hx
      exact hf y (hw.links a ha y hy)
    · exact hw.links a ha x hx
  root hw _ hp := ⟨hp, hw.links⟩

/-- The links inside a tree. -/
theorem Linked.within {h : Heap (KrbNode α)} {p : Option ℕ} (hl : Linked h p t) (hp : Within P p)
    (ht : ∀ b ∈ t.toList, P b) : ∀ a ∈ t.toList, ∀ x, h.get a = some x → LinksWithin P x := by
  induction t generalizing p with
  | nil => simp [toList]
  | node l b c r ihl ihr =>
      obtain ⟨⟨v, hb⟩, hl, hr⟩ := hl
      simp only [toList, List.forall_mem_append, List.forall_mem_cons] at ht ⊢
      have hroot : ∀ t : ColorTree ℕ, (∀ b ∈ t.toList, P b) → Within P t.root :=
        fun t ht a ha => ht a (mem_toList_of_root ha)
      refine ⟨ihl hl (within_some ht.2.1) ht.1, fun x hx => ?_, ihr hr (within_some ht.2.1) ht.2.2⟩
      obtain rfl := Option.some.inj (hb.symm.trans hx)
      refine ⟨hp, fun side => ?_⟩
      cases side with
      | left => exact hroot l ht.1
      | right => exact hroot r ht.2.2

/-- The links on and beside a path. -/
theorem PathLinked.within {h : Heap (KrbNode α)} {p : Option ℕ} (hl : PathLinked h path p)
    (hp : Within P p) (ht : ∀ b ∈ before path ++ behind path, P b) :
    ∀ a ∈ before path ++ behind path, ∀ x, h.get a = some x → LinksWithin P x := by
  induction path generalizing p with
  | nil => simp [before, behind]
  | cons f fs ih =>
      obtain ⟨⟨v, hf⟩, hsib, hfs⟩ := hl
      simp only [mem_sides_cons, or_imp, forall_and, forall_eq] at ht ⊢
      obtain ⟨hPf, hPsib, hPfs⟩ := ht
      refine ⟨fun x hx => ?_, hsib.within (within_some hPf) hPsib, ih hfs (within_some hPf) hPfs⟩
      obtain rfl := Option.some.inj (hf.symm.trans hx)
      refine ⟨fun a ha => ?_, fun side => ?_⟩
      · rw [KrbNode.parent_sided] at ha
        exact hPfs a (Classical.not_not.mp fun h => holder_ne h ha)
      · obtain rfl | rfl := Side.eq_or_eq_other f.side side
        · rwa [KrbNode.child_sided]
        · rw [KrbNode.child_other_sided]
          exact fun a ha => hPsib a (mem_toList_of_root ha)

/-- The pointers that a walk from the root follows are to nodes of the kind `P`. -/
structure Closed (P : ℕ → Prop) (w : World α) : Prop where
  root : Within P w.guard.root
  child : ∀ a, P a → ∀ x, w.heap.get a = some x → ∀ side, Within P (x.child side)

theorem Sealed.closed (h : Sealed P w) : Closed P w :=
  ⟨h.root, fun a ha x hx => (h.links a ha x hx).2⟩

/-- The nodes of a tree are what such a walk meets. -/
theorem Closed.forall_mem (h : Closed P w) (H : Holds w t) : ∀ a ∈ t.toList, P a := by
  have hlinks := h.child
  have hroot := h.root
  have hl := H.linked
  rw [H.root] at hroot
  generalize w.heap = h, (none : Option ℕ) = p at hl hlinks
  clear H
  induction t generalizing p with
  | nil => simp [toList]
  | node l b c r ihl ihr =>
      obtain ⟨⟨v, hb⟩, hl, hr⟩ := hl
      have hP : P b := hroot b rfl
      have hchild := hlinks b hP _ hb
      simp only [toList, List.forall_mem_append, List.forall_mem_cons]
      exact ⟨ihl (hchild .left) _ hl, hP, ihr (hchild .right) _ hr⟩

theorem Closed.setIf_color (h : Closed P w) (p : Option ℕ) (d : Color) :
    Ensures (w.setIf p fun x => { x with color := d }) (Closed P) := by
  refine keeps_setIf h (.map fun heap hheap => ⟨h.root, fun a ha x hx side => ?_⟩)
  obtain ⟨b, rfl, hb⟩ := Option.bind_eq_some_iff.mp hheap
  obtain rfl := Option.some.inj (Option.ite_none_right_eq_some.mp hb).2
  rw [Heap.get_map] at hx
  split at hx
  · obtain ⟨y, hy, rfl⟩ := Option.map_eq_some_iff.mp hx
    have hchild := h.child a ha y hy side
    cases side <;> exact hchild
  · exact h.child a ha x hx side

/-- The left-most node of a tree. -/
theorem leftmost_spec (H : At w path t) (hn : t.root = some n) :
    Ensures (w.leftmost fuel n) fun m => ∃ up c x, t = plug up (node nil m c x) := by
  induction fuel generalizing path t n with
  | zero => exact .none
  | succ fuel ih =>
      obtain ⟨l, r, hjoin⟩ := exists_join_of_root .left hn
      rw [hjoin] at H
      rw [leftmost, childOf_eq H, Option.bind_eq_bind, Option.bind_some]
      cases hl : l.root with
      | none =>
          cases l with
          | nil => exact .some ⟨[], t.color, r, hjoin⟩
          | node => cases hl
      | some left =>
          refine (ih (at_join.mp H) hl).mono ?_
          rintro m ⟨up, c, x, rfl⟩
          refine ⟨up ++ [⟨.left, n, t.color, r⟩], c, x, ?_⟩
          rw [plug_append]
          exact hjoin

/-- The nodes around the successor of a node with two children are apart. -/
structure Parted (l q : ColorTree ℕ) (n m : ℕ) (sides : List ℕ) : Prop where
  n_l : n ∉ l.toList
  n_q : n ∉ q.toList
  n_sides : n ∉ sides
  m_ne : m ≠ n
  m_l : m ∉ l.toList
  m_q : m ∉ q.toList
  m_sides : m ∉ sides
  q_l : ∀ b ∈ q.toList, b ∉ l.toList
  q_sides : ∀ b ∈ q.toList, b ∉ sides
  l_sides : ∀ b ∈ l.toList, b ∉ sides
  q : q.toList.Nodup
  sides : sides.Nodup

theorem At.parted {up : List (Frame ℕ)} (H : At w path (node l n c (plug up (node nil m d x)))) :
    Parted l (plug up x) n m (before path ++ behind path) := by
  have hperm : (plug up (node nil m d x)).toList.Perm (m :: (plug up x).toList) := by
    rw [toList_plug, toList_plug]
    exact List.perm_middle
  have hnodup := (((hperm.cons n).append_left l.toList).append_right _).nodup_iff.mp H.nodup
  generalize before path ++ behind path = sides at hnodup ⊢
  simp only [List.cons_append, List.append_assoc, List.nodup_cons, List.nodup_append,
    List.mem_append, List.mem_cons, not_or] at hnodup
  constructor <;> grind

/-- The stores that put another node in the place of a node with a left child. -/
theorem succeed_spec {q : ColorTree ℕ} (H : At w path (join .left l n c q)) (hl : l ≠ nil)
    (A : Parted l q n m (before path ++ behind path)) :
    ∃ w₁ w₂ w', w.parentOf (some n) = some (holder path) ∧
      w.replaceChild (holder path) n (some m) = some w₁ ∧ w₁.childOf .left (some n) = some l.root ∧
      w₁.set l.root (fun y => { y with parent := some m }) = some w₂ ∧
      w₂.childOf .right (some n) = some q.root ∧
      w₂.setIf q.root (fun y => { y with parent := some m }) = some w' ∧
      w'.guard.root = rootOf path (some m) ∧ PathLinked w'.heap path (some m) ∧
      Linked w'.heap (some m) q ∧ w'.heap.get m = w.heap.get m := by
  obtain ⟨⟨v, hn⟩, hlinked, hq⟩ := linked_join.mp H.linked
  have hload : ∀ (w : World α) a, w.heap.load (some a) = w.heap.get a := fun _ _ => rfl
  have hpath : PathLinked w.heap path (some n) := by
    have haround := H.around
    rwa [root_join] at haround
  have hroot : w.guard.root = rootOf path (some n) := by
    have hroot := H.root
    rwa [root_join] at hroot
  have hlroot : l.root ≠ none := Option.ne_none_iff_exists'.mpr (exists_root hl)
  -- the node itself is not written
  have hn₁ : (w.hang path (some m)).heap.get n = w.heap.get n :=
    get_hang_of_ne (holder_ne A.n_sides)
  have hkeep : ∀ b, l.root ≠ some b → q.root ≠ some b →
      (((w.hang path (some m)).put l.root fun y => { y with parent := some m }).put q.root
        fun y => { y with parent := some m }).heap.get b = (w.hang path (some m)).heap.get b := by
    intro b hlb hqb
    rw [get_put_of_ne hqb, get_put_of_ne hlb]
  refine ⟨_, _, _, ?_, replaceChild_eq hpath A.n_sides, ?_, set_eq ?_, ?_, setIf_eq fun hne => ?_,
    root_hang hroot, ?_, ?_, ?_⟩
  · rw [parentOf, hload, hn]
    rfl
  · rw [childOf, hload, hn₁, hn]
    rfl
  · rw [isSome_load_hang]
    exact hlinked.isSome_root hlroot
  · rw [childOf, hload, get_put_of_ne (root_ne_of_notMem A.n_l), hn₁, hn]
    rfl
  · rw [isSome_load_put, isSome_load_hang]
    exact hq.isSome_root hne
  · refine hpath.refill A.sides fun b hb => hkeep b ?_ ?_
    · exact root_ne_of_notMem fun h => A.l_sides b h hb
    · exact root_ne_of_notMem fun h => A.q_sides b h hb
  · refine hq.adopt A.q fun b hb => ?_
    rw [put, Heap.get_mapAt, Heap.get_mapAt, get_put_of_ne (root_ne_of_notMem (A.q_l b hb)),
      get_hang_of_ne (holder_ne (A.q_sides b hb))]
  · rw [hkeep m (root_ne_of_notMem A.m_l) (root_ne_of_notMem A.m_q),
      get_hang_of_ne (holder_ne A.m_sides)]

/-- **The successor takes the place of a node with two children**, but keeps its own links:
the tree it should hold is linked below it, and the rest above it, on their own. -/
theorem unlinkInner_spec {up : List (Frame ℕ)} {k : ℕ}
    (H : At w path (node l n c (plug up (node nil m d x)))) (hl : l ≠ nil)
    (hleft : w.leftmost fuel k = some m) :
    ∃ w', w.unlinkInner fuel n k = some (d, (if up = [] then some m else holder up), x.root, w') ∧
      w'.guard.root = rootOf path (some m) ∧ PathLinked w'.heap path (some m) ∧
      Linked w'.heap (some m) (plug up x) ∧
      ∃ v, w'.heap.get m = some ⟨holder (up ++ ⟨.right, n, c, l⟩ :: path), none, x.root, d, v⟩ := by
  have A := H.parted
  have H₀ : At w (up ++ ⟨.right, n, c, l⟩ :: path) (join .right x m d nil) := by
    rw [← holds_plug, plug_append]
    exact holds_plug.mpr (at_join (s := .right).mp H)
  obtain ⟨v, hm⟩ := H₀.get
  obtain ⟨w₁, w₂, hset, hreplace, H₂, hm₂⟩ := takeOut_spec H₀
  rw [hm] at hm₂
  have hup : w₂.parentOf (some m) = some (holder (up ++ ⟨.right, n, c, l⟩ :: path)) := by
    have hload : w₂.heap.load (some m) = some _ := hm₂
    rw [parentOf, hload, Option.map_some, KrbNode.parent_sided]
  have H₂' : At w₂ path (join .left l n c (plug up x)) := by
    rw [← holds_plug, plug_append] at H₂
    exact at_join (s := .right).mpr (holds_plug.mp H₂)
  obtain ⟨w₃, w₄, w', habove, hreplace₃, hleft₃, hset₄, hright₄, hset₅, hroot, hpath, hlinked,
    hm'⟩ := succeed_spec H₂' hl A
  -- the parent to repair from is the successor itself when that was the right child
  have hparent : (if holder (up ++ ⟨.right, n, c, l⟩ :: path) = some n then some m
      else holder (up ++ ⟨.right, n, c, l⟩ :: path)) = if up = [] then some m else holder up := by
    cases up with
    | nil => exact (if_pos rfl).trans (if_pos rfl).symm
    | cons g gs =>
        have hne : holder (g :: gs) ≠ some n := fun h => A.n_q (mem_toList_plug_of_holder h)
        rw [if_neg (List.cons_ne_nil g gs)]
        exact if_neg hne
  refine ⟨w', ?_, hroot, hpath, hlinked, v, hm'.trans hm₂⟩
  rw [unlinkInner, hleft, Option.bind_eq_bind, Option.bind_some, hm]
  simp only [Option.bind_eq_bind, Option.bind_some, KrbNode.sided, hset, hreplace, hup, habove,
    hreplace₃, hleft₃, hset₄, hright₄, hset₅, hparent]

/-- The repair below a successor that was the right child: there is no sibling to look at, or
nothing to do but to paint a red node. -/
theorem removeColorLoop_direct {p : Option ℕ} {v : KmathVal α} (hroot : w.guard.root ≠ none)
    (hm : w.heap.get m = some ⟨p, none, x.root, d, v⟩) (hx : Linked w.heap (some m) x)
    (hheight : Height x 0) :
    Ensures (removeColorLoop fuel w (some m) x.root) fun r => r.2 = w := by
  cases fuel with
  | zero => exact .none
  | succ fuel =>
      have hload : ∀ a, w.heap.load (some a) = w.heap.get a := fun _ => rfl
      cases x with
      | nil =>
          have hturn : w.removeColorTurn .left m = none := by
            rw [removeColorTurn, removeColorRed, childOf, hload, hm]
            rfl
          have hloop : removeColorLoop (fuel + 1) w (some m) nil.root = none := by
            simp [removeColorLoop, Ne.symm hroot, childOf, hload, hm, KrbNode.child, hturn]
          rw [hloop]
          exact .none
      | node l b c r =>
          obtain ⟨⟨v', hb⟩, -⟩ := hx
          obtain rfl : c = .red := by
            cases c with
            | red => rfl
            | black =>
                obtain ⟨j, -, -, hj⟩ := hheight
                cases hj
          have hloop : removeColorLoop (fuel + 1) w (some m) (node l b .red r).root =
              some (some b, w) := by
            simp [removeColorLoop, colorOf, hload, hb]
          rw [hloop]
          exact .some rfl

/-- The nodes that are still linked to one another when a node with two children has gone. -/
def Rest (path : List (Frame ℕ)) (m : ℕ) (q : ColorTree ℕ) (b : ℕ) : Prop :=
  b = m ∨ b ∈ q.toList ∨ b ∈ before path ++ behind path

section Rest
variable {up : List (Frame ℕ)}

theorem Parted.notMem {q : ColorTree ℕ} (A : Parted l q n m (before path ++ behind path)) {b : ℕ}
    (hb : Rest path m q b) : b ∉ l.toList := by
  obtain rfl | hb | hb := hb
  · exact A.m_l
  · exact A.q_l b hb
  · exact fun h => A.l_sides b h hb

/-- Their links, those of the successor apart. -/
theorem linksWithin_rest {q : ColorTree ℕ} (hpath : PathLinked w.heap path (some m))
    (hlinked : Linked w.heap (some m) q) {b : ℕ} (hb : Rest path m q b) (hbm : b ≠ m)
    {y : KrbNode α} (hy : w.heap.get b = some y) : LinksWithin (Rest path m q) y := by
  have hm : Within (Rest path m q) (some m) := within_some (.inl rfl)
  obtain rfl | hb | hb := hb
  · exact absurd rfl hbm
  · exact hlinked.within hm (fun b hb => .inr (.inl hb)) b hb y hy
  · exact hpath.within hm (fun b hb => .inr (.inr hb)) b hb y hy

/-- With the children of the successor, a walk does not leave them, -/
theorem closed_rest (hroot : w.guard.root = rootOf path (some m))
    (hpath : PathLinked w.heap path (some m)) (hlinked : Linked w.heap (some m) (plug up x))
    {p : Option ℕ} {v : KmathVal α} (hm : w.heap.get m = some ⟨p, none, x.root, d, v⟩) :
    Closed (Rest path m (plug up x)) w := by
  constructor
  · rw [hroot]
    cases path with
    | nil => exact within_some (.inl rfl)
    | cons f fs =>
        obtain ⟨b, hb, hmem⟩ := exists_rootOf f fs (some m)
        rw [hb]
        exact within_some (.inr (.inr hmem))
  · intro b hb y hy side
    by_cases hbm : b = m
    · subst hbm
      obtain rfl := Option.some.inj (hm.symm.trans hy)
      cases side with
      | left => exact within_none
      | right =>
          intro e he
          have hmem := List.mem_append_left (before up ++ behind up) (mem_toList_of_root he)
          exact .inr (.inl ((perm_plug up x).mem_iff.mpr hmem))
    · exact (linksWithin_rest hpath hlinked hb hbm hy).2 side

/-- and with its parent among them, no pointer does. -/
theorem sealed_rest (hclosed : Closed (Rest path m (plug up x)) w)
    (hpath : PathLinked w.heap path (some m)) (hlinked : Linked w.heap (some m) (plug up x))
    {p : Option ℕ} {v : KmathVal α} (hm : w.heap.get m = some ⟨p, none, x.root, d, v⟩)
    (hp : Within (Rest path m (plug up x)) p) : Sealed (Rest path m (plug up x)) w := by
  refine ⟨hclosed.root, fun b hb y hy => ?_⟩
  by_cases hbm : b = m
  · subst hbm
    refine ⟨?_, hclosed.child b hb y hy⟩
    rwa [← Option.some.inj (hm.symm.trans hy)]
  · exact linksWithin_rest hpath hlinked hb hbm hy

end Rest

/-- **A node with two children**: whatever the repair does, its left subtree is lost. -/
theorem unlinkRaw_inner (H : At w path (node l n c r)) (R : RedBlack (plug path (node l n c r)))
    (hl : l ≠ nil) (hr : r ≠ nil) :
    Ensures (w.unlinkRaw fuel n) fun w' => ∀ T, Holds w' T → ∀ a ∈ T.toList, a ∉ l.toList := by
  obtain ⟨a, ha⟩ := exists_root hl
  obtain ⟨k, hk⟩ := exists_root hr
  obtain ⟨⟨v, hn⟩, -⟩ := H.linked
  rw [ha, hk] at hn
  intro w' hw'
  rw [unlinkRaw, hn] at hw'
  cases hleft : w.leftmost fuel k with
  | none => simp [unlinkInner, hleft] at hw'
  | some m =>
      obtain ⟨up, d, x, rfl⟩ := leftmost_spec (at_join (s := .right).mp H) hk m hleft
      obtain ⟨w₁, hinner, hroot, hpath, hlinked, v', hm⟩ := unlinkInner_spec H hl hleft
      simp only [Option.bind_eq_bind, Option.bind_some, hinner] at hw'
      have hclosed := closed_rest hroot hpath hlinked hm
      suffices hclosed' : Closed (Rest path m (plug up x)) w' from
        fun T hT b hb => H.parted.notMem (hclosed'.forall_mem hT b hb)
      split at hw'
      · next hblack =>
          subst hblack
          cases up with
          | nil =>
              -- the successor was the right child, and is black
              obtain ⟨_, hheight, -⟩ := height_plug.mp R.2
              obtain ⟨_, -, ⟨_, rfl, hx, -⟩, -⟩ := hheight
              have hne : w₁.guard.root ≠ none := by
                rw [hroot]
                cases path with
                | nil => exact Option.some_ne_none m
                | cons f fs =>
                    obtain ⟨b, hb, -⟩ := exists_rootOf f fs (some m)
                    rw [hb]
                    exact Option.some_ne_none b
              refine Ensures.bind (removeColorLoop_direct hne hm hlinked hx) ?_ w' hw'
              rintro ⟨node, _⟩ rfl
              exact hclosed.setIf_color node .black
          | cons g gs =>
              have hholder : Within (Rest path m (plug (g :: gs) x)) (holder (g :: gs)) :=
                fun b hb => .inr (.inl (mem_toList_plug_of_holder hb))
              have hsealed := sealed_rest hclosed hpath hlinked hm hholder
              exact (keeps_removeColor (stable_sealed _) fuel hsealed hholder _ w' hw').closed
      · rwa [← Option.some.inj hw']

/-! ## Both functions -/

section Removal
variable {old : ℕ}

/-- The order of the nodes depends on their values alone. -/
theorem Relinked.precedes {a b : ℕ} (h : Relinked w w') (hab : w.Precedes a b) :
    w'.Precedes a b := by
  obtain ⟨x, y, result, hx, hy, hcmp, hlt⟩ := hab
  have hopts : w'.guard.opts = w.guard.opts := by
    have hguard := congrArg Krb.opts h.guard
    exact hguard
  have hvals : ∀ {a x}, w.heap.get a = some x → ∃ x', w'.heap.get a = some x' ∧ x'.val = x.val := by
    intro a x hx
    have hmap := h.vals a
    rw [hx] at hmap
    exact Option.map_eq_some_iff.mp hmap
  obtain ⟨x', hx', hxval⟩ := hvals hx
  obtain ⟨y', hy', hyval⟩ := hvals hy
  exact ⟨x', y', result, hx', hy', by rwa [hxval, hyval, hopts], hlt⟩

/-- `kylin_rb_remove_raw` leaves the tree of `kylin_rb_unlink_raw`. -/
theorem removeRaw_spec (hrun : w.unlinkRaw fuel old = some w') (H : WellFormed w' t)
    (hold : old ∉ t.toList) (hget : (w'.heap.get old).isSome) :
    ∃ w'', w.removeRaw fuel old = some w'' ∧ WellFormed w'' t := by
  obtain ⟨o, ho⟩ := Option.isSome_iff_exists.mp hget
  have hkeep : ∀ b ∈ t.toList, Function.update w'.heap.get old none b = w'.heap.get b :=
    fun b hb => Function.update_of_ne (ne_of_mem_of_not_mem hb hold) _ _
  refine ⟨{ w' with
    destroyed := w'.destroyed ++ kmathValDtor o.val w'.guard.opts.valType
    heap := ⟨Function.update w'.heap.get old none⟩ }, ?_, ⟨?_, ?_, ?_⟩, H.redBlack, ?_⟩
  · rw [removeRaw, hrun]
    simp [ho, nodeFree, Heap.free_of_isSome _ hget]
  · exact H.holds.root
  · exact H.holds.linked.congr hkeep
  · exact H.holds.nodup
  · refine H.sorted.imp_of_mem fun {a b} ha hb hab => ?_
    obtain ⟨x, y, result, hx, hy, hcmp⟩ := hab
    exact ⟨x, y, result, (hkeep a ha).trans hx, (hkeep b hb).trans hy, hcmp⟩

/-- With two children the left one is missing afterwards. -/
theorem not_unlinksRight (H : WellFormed w (plug path (node l old c r))) (hl : l ≠ nil)
    (hr : r ≠ nil) : ¬ UnlinksRight fuel w (plug path (node l old c r)) old := by
  rintro ⟨w', -, T, hrun, -, hlist, HT, -⟩
  have hat := holds_plug.mp H.holds
  have hlost := unlinkRaw_inner hat H.redBlack hl hr w' hrun T HT.holds
  obtain ⟨a, ha⟩ := exists_root hl
  have hmem := mem_toList_of_root ha
  refine hlost a ?_ hmem
  have hnodup := (List.nodup_append.mp hat.nodup).1
  rw [hlist, List.mem_erase_of_ne]
  · exact (perm_plug _ _).mem_iff.mpr (List.mem_append_left _ (List.mem_append_left _ hmem))
  · rintro rfl
    exact (List.nodup_append.mp hnodup).2.2 a hmem a (List.mem_cons_self ..) rfl

/-- With at most one child all is well. -/
theorem unlinksRight (H : WellFormed w (plug path (join s x old c nil)))
    (hfuel : (plug path (join s x old c nil)).toList.length < fuel) :
    UnlinksRight fuel w (plug path (join s x old c nil)) old := by
  have hat := holds_plug.mp H.holds
  have hlen := length_le_length_toList_plug path (join s x old c nil)
  obtain ⟨w', T, hrun, hT, hrb, hlist⟩ :=
    unlinkRaw_spec hat H.redBlack (by omega : path.length < fuel)
  have hrel := keeps_unlinkRaw (stable_relinked w) fuel (.refl w) trivial w' hrun
  rw [hat.toList_erase] at hlist
  have HT : WellFormed w' T := by
    refine ⟨hT, hrb, ?_⟩
    rw [hlist]
    exact (H.sorted.sublist List.erase_sublist).imp fun hab => hrel.precedes hab
  have hget : (w'.heap.get old).isSome := by
    obtain ⟨v, hold⟩ := hat.get
    have hmap := hrel.vals old
    rw [hold] at hmap
    obtain ⟨o, ho, -⟩ := Option.map_eq_some_iff.mp hmap
    simp [ho]
  have hnot : old ∉ T.toList := by
    rw [hlist]
    exact H.holds.nodup.not_mem_erase
  obtain ⟨w'', hremove, H''⟩ := removeRaw_spec hrun HT hnot hget
  exact ⟨w', w'', T, hrun, hremove, hlist, HT, H''⟩

/-- **When a removal is right**: exactly when the node has at most one child. -/
theorem unlinksRight_iff (H : WellFormed w t) (hold : old ∈ t.toList)
    (hfuel : t.toList.length < fuel) :
    UnlinksRight fuel w t old ↔
      ∀ o, w.heap.get old = some o → o.left = none ∨ o.right = none := by
  obtain ⟨path, l, c, r, rfl⟩ := exists_plug hold
  obtain ⟨⟨v, hget⟩, -⟩ := (holds_plug.mp H.holds).linked
  have hnil : ∀ {t : ColorTree ℕ}, t.root = none ↔ t = nil := by
    intro t
    cases t <;> simp
  simp only [hget, Option.some.injEq, forall_eq', hnil]
  constructor
  · intro hright
    by_contra hchild
    rw [not_or] at hchild
    exact not_unlinksRight H hchild.1 hchild.2 hright
  · intro hchild
    -- seen from the side of the child, if there is one
    obtain ⟨s, x, hjoin⟩ : ∃ s x, node l old c r = join s x old c nil := by
      obtain rfl | rfl := hchild
      · exact ⟨.right, r, rfl⟩
      · exact ⟨.left, l, rfl⟩
    rw [hjoin] at H hfuel ⊢
    exact unlinksRight H hfuel

end Removal

/-- A node of a tree of objects. -/
def nodeOf (parent left right : Option ℕ) (color : Color) (key : ℕ) : KrbNode ℕ :=
  ⟨parent, left, right, color, .v (.user (.obj key))⟩

/-- A root with a left child. -/
def oneChild : World ℕ :=
  worldOf 1 [(1, nodeOf none (some 2) none .black 5), (2, nodeOf (some 1) none none .red 3)]

theorem wellFormed_oneChild :
    WellFormed oneChild (node (node nil 2 .red nil) 1 .black nil) := by
  refine ⟨⟨rfl, ⟨⟨_, rfl⟩, ⟨⟨_, rfl⟩, trivial, trivial⟩, trivial⟩, by decide⟩,
    ⟨⟨nofun, ⟨fun _ => .inl rfl, trivial, trivial⟩, trivial⟩,
      1, 0, ⟨0, rfl, rfl, rfl⟩, rfl, rfl⟩, ?_⟩
  simp only [toList, List.nil_append, List.cons_append, List.pairwise_cons, List.forall_mem_cons]
  exact ⟨⟨⟨_, _, -2, rfl, rfl, rfl, by decide⟩, by simp⟩, by simp⟩

theorem unlinksRight_oneChild :
    UnlinksRight 3 oneChild (node (node nil 2 .red nil) 1 .black nil) 1 := by
  refine (unlinksRight_iff wellFormed_oneChild (by decide) (by decide)).mpr ?_
  rintro o ⟨⟩
  exact .inr rfl

/-- A root with two children: without the root, the tree has lost the left one. -/
theorem not_unlinksRight_twoChildren :
    ∃ (w : World ℕ) (t : ColorTree ℕ) (old : ℕ), WellFormed w t ∧ old ∈ t.toList ∧
      ∀ fuel, ¬ UnlinksRight fuel w t old := by
  have H : WellFormed (worldOf 1 [(1, nodeOf none (some 2) (some 3) .black 5),
      (2, nodeOf (some 1) none none .red 3), (3, nodeOf (some 1) none none .red 7)])
      (plug [] (node (node nil 2 .red nil) 1 .black (node nil 3 .red nil))) := by
    refine ⟨⟨rfl, ⟨⟨_, rfl⟩, ⟨⟨_, rfl⟩, trivial, trivial⟩, ⟨_, rfl⟩, trivial, trivial⟩, by decide⟩,
      ⟨⟨by simp, ⟨fun _ => .inl rfl, trivial, trivial⟩, fun _ => .inl rfl, trivial, trivial⟩,
        1, 0, ⟨0, rfl, rfl, rfl⟩, ⟨0, rfl, rfl, rfl⟩, rfl⟩, ?_⟩
    simp only [plug, toList, List.nil_append, List.cons_append, List.pairwise_cons,
      List.forall_mem_cons]
    exact ⟨⟨⟨_, _, -2, rfl, rfl, rfl, by decide⟩, ⟨_, _, -4, rfl, rfl, rfl, by decide⟩, by simp⟩,
      ⟨⟨_, _, -2, rfl, rfl, rfl, by decide⟩, by simp⟩, by simp⟩
  exact ⟨_, _, 1, H, by decide, fun fuel => not_unlinksRight H (by simp) (by simp)⟩

end Krb.World

end Kylin
