import Kylin.Math.RbRemove

/-!
# Linked trees

What the pointers of a `krb_t` (`lib/core/math/kylin_rb.c`) stand for.  `Holds w t` says that
the nodes below the root are linked as the tree `t` of their addresses, in both directions,
with its colours.

A place of the tree is a path and the subtree below it, `At`; it is the place of a pointer
and of its parent pointer.  A store to a node changes the tree at its place alone, and
`rotate_spec` says that a rotation of the code is one of the tree.

## Main definitions

* `Linked`, `PathLinked` — nodes linked as a tree, and as a path.
* `Holds`, `At` — the tree of a world, and a place of it.
* `Relinked` — worlds that differ in links and colours.

## Main results

* `holds_plug` — a place of a tree is a place of its world.
* `paint_spec`, `replaceChild_eq`, `rotate_spec` — the stores.
-/

namespace Kylin

open Lib ColorTree

/-- A node by its children on a side and on the other. -/
def KrbNode.sided {α : Type} (s : Side) (parent x y : Option ℕ) (c : Color) (v : KmathVal α) :
    KrbNode α :=
  match s with
  | .left => ⟨parent, x, y, c, v⟩
  | .right => ⟨parent, y, x, c, v⟩

namespace KrbNode
variable {α : Type} (s : Side) (p x y q : Option ℕ) (c : Color) (v : KmathVal α)

@[simp] theorem child_sided : (sided s p x y c v).child s = x := by cases s <;> rfl

@[simp] theorem child_other_sided : (sided s p x y c v).child s.other = y := by cases s <;> rfl

@[simp] theorem parent_sided : (sided s p x y c v).parent = p := by cases s <;> rfl

@[simp] theorem color_sided : (sided s p x y c v).color = c := by cases s <;> rfl

@[simp] theorem setChild_sided : (sided s p x y c v).setChild q s = sided s p q y c v := by
  cases s <;> rfl

end KrbNode

namespace Krb.World
variable {α : Type}

/-! ## Trees in memory -/

/-- The nodes of a tree are linked, and `p` is the parent pointer of its root. -/
def Linked (h : Heap (KrbNode α)) : Option ℕ → ColorTree ℕ → Prop
  | _, .nil => True
  | p, .node l a c r => (∃ v, h.get a = some ⟨p, l.root, r.root, c, v⟩) ∧
      Linked h (some a) l ∧ Linked h (some a) r

/-- The nodes on and beside a path are linked, with `p` in the hole. -/
def PathLinked (h : Heap (KrbNode α)) : List (Frame ℕ) → Option ℕ → Prop
  | [], _ => True
  | f :: fs, p =>
      (∃ v, h.get f.label = some (.sided f.side (holder fs) p f.sibling.root f.color v)) ∧
        Linked h (some f.label) f.sibling ∧ PathLinked h fs (some f.label)

/-- The root of the tree around a hole. -/
def rootOf : List (Frame ℕ) → Option ℕ → Option ℕ
  | [], p => p
  | f :: fs, _ => rootOf fs (some f.label)

/-- **A linked tree**: consistent pointers, with the root below no node. -/
structure Holds (w : World α) (t : ColorTree ℕ) : Prop where
  root : w.guard.root = t.root
  linked : Linked w.heap none t
  nodup : t.toList.Nodup

/-- **A place of a linked tree.** -/
structure At (w : World α) (path : List (Frame ℕ)) (t : ColorTree ℕ) : Prop where
  root : w.guard.root = rootOf path t.root
  around : PathLinked w.heap path t.root
  linked : Linked w.heap (holder path) t
  nodup : (t.toList ++ (before path ++ behind path)).Nodup

/-- Worlds with the same nodes and values. -/
structure Relinked (w w' : World α) : Prop where
  guard : { w'.guard with root := w.guard.root } = w.guard
  vals : ∀ a, (w'.heap.get a).map KrbNode.val = (w.heap.get a).map KrbNode.val
  destroyed : w'.destroyed = w.destroyed
  kerrno : w'.kerrno = w.kerrno

section Linked
variable {h h' : Heap (KrbNode α)} {p q : Option ℕ} {s : Side} {a : ℕ} {c : Color}
  {t x y : ColorTree ℕ} {path : List (Frame ℕ)}

theorem linked_join : Linked h p (join s x a c y) ↔
    (∃ v, h.get a = some (.sided s p x.root y.root c v)) ∧
      Linked h (some a) x ∧ Linked h (some a) y := by
  cases s with
  | left => rfl
  | right => exact and_congr_right' and_comm

theorem root_plug (path : List (Frame ℕ)) (t : ColorTree ℕ) :
    (plug path t).root = rootOf path t.root := by
  induction path generalizing t with
  | nil => rfl
  | cons f fs ih => rw [plug, ih, Frame.fill, root_join, rootOf]

/-- Links, split at a place. -/
theorem linked_plug :
    Linked h none (plug path t) ↔ PathLinked h path t.root ∧ Linked h (holder path) t := by
  induction path generalizing t with
  | nil => simp [plug, PathLinked, holder]
  | cons f fs ih =>
      rw [plug, ih, Frame.fill, root_join, linked_join, PathLinked, holder]
      constructor
      · rintro ⟨hfs, hf, ht, hsib⟩
        exact ⟨⟨hf, hsib, hfs⟩, ht⟩
      · rintro ⟨⟨hf, hsib, hfs⟩, ht⟩
        exact ⟨hfs, hf, ht, hsib⟩

/-- A place of a tree is a place of its world. -/
theorem holds_plug {w : World α} : Holds w (plug path t) ↔ At w path t := by
  constructor
  · intro H
    obtain ⟨hpath, ht⟩ := linked_plug.mp H.linked
    exact ⟨by rw [H.root, root_plug], hpath, ht, (perm_plug path t).nodup_iff.mp H.nodup⟩
  · intro H
    refine ⟨by rw [H.root, root_plug], linked_plug.mpr ⟨H.around, H.linked⟩, ?_⟩
    exact (perm_plug path t).nodup_iff.mpr H.nodup

theorem holds_iff {w : World α} : Holds w t ↔ At w [] t := by
  rw [← holds_plug, plug]

/-- One step up. -/
theorem at_cons {w : World α} {f : Frame ℕ} :
    At w (f :: path) t ↔ At w path (join f.side t f.label f.color f.sibling) := by
  rw [← holds_plug, ← holds_plug]
  rfl

/-- Memory elsewhere does not matter to a tree, -/
theorem Linked.congr (hl : Linked h p t) (heq : ∀ b ∈ t.toList, h'.get b = h.get b) :
    Linked h' p t := by
  induction t generalizing p with
  | nil => trivial
  | node l b c r ihl ihr =>
      simp only [toList, List.forall_mem_append, List.forall_mem_cons] at heq
      obtain ⟨hb, hl, hr⟩ := hl
      exact ⟨by rwa [heq.2.1], ihl hl heq.1, ihr hr heq.2.2⟩

/-- nor to a path. -/
theorem PathLinked.congr (hl : PathLinked h path p)
    (heq : ∀ b ∈ before path ++ behind path, h'.get b = h.get b) : PathLinked h' path p := by
  induction path generalizing p with
  | nil => trivial
  | cons f fs ih =>
      obtain ⟨hf, hsib, hfs⟩ := hl
      refine ⟨?_, hsib.congr fun b hb => ?_, ih hfs fun b hb => ?_⟩
      · rwa [heq _ (mem_sides_cons.mpr (.inl rfl))]
      · exact heq b (mem_sides_cons.mpr (.inr (.inl hb)))
      · exact heq b (mem_sides_cons.mpr (.inr (.inr hb)))

/-- A subtree is given another parent. -/
theorem Linked.adopt (hl : Linked h p t) (hnodup : t.toList.Nodup)
    (heq : ∀ b ∈ t.toList, h'.get b = (h.mapAt t.root fun x => { x with parent := q }).get b) :
    Linked h' q t := by
  cases t with
  | nil => trivial
  | node l b c r =>
      obtain ⟨⟨v, hb⟩, hl, hr⟩ := hl
      have hne : ∀ d ∈ l.toList ++ r.toList, (node l b c r).root ≠ some d := by
        rintro d hd heq'
        rw [root_node, Option.some.injEq] at heq'
        have hperm : (node l b c r).toList.Perm (b :: (l.toList ++ r.toList)) := List.perm_middle
        exact (List.nodup_cons.mp (hperm.nodup_iff.mp hnodup)).1 (heq' ▸ hd)
      refine ⟨⟨v, ?_⟩, hl.congr fun d hd => ?_, hr.congr fun d hd => ?_⟩
      · rw [heq b (by simp [toList]), Heap.get_mapAt, root_node, if_pos rfl, hb]
        rfl
      · rw [heq d (by simp [toList, hd]), Heap.get_mapAt_of_ne _ _ (hne d (by simp [hd]))]
      · rw [heq d (by simp [toList, hd]), Heap.get_mapAt_of_ne _ _ (hne d (by simp [hd]))]

end Linked

/-! ## Stores -/

/-- The world after a store through a pointer. -/
def put (w : World α) (p : Option ℕ) (f : KrbNode α → KrbNode α) : World α :=
  { w with heap := w.heap.mapAt p f }

/-- The world after a pointer was stored in the hole of a path. -/
def hang (w : World α) (path : List (Frame ℕ)) (q : Option ℕ) : World α :=
  match path with
  | [] => w.setRoot q
  | f :: _ => w.put (some f.label) fun x => x.setChild q f.side

section Stores
variable {w w' : World α} {p q : Option ℕ} {f : KrbNode α → KrbNode α} {s : Side} {a n m : ℕ}
  {c d cn cm : Color} {t x y z : ColorTree ℕ} {path : List (Frame ℕ)}

theorem set_eq (hp : (w.heap.load p).isSome) : w.set p f = some (w.put p f) := by
  rw [set, Heap.modify_eq _ _ hp]
  rfl

theorem get_put (b : ℕ) :
    (w.put p f).heap.get b = if p = some b then (w.heap.get b).map f else w.heap.get b :=
  Heap.get_mapAt _ _ _ _

theorem get_put_self : (w.put (some a) f).heap.get a = (w.heap.get a).map f := by
  rw [get_put, if_pos rfl]

theorem get_put_of_ne {b : ℕ} (hb : p ≠ some b) : (w.put p f).heap.get b = w.heap.get b := by
  rw [get_put, if_neg hb]

@[simp] theorem isSome_get_put (b : ℕ) :
    ((w.put p f).heap.get b).isSome = (w.heap.get b).isSome :=
  Heap.isSome_get_mapAt _ _ _ _

@[simp] theorem isSome_load_put (q : Option ℕ) :
    ((w.put p f).heap.load q).isSome = (w.heap.load q).isSome := by
  cases q with
  | none => rfl
  | some b => exact isSome_get_put b

@[simp] theorem isSome_load_hang (path : List (Frame ℕ)) (q r : Option ℕ) :
    ((w.hang path q).heap.load r).isSome = (w.heap.load r).isSome := by
  cases path with
  | nil => rfl
  | cons f fs => exact isSome_load_put r

theorem get_hang_of_ne {b : ℕ} (hb : holder path ≠ some b) :
    (w.hang path q).heap.get b = w.heap.get b := by
  cases path with
  | nil => rfl
  | cons f fs => exact get_put_of_ne hb

theorem get_hang_congr {b : ℕ} (hb : w'.heap.get b = w.heap.get b) :
    (w'.hang path q).heap.get b = (w.hang path q).heap.get b := by
  cases path with
  | nil => exact hb
  | cons f fs => rw [hang, hang, get_put, get_put, hb]

theorem holder_ne (ha : a ∉ before path ++ behind path) : holder path ≠ some a := by
  intro h
  cases path with
  | nil => cases h
  | cons f fs => exact ha (mem_sides_cons.mpr (.inl (Option.some.inj h).symm))

theorem setIf_eq (hp : p ≠ none → (w.heap.load p).isSome) : w.setIf p f = some (w.put p f) := by
  rw [setIf]
  split
  · next h =>
      rw [h]
      rfl
  · next h => exact set_eq (hp h)

theorem Relinked.refl (w : World α) : Relinked w w := ⟨rfl, fun _ => rfl, rfl, rfl⟩

theorem Relinked.trans {w'' : World α} (h : Relinked w w') (h' : Relinked w' w'') :
    Relinked w w'' where
  guard := by
    rw [← h.guard, ← h'.guard]
  vals a := (h'.vals a).trans (h.vals a)
  destroyed := h'.destroyed.trans h.destroyed
  kerrno := h'.kerrno.trans h.kerrno

/-- Stores of links and colours keep the nodes and values. -/
theorem stable_relinked (w₀ : World α) : Stable (fun _ => True) (Relinked w₀) where
  load _ _ _ := fun x _ => linksWithin_any x
  set := by
    intro w hw p f hf _
    apply Ensures.map
    intro h hh
    refine ⟨hw.guard, fun a => ?_, hw.destroyed, hw.kerrno⟩
    obtain ⟨b, rfl, hb⟩ := Option.bind_eq_some_iff.mp hh
    obtain rfl := Option.some.inj (Option.ite_none_right_eq_some.mp hb).2
    rw [← hw.vals a, Heap.get_map]
    split
    · rw [Option.map_map]
      exact congrArg (Option.map · _) (funext hf)
    · rfl
  root hw _ _ := ⟨hw.guard, hw.vals, hw.destroyed, hw.kerrno⟩

/-- The node at a place. -/
theorem At.get (H : At w path (join s x a c y)) :
    ∃ v, w.heap.get a = some (.sided s (holder path) x.root y.root c v) :=
  (linked_join.mp H.linked).1

/-- The root of a linked tree is a node. -/
theorem Linked.isSome_root (hl : Linked w.heap p t) (hne : t.root ≠ none) :
    (w.heap.load t.root).isSome := by
  cases t with
  | nil => exact absurd rfl hne
  | node l b c r =>
      obtain ⟨⟨v, hb⟩, -⟩ := hl
      exact Option.isSome_iff_exists.mpr ⟨_, hb⟩

/-- A pointer is stored in the hole of a path. -/
theorem PathLinked.refill {h' : Heap (KrbNode α)} (hl : PathLinked w.heap path p)
    (hnodup : (before path ++ behind path).Nodup)
    (heq : ∀ b ∈ before path ++ behind path, h'.get b = (w.hang path q).heap.get b) :
    PathLinked h' path q := by
  cases path with
  | nil => trivial
  | cons f fs =>
      obtain ⟨⟨v, hf⟩, hsib, hfs⟩ := hl
      have hne : ∀ b ∈ f.sibling.toList ++ (before fs ++ behind fs), some f.label ≠ some b := by
        rintro b hb heq'
        rw [Option.some.injEq] at heq'
        have hcons := (perm_sides_cons f fs).nodup_iff.mp hnodup
        exact (List.nodup_cons.mp hcons).1 (heq' ▸ hb)
      have hkeep : ∀ b ∈ f.sibling.toList ++ (before fs ++ behind fs), h'.get b = w.heap.get b := by
        intro b hb
        rw [heq b (mem_sides_cons.mpr (.inr (List.mem_append.mp hb)))]
        exact get_put_of_ne (hne b hb)
      refine ⟨⟨v, ?_⟩, hsib.congr fun b hb => hkeep b (List.mem_append_left _ hb),
        hfs.congr fun b hb => hkeep b (List.mem_append_right _ hb)⟩
      rw [heq _ (mem_sides_cons.mpr (.inl rfl)), hang, get_put_self, hf,
        Option.map_some, KrbNode.setChild_sided]

theorem root_hang (h : w.guard.root = rootOf path p) :
    (w.hang path q).guard.root = rootOf path q := by
  cases path with
  | nil => rfl
  | cons f fs => exact h

/-- `RB_LEFT(parent) == node` finds out on which side of its parent a node is. -/
theorem replaceChild_eq (hl : PathLinked w.heap path (some n))
    (hn : n ∉ before path ++ behind path) :
    w.replaceChild (holder path) n q = some (w.hang path q) := by
  cases path with
  | nil => rfl
  | cons f fs =>
      obtain ⟨⟨v, hf⟩, -⟩ := hl
      have hsib : f.sibling.root ≠ some n := by
        intro h
        exact hn (mem_sides_cons.mpr (.inr (.inl (mem_toList_of_root h))))
      have hset : ∀ g : KrbNode α → KrbNode α,
          w.set (some f.label) g = some (w.put (some f.label) g) :=
        fun g => set_eq (Option.isSome_iff_exists.mpr ⟨_, hf⟩)
      have hget : w.heap.load (some f.label) = w.heap.get f.label := rfl
      rw [replaceChild, holder, if_neg (Option.some_ne_none _), childOf, hget, hf, hang]
      cases hs : f.side with
      | left =>
          simp only [Option.map_some, KrbNode.sided, KrbNode.child, Option.bind_eq_bind,
            Option.bind_some, if_true, hset]
          rfl
      | right =>
          simp only [Option.map_some, KrbNode.sided, KrbNode.child, Option.bind_eq_bind,
            Option.bind_some, if_neg hsib, hset]
          rfl

/-- A node is painted. -/
theorem paint_spec (H : At w path t) (ha : t.root = some a) (d : Color) :
    ∃ w', w.set (some a) (fun x => { x with color := d }) = some w' ∧ At w' path (t.paint d) := by
  cases t with
  | nil => cases ha
  | node l b c r =>
      cases ha
      obtain ⟨⟨v, hget⟩, hl, hr⟩ := H.linked
      have hnodup := List.nodup_append.mp H.nodup
      have hcons := List.nodup_cons.mp (List.perm_middle.nodup_iff.mp hnodup.1)
      have hset : w.set (some a) (fun x => { x with color := d }) =
          some (w.put (some a) fun x => { x with color := d }) :=
        set_eq (Option.isSome_iff_exists.mpr ⟨_, hget⟩)
      refine ⟨_, hset, H.root, ?_, ⟨⟨v, ?_⟩, hl.congr fun e he => ?_, hr.congr fun e he => ?_⟩,
        H.nodup⟩
      · apply H.around.congr
        intro e he
        refine get_put_of_ne fun heq => ?_
        exact hnodup.2.2 a (by simp [toList]) e he (Option.some.inj heq)
      · rw [get_put_self, hget]
        rfl
      · refine get_put_of_ne fun heq => hcons.1 ?_
        rw [Option.some.inj heq]
        exact List.mem_append_left _ he
      · refine get_put_of_ne fun heq => hcons.1 ?_
        rw [Option.some.inj heq]
        exact List.mem_append_right _ he

end Stores

section Rotate
variable {w : World α} {s : Side} {n m : ℕ} {cn cm : Color} {x y z : ColorTree ℕ}
  {path : List (Frame ℕ)}

/-- What a rotation at `n` tells apart. -/
structure Apart (n m : ℕ) (x y z : ColorTree ℕ) (sides : List ℕ) : Prop where
  ne : n ≠ m
  n_x : n ∉ x.toList
  n_y : n ∉ y.toList
  n_z : n ∉ z.toList
  n_sides : n ∉ sides
  m_x : m ∉ x.toList
  m_y : m ∉ y.toList
  m_z : m ∉ z.toList
  m_sides : m ∉ sides
  x_y : ∀ b ∈ x.toList, b ∉ y.toList
  z_y : ∀ b ∈ z.toList, b ∉ y.toList
  x_sides : ∀ b ∈ x.toList, b ∉ sides
  y_sides : ∀ b ∈ y.toList, b ∉ sides
  z_sides : ∀ b ∈ z.toList, b ∉ sides
  y : y.toList.Nodup
  sides : sides.Nodup

theorem At.apart (H : At w path (join s x n cn (join s y m cm z))) :
    Apart n m x y z (before path ++ behind path) := by
  have hperm : (join s x n cn (join s y m cm z)).toList.Perm
      (n :: (x.toList ++ m :: (y.toList ++ z.toList))) :=
    perm_join.trans ((perm_join.append_left _).cons _)
  have hnodup := (hperm.append_right _).nodup_iff.mp H.nodup
  generalize before path ++ behind path = sides at hnodup ⊢
  simp only [List.cons_append, List.append_assoc, List.nodup_cons, List.nodup_append,
    List.mem_append, List.mem_cons, not_or] at hnodup
  constructor <;> grind

/-- The world after the stores of a rotation below the two nodes. -/
def turned (w : World α) (s : Side) (n m : ℕ) (y up : Option ℕ) : World α :=
  ((w.put (some n) fun x => x.setChild y s.other).put y fun x =>
    { x with parent := some n }).put (some m) fun x => { x with parent := up }

/-- The world after a rotation. -/
def rotated (w : World α) (s : Side) (n m : ℕ) (y : Option ℕ) (path : List (Frame ℕ)) : World α :=
  (((w.turned s n m y (holder path)).hang path (some m)).put (some m) fun x =>
    x.setChild (some n) s).put (some n) fun x => { x with parent := some m }

theorem get_turned_of_ne {y up : Option ℕ} {b : ℕ} (hn : n ≠ b) (hm : m ≠ b) (hy : y ≠ some b) :
    (w.turned s n m y up).heap.get b = w.heap.get b := by
  rw [turned, get_put_of_ne (by simpa using hm), get_put_of_ne hy,
    get_put_of_ne (by simpa using hn)]

/-- The way of a rotation through its branches, given what each store does.  The place of `n`
is found as in `replaceChild`. -/
theorem rotate_of_stores {inner up : Option ℕ} {w₁ w₂ w₃ w₄ w₅ w₆ : World α}
    (htmp : w.childOf s.other (some n) = some (some m))
    (hinner : w.childOf s (some m) = some inner)
    (h₁ : w.set (some n) (fun x => x.setChild inner s.other) = some w₁)
    (hinner₁ : w₁.childOf s (some m) = some inner)
    (h₂ : (if inner = none then some w₁
      else w₁.set inner fun x => { x with parent := some n }) = some w₂)
    (hup : w₂.parentOf (some n) = some up)
    (h₃ : w₂.set (some m) (fun x => { x with parent := up }) = some w₃)
    (hup₃ : w₃.parentOf (some n) = some up)
    (h₄ : w₃.replaceChild up n (some m) = some w₄)
    (h₅ : w₄.set (some m) (fun x => x.setChild (some n) s) = some w₅)
    (h₆ : w₅.set (some n) (fun x => { x with parent := some m }) = some w₆) :
    w.rotate s n = some w₆ := by
  rw [replaceChild] at h₄
  unfold rotate
  simp only [htmp, hinner, h₁, Option.bind_eq_bind, Option.bind_some]
  -- with or without an inner child
  rcases eq_or_ne inner none with hnone | hnone
  on_goal 1 =>
    rw [if_pos hnone] at h₂ ⊢
    obtain rfl := Option.some.inj h₂
  on_goal 2 =>
    rw [if_neg hnone] at h₂ ⊢
    simp only [hinner₁, h₂, Option.bind_some]
  all_goals
    simp only [hup, h₃, Option.bind_some]
    split at h₄
    · next hroot => rw [if_pos hroot, Option.some.inj h₄, h₅, Option.bind_some, h₆]
    · next hroot =>
        obtain ⟨left, hleft, hstore⟩ := Option.bind_eq_some_iff.mp h₄
        rw [if_neg hroot, hup₃, Option.bind_some, hleft, Option.bind_some]
        split at hstore
        · next hl => rw [if_pos hl, hstore, Option.bind_some, h₅, Option.bind_some, h₆]
        · next hl => rw [if_neg hl, hstore, Option.bind_some, h₅, Option.bind_some, h₆]

theorem isSome_get_turned {y up : Option ℕ} {b : ℕ} :
    ((w.turned s n m y up).heap.get b).isSome = (w.heap.get b).isSome := by
  rw [turned, isSome_get_put, isSome_get_put, isSome_get_put]

/-- A rotation is a sequence of stores. -/
theorem rotate_eq (H : At w path (join s x n cn (join s y m cm z))) :
    w.rotate s n = some (w.rotated s n m y.root path) := by
  have A := H.apart
  obtain ⟨⟨vn, hn⟩, -, hright⟩ := linked_join.mp H.linked
  obtain ⟨⟨vm, hm⟩, hy, -⟩ := linked_join.mp hright
  rw [root_join] at hn
  have hyn : y.root ≠ some n := root_ne_of_notMem A.n_y
  have hmn : some n ≠ some m := by simpa using A.ne
  have hload : ∀ (w : World α) a, w.heap.load (some a) = w.heap.get a := fun _ _ => rfl
  let w₁ := w.put (some n) fun x => x.setChild y.root s.other
  let w₂ := w₁.put y.root fun x => { x with parent := some n }
  have hup : w₂.parentOf (some n) = some (holder path) := by
    rw [parentOf, hload, get_put_of_ne hyn, get_put_self, hn]
    cases s <;> rfl
  have hpath : PathLinked (w.turned s n m y.root (holder path)).heap path (some n) := by
    have hpath := H.around
    rw [root_join] at hpath
    apply hpath.congr
    intro b hb
    apply get_turned_of_ne
    · exact fun h => A.n_sides (h ▸ hb)
    · exact fun h => A.m_sides (h ▸ hb)
    · exact fun h => A.y_sides b (mem_toList_of_root h) hb
  have hset₂ : (if y.root = none then some w₁
      else w₁.set y.root fun x => { x with parent := some n }) = some w₂ := by
    rcases eq_or_ne y.root none with hnone | hnone
    · rw [if_pos hnone]
      change some w₁ = some (w₁.put y.root _)
      rw [hnone]
      rfl
    · rw [if_neg hnone]
      apply set_eq
      obtain ⟨b, hb⟩ := Option.ne_none_iff_exists'.mp hnone
      have hsome := hy.isSome_root hnone
      rw [hb, hload] at hsome ⊢
      rwa [isSome_get_put]
  have hset₃ : w₂.set (some m) (fun x => { x with parent := holder path }) =
      some (w.turned s n m y.root (holder path)) := by
    apply set_eq
    rw [hload, isSome_get_put, isSome_get_put, hm]
    rfl
  refine rotate_of_stores ?_ ?_ (set_eq ?_) ?_ hset₂ hup hset₃ ?_ (replaceChild_eq hpath A.n_sides)
    (set_eq ?_) (set_eq ?_)
  · rw [childOf, hload, hn, Option.map_some, KrbNode.child_other_sided]
  · rw [childOf, hload, hm, Option.map_some, KrbNode.child_sided]
  · rw [hload, hn]
    rfl
  · rw [childOf, hload, get_put_of_ne hmn, hm, Option.map_some, KrbNode.child_sided]
  · have hkeep : (w.turned s n m y.root (holder path)).heap.get n = w₂.heap.get n :=
      get_put_of_ne hmn.symm
    rw [parentOf, hload, hkeep]
    exact hup
  · rw [hload, get_hang_of_ne (holder_ne A.m_sides), isSome_get_turned, hm]
    rfl
  · rw [hload, isSome_get_put, get_hang_of_ne (holder_ne A.n_sides), isSome_get_turned, hn]
    rfl

/-- **A rotation of the code is one of the tree.** -/
theorem rotate_spec (H : At w path (join s x n cn (join s y m cm z))) :
    ∃ w', w.rotate s n = some w' ∧ At w' path (join s (join s x n cn y) m cm z) := by
  have A := H.apart
  refine ⟨_, rotate_eq H, ?_⟩
  obtain ⟨⟨vn, hn⟩, hx, hright⟩ := linked_join.mp H.linked
  obtain ⟨⟨vm, hm⟩, hy, hz⟩ := linked_join.mp hright
  have hyn : y.root ≠ some n := root_ne_of_notMem A.n_y
  have hym : y.root ≠ some m := root_ne_of_notMem A.m_y
  have hmn : some n ≠ some m := by simpa using A.ne
  -- all but the two nodes are as before the last two stores
  have hother : ∀ b, n ≠ b → m ≠ b → (w.rotated s n m y.root path).heap.get b =
      ((w.turned s n m y.root (holder path)).hang path (some m)).heap.get b := by
    intro b hnb hmb
    rw [rotated, get_put_of_ne (by simpa using hnb), get_put_of_ne (by simpa using hmb)]
  have hkeep : ∀ b, n ≠ b → m ≠ b → y.root ≠ some b → b ∉ before path ++ behind path →
      (w.rotated s n m y.root path).heap.get b = w.heap.get b := by
    intro b hnb hmb hyb hb
    rw [hother b hnb hmb, get_hang_of_ne (holder_ne hb), get_turned_of_ne hnb hmb hyb]
  have hgetn : (w.rotated s n m y.root path).heap.get n =
      some (.sided s (some m) x.root y.root cn vn) := by
    rw [rotated, get_put_self, get_put_of_ne hmn.symm, get_hang_of_ne (holder_ne A.n_sides), turned,
      get_put_of_ne hmn.symm, get_put_of_ne hyn, get_put_self, hn]
    cases s <;> rfl
  have hgetm : (w.rotated s n m y.root path).heap.get m =
      some (.sided s (holder path) (some n) z.root cm vm) := by
    rw [rotated, get_put_of_ne hmn, get_put_self, get_hang_of_ne (holder_ne A.m_sides), turned,
      get_put_self, get_put_of_ne hym, get_put_of_ne hmn, hm]
    cases s <;> rfl
  constructor
  · have hroot : (w.turned s n m y.root (holder path)).guard.root = rootOf path (some n) := by
      have := H.root
      rwa [root_join] at this
    rw [root_join]
    exact root_hang hroot
  · rw [root_join]
    refine H.around.refill A.sides fun b hb => ?_
    have hnb : n ≠ b := fun h => A.n_sides (h ▸ hb)
    have hmb : m ≠ b := fun h => A.m_sides (h ▸ hb)
    rw [hother b hnb hmb]
    exact get_hang_congr (get_turned_of_ne hnb hmb (root_ne_of_notMem fun h => A.y_sides b h hb))
  · rw [linked_join, linked_join, root_join]
    refine ⟨⟨vm, hgetm⟩, ⟨⟨vn, hgetn⟩, ?_, ?_⟩, ?_⟩
    · refine hx.congr fun b hb => ?_
      exact hkeep b (fun h => A.n_x (h ▸ hb)) (fun h => A.m_x (h ▸ hb))
        (root_ne_of_notMem (A.x_y b hb)) (A.x_sides b hb)
    · refine hy.adopt A.y fun b hb => ?_
      have hnb : n ≠ b := fun h => A.n_y (h ▸ hb)
      have hmb : m ≠ b := fun h => A.m_y (h ▸ hb)
      rw [hother b hnb hmb, get_hang_of_ne (holder_ne (A.y_sides b hb)), turned,
        get_put_of_ne (by simpa using hmb), get_put, Heap.get_mapAt,
        get_put_of_ne (by simpa using hnb)]
    · refine hz.congr fun b hb => ?_
      exact hkeep b (fun h => A.n_z (h ▸ hb)) (fun h => A.m_z (h ▸ hb))
        (root_ne_of_notMem (A.z_y b hb)) (A.z_sides b hb)
  · have hnodup := H.nodup
    rwa [toList_rotate] at hnodup

end Rotate

end Krb.World

end Kylin
