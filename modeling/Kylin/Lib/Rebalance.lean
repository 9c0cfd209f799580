import Kylin.Lib.RedBlack

/-!
# Rebalancing red-black trees from the bottom

The two bottom-up repairs of a red-black tree, as facts about trees.  After an insertion a red
tree may be below a red node, `RedAt`; after a removal a tree may be too shallow by one,
`ShallowAt`.  There is one lemma for each case of a repair: the place it goes on from is of
the same kind, or the whole tree is a red-black tree.

## Main definitions

* `RedAt` — a place with a red tree, below a red node or not.
* `ShallowAt` — a place with a tree whose black height is one less than it should be.

## Main results

* `RedAt.recolor`, `RedAt.outer`, `RedAt.inner` — the cases after an insertion.
* `ShallowAt.redSibling`, `ShallowAt.climb`, `ShallowAt.inner`, `ShallowAt.outer` — the cases
  after a removal.
-/

namespace Lib.ColorTree

variable {ι : Type} {s : Side} {f g : Frame ι} {fs gs path : List (Frame ι)}
  {a m n : ι} {c : Color} {k : ℕ} {t x y z : ColorTree ι} {ex : Option ι} {above above' : Color}

/-! ## Painting -/

/-- A black root may stand anywhere. -/
theorem Colored.paint_black (h : Colored ex above t) : Colored ex above' (t.paint .black) := by
  cases t with
  | nil => trivial
  | node l a c r =>
      cases c with
      | black => exact ⟨nofun, h.2⟩
      | red => exact ⟨nofun, h.2.1.of_red, h.2.2.of_red⟩

/-- A red root painted black adds one to the black height. -/
theorem Height.paint_black (h : Height t k) (hc : t.color = .red) :
    Height (t.paint .black) (k + 1) := by
  cases t with
  | nil => cases hc
  | node l a c r =>
      cases hc
      obtain ⟨j, hl, hr, hk⟩ := h
      exact ⟨j, hl, hr, congrArg (· + 1) hk⟩

/-- A tree that is not empty, seen from a side. -/
theorem exists_join_of_root (s : Side) (h : t.root = some a) : ∃ x y, t = join s x a t.color y := by
  cases t with
  | nil => cases h
  | node l b c r =>
      cases h
      exact exists_join s l a c r

theorem length_le_length_toList_plug (path : List (Frame ι)) (t : ColorTree ι) :
    path.length + t.toList.length ≤ (plug path t).toList.length := by
  induction path generalizing t with
  | nil => simp [plug]
  | cons f fs ih =>
      have hfill := (perm_join (s := f.side) (x := t) (a := f.label) (c := f.color)
        (y := f.sibling)).length_eq
      have hle := ih (f.fill t)
      simp only [List.length_cons, List.length_append, Frame.fill, plug] at hfill hle ⊢
      omega

/-- The node above a red one is black. -/
theorem PathColored.exists_black (h : PathColored none (f :: fs)) (hf : f.color = .red) :
    ∃ g gs, fs = g :: gs ∧ g.color = .black := by
  have hblack : aboveColor fs = .black := (h.2.1 hf).resolve_right nofun
  cases fs with
  | nil => cases hblack
  | cons g gs => exact ⟨g, gs, rfl, hblack⟩

/-! ## After an insertion -/

/-- **A place with a red tree**, with no other fault than that the node above may be red. -/
structure RedAt (path : List (Frame ι)) (t : ColorTree ι) : Prop where
  color : t.color = .red
  below : Colored none .black t
  around : PathColored none path
  height : ∃ k, Height t k ∧ Fits path k

/-- Below a black node, or at the root, the only fault may be a red root. -/
theorem RedAt.colored (H : RedAt path t) (h : path = [] ∨ aboveColor path = .black) :
    Colored none .black (plug path t) := by
  obtain rfl | hblack := h
  · exact H.below
  · apply Colored.of_red
    rw [colored_plug, hblack]
    exact ⟨H.around, H.below⟩

/-- A red uncle: the grandparent takes its colour. -/
theorem RedAt.recolor (H : RedAt (f :: g :: gs) t) (hf : f.color = .red) (hg : g.color = .black)
    (hu : g.sibling.color = .red) :
    RedAt gs (join g.side (join f.side t f.label .black f.sibling) g.label .red
      (g.sibling.paint .black)) := by
  obtain ⟨hfsib, -, hgsib, -, hgs⟩ := H.around
  obtain ⟨k, ht, hf', hg', hfits⟩ := H.height
  rw [hf] at hfsib hg' hfits
  rw [hg] at hfits
  constructor
  · exact color_join
  · rw [colored_join, colored_join]
    exact ⟨fun _ => .inl rfl, ⟨nofun, H.below, hfsib.of_red⟩, hgsib.paint_black⟩
  · exact hgs
  · refine ⟨k + 1, height_join.mpr ⟨k + 1, ?_, hg'.paint_black hu, rfl⟩, hfits⟩
    exact height_join.mpr ⟨k, ht, hf', rfl⟩

/-- An outer child: one rotation. -/
theorem RedAt.outer (H : RedAt (f :: g :: gs) t) (hf : f.color = .red) (hg : g.color = .black)
    (hu : g.sibling.color = .black) (s : Side) :
    RedAt (⟨s, f.label, .black, join s f.sibling g.label .red g.sibling⟩ :: gs) t := by
  obtain ⟨hfsib, -, hgsib, -, hgs⟩ := H.around
  obtain ⟨k, ht, hf', hg', hfits⟩ := H.height
  rw [hf] at hfsib hg' hfits
  rw [hg] at hfits
  refine ⟨H.color, H.below, ⟨?_, nofun, hgs⟩, k, ht, ?_, hfits⟩
  · exact colored_join.mpr ⟨fun _ => .inl rfl, hfsib, hgsib.red_of_color hu⟩
  · exact height_join.mpr ⟨k, hf', hg', rfl⟩

/-- An inner child: two rotations, and the parent is the red tree. -/
theorem RedAt.inner (H : RedAt (f :: g :: gs) (join s x n .red y)) (hf : f.color = .red)
    (hg : g.color = .black) (hu : g.sibling.color = .black) :
    RedAt (⟨s, n, .black, join s y g.label .red g.sibling⟩ :: gs)
      (join s f.sibling f.label .red x) := by
  obtain ⟨hfsib, -, hgsib, -, hgs⟩ := H.around
  obtain ⟨k, ht, hf', hg', hfits⟩ := H.height
  obtain ⟨-, hx, hy⟩ := colored_join.mp H.below
  obtain ⟨k, hx', hy', rfl⟩ := height_join.mp ht
  rw [hf] at hfsib hg' hfits
  rw [hg] at hfits
  refine ⟨color_join, ?_, ⟨?_, nofun, hgs⟩, k, ?_, ?_, hfits⟩
  · exact colored_join.mpr ⟨fun _ => .inl rfl, hfsib, hx⟩
  · exact colored_join.mpr ⟨fun _ => .inl rfl, hy, hgsib.red_of_color hu⟩
  · exact height_join.mpr ⟨k, hf', hx', rfl⟩
  · exact height_join.mpr ⟨k, hy', hg', rfl⟩

/-! ## After a removal -/

/-- **A place with a tree that is too shallow by one**, where the root of the tree may also be
red without reason. -/
structure ShallowAt (path : List (Frame ι)) (t : ColorTree ι) : Prop where
  below : Colored none .red (t.paint .black)
  around : PathColored none path
  height : ∃ k, Height t k ∧ Fits path (k + 1)

/-- A red root is painted black. -/
theorem ShallowAt.redBlack (H : ShallowAt path t) (hc : t.color = .red) :
    RedBlack (plug path (t.paint .black)) := by
  obtain ⟨k, ht, hfits⟩ := H.height
  exact ⟨colored_plug.mpr ⟨H.around, H.below.of_red⟩,
    height_plug.mpr ⟨k + 1, ht.paint_black hc, hfits⟩⟩

/-- At the root there is nothing to be too shallow for. -/
theorem ShallowAt.redBlack_nil (H : ShallowAt [] t) : RedBlack (t.paint .black) := by
  cases hc : t.color with
  | red => exact H.redBlack hc
  | black =>
      obtain ⟨k, ht, -⟩ := H.height
      refine ⟨H.below, k, ?_⟩
      rwa [← hc, paint_color]

/-- A black tree has no fault of its own. -/
theorem ShallowAt.colored (H : ShallowAt path t) (hc : t.color = .black) : Colored none .red t := by
  have h := H.below
  rwa [← hc, paint_color] at h

/-- There is a sibling. -/
theorem ShallowAt.exists_sibling (H : ShallowAt (f :: fs) t) (s : Side) :
    ∃ y m z, f.sibling = join s y m f.sibling.color z := by
  obtain ⟨k, -, hsib, -⟩ := H.height
  obtain ⟨l, m, c, r, h⟩ := exists_node_of_height hsib
  obtain ⟨y, z, hjoin⟩ := exists_join_of_root (t := f.sibling) s (by rw [h]; rfl)
  exact ⟨y, m, z, hjoin⟩

/-- A red sibling is rotated away. -/
theorem ShallowAt.redSibling (H : ShallowAt (⟨s, n, c, join s y m .red z⟩ :: fs) t) :
    ShallowAt (⟨s, n, .red, y⟩ :: ⟨s, m, .black, z⟩ :: fs) t ∧ y.color = .black := by
  obtain ⟨hsib, -, hfs⟩ := H.around
  obtain ⟨k, ht, hsib', hfits⟩ := H.height
  obtain ⟨hred, hy, hz⟩ := colored_join.mp hsib
  obtain ⟨k', hy', hz', hk⟩ := height_join.mp hsib'
  obtain rfl : k + 1 = k' := hk
  have hc : c = .black := (hred rfl).resolve_right nofun
  rw [hc] at hfits
  refine ⟨⟨H.below, ⟨hy, fun _ => .inl rfl, hz.of_red, nofun, hfs⟩, k, ht, hy', hz', hfits⟩, ?_⟩
  exact hy.color_eq

/-- Both nephews are black: the sibling is painted red, and the place moves up. -/
theorem ShallowAt.climb (H : ShallowAt (⟨s, n, c, join s y m .black z⟩ :: fs) t)
    (hc : t.color = .black) (hy : y.color = .black) (hz : z.color = .black) :
    ShallowAt fs (join s t n c (join s y m .red z)) := by
  obtain ⟨hsib, -, hfs⟩ := H.around
  obtain ⟨k, ht, hsib', hfits⟩ := H.height
  obtain ⟨-, hy', hz'⟩ := colored_join.mp hsib
  obtain ⟨k', hyk, hzk, hk⟩ := height_join.mp hsib'
  obtain rfl : k = k' := Nat.succ.inj hk
  constructor
  · rw [paint_join, colored_join, colored_join]
    exact ⟨nofun, (H.colored hc).of_red, fun _ => .inl rfl, hy'.red_of_color hy,
      hz'.red_of_color hz⟩
  · exact hfs
  · refine ⟨k + c.weight, height_join.mpr ⟨k, ht, height_join.mpr ⟨k, hyk, hzk, rfl⟩, rfl⟩, ?_⟩
    rwa [Nat.add_right_comm]

/-- A red inner nephew is rotated into the place of the sibling. -/
theorem ShallowAt.inner {y₁ y₂ : ColorTree ι}
    (H : ShallowAt (⟨s, n, c, join s (join s y₁ a .red y₂) m .black z⟩ :: fs) t)
    (hz : z.color = .black) :
    ShallowAt (⟨s, n, c, join s y₁ a .black (join s y₂ m .red z)⟩ :: fs) t := by
  obtain ⟨hsib, hred, hfs⟩ := H.around
  obtain ⟨k, ht, hsib', hfits⟩ := H.height
  obtain ⟨-, hy', hz'⟩ := colored_join.mp hsib
  obtain ⟨-, hy₁, hy₂⟩ := colored_join.mp hy'
  obtain ⟨k', hyk, hzk, hk⟩ := height_join.mp hsib'
  obtain rfl : k = k' := Nat.succ.inj hk
  obtain ⟨k', hy₁k, hy₂k, hk'⟩ := height_join.mp hyk
  obtain rfl : k = k' := hk'
  refine ⟨H.below, ⟨?_, hred, hfs⟩, k, ht, ?_, hfits⟩
  · refine colored_join.mpr ⟨nofun, hy₁.of_red, colored_join.mpr ⟨fun _ => .inl rfl, hy₂, ?_⟩⟩
    exact hz'.red_of_color hz
  · exact height_join.mpr ⟨k, hy₁k, height_join.mpr ⟨k, hy₂k, hzk, rfl⟩, rfl⟩

/-- A red outer nephew: one rotation ends the repair. -/
theorem ShallowAt.outer (H : ShallowAt (⟨s, n, c, join s y m .black z⟩ :: fs) t)
    (hc : t.color = .black) (hz : z.color = .red) :
    RedBlack (plug fs (join s (join s t n .black y) m c (z.paint .black))) := by
  obtain ⟨hsib, hred, hfs⟩ := H.around
  obtain ⟨k, ht, hsib', hfits⟩ := H.height
  obtain ⟨-, hy', hz'⟩ := colored_join.mp hsib
  obtain ⟨k', hyk, hzk, hk⟩ := height_join.mp hsib'
  obtain rfl : k = k' := Nat.succ.inj hk
  constructor
  · rw [colored_plug, colored_join, colored_join]
    refine ⟨hfs, fun hc' => .inl ?_, ⟨nofun, (H.colored hc).of_red, hy'⟩, hz'.paint_black⟩
    exact (hred hc').resolve_right nofun
  · refine height_plug.mpr ⟨_, height_join.mpr ⟨k + 1, ?_, hzk.paint_black hz, rfl⟩, hfits⟩
    exact height_join.mpr ⟨k, ht, hyk, rfl⟩

end Lib.ColorTree
