import Kylin.Lib.Ensures
import Kylin.Math.Rb

/-!
# Removal from the red-black tree, and its statistics

The removing functions of `lib/core/math/kylin_rb.c`, as sequences of loads and stores, and
the three fields `count`, `min` and `max` that `kylin_rb_count`, `kylin_rb_min` and
`kylin_rb_max` read.

No function of the file writes these fields: they stay what `kylin_rb_create` has made
them, the statistics of the empty tree, `perform_stats`.  So they are right in a state exactly
when it has no root, and in all states of a run exactly when the run inserts nothing,
`run_rightStats_iff`.

## Main definitions

* `removeColor`, `unlinkRaw`, `removeRaw`, `remove`, `unlink` — the operations.
* `Walk` — the addresses met by the in-order walk below a pointer.
* `RightStats` — what the statistics should be.

## Main results

* `run_rightStats_iff` — the runs whose statistics are right.
-/

namespace Kylin

open Lib

namespace Krb.World
variable {α : Type}

/-! ## Rebalancing after a removal -/

/-- A store through a pointer that may be null. -/
def setIf (w : World α) (p : Option ℕ) (f : KrbNode α → KrbNode α) : Option (World α) :=
  if p = none then some w else w.set p f

/-- `RB_CHILD(node) == NULL || RB_COLOR(RB_CHILD(node)) == RB_BLACK`, for the child on a side. -/
def blackChild (w : World α) (side : Side) (p : Option ℕ) : Option Bool := do
  match ← w.childOf side p with
  | none => some true
  | some a => (w.heap.get a).map fun x => x.color == .black

/-- `RB_COLOR(node)`. -/
def colorOf (w : World α) (p : Option ℕ) : Option Color := (w.heap.load p).map KrbNode.color

/-- The first part of a turn of `_remove_color`: a red sibling `tmp` is rotated away. -/
def removeColorRed (side : Side) (w : World α) (parent : ℕ) : Option (Option ℕ × World α) := do
  let tmp ← w.childOf side.other (some parent)
  let color ← w.colorOf tmp
  if color = .red then
    let w ← w.set tmp fun x => { x with color := .black }
    let w ← w.set (some parent) fun x => { x with color := .red }
    let w ← w.rotate side parent
    let tmp ← w.childOf side.other (some parent)
    some (tmp, w)
  else some (tmp, w)

/-- A sibling whose outer child is black is rotated, so that its outer child is red. -/
def removeColorInner (side : Side) (w : World α) (parent : ℕ) (tmp : Option ℕ) :
    Option (Option ℕ × World α) := do
  let outer ← w.blackChild side.other tmp
  if outer then
    let inner ← w.childOf side tmp
    let w ← w.setIf inner fun x => { x with color := .black }
    let w ← w.set tmp fun x => { x with color := .red }
    let w ← w.rotate side.other (← tmp)
    let tmp ← w.childOf side.other (some parent)
    some (tmp, w)
  else some (tmp, w)

/-- The last part of a turn, before the `break`. -/
def removeColorOuter (side : Side) (w : World α) (parent : ℕ) (tmp : Option ℕ) :
    Option (World α) := do
  let color ← w.colorOf (some parent)
  let w ← w.set tmp fun x => { x with color := color }
  let w ← w.set (some parent) fun x => { x with color := .black }
  let outer ← w.childOf side.other tmp
  let w ← w.setIf outer fun x => { x with color := .black }
  w.rotate side parent

/-- One turn of the loop of `_remove_color` for the child of `parent` on `side`: the node and
the parent to go on with, or `none` after a `break`. -/
def removeColorTurn (side : Side) (w : World α) (parent : ℕ) :
    Option (Option (ℕ × Option ℕ) × World α) := do
  let (tmp, w) ← w.removeColorRed side parent
  let left ← w.blackChild .left tmp
  let right ← if left then w.blackChild .right tmp else some false
  if right then
    let w ← w.set tmp fun x => { x with color := .red }
    let up ← w.parentOf (some parent)
    some (some (parent, up), w)
  else
    let (tmp, w) ← w.removeColorInner side parent tmp
    let w ← w.removeColorOuter side parent tmp
    some (none, w)

/-- The loop of `_remove_color`, with the node it ends at; `none` when `fuel` turns were not
enough. -/
def removeColorLoop : ℕ → World α → Option ℕ → Option ℕ → Option (Option ℕ × World α)
  | 0, _, _, _ => none
  | fuel + 1, w, parent, node => do
      let black ← if node = none then some true else (w.colorOf node).map fun c => c == .black
      if black ∧ node ≠ w.guard.root then
        let p ← parent
        let left ← w.childOf .left parent
        let (next, w) ←
          if left = node then w.removeColorTurn .left p else w.removeColorTurn .right p
        match next with
        | some (node, parent) => removeColorLoop fuel w parent (some node)
        | none => some (w.guard.root, w)
      else some (node, w)

/-- `_remove_color`. -/
def removeColor (fuel : ℕ) (w : World α) (parent node : Option ℕ) : Option (World α) := do
  let (node, w) ← removeColorLoop fuel w parent node
  w.setIf node fun x => { x with color := .black }

/-! ## Removal -/

/-- Put `child` in the place of `node` below `parent`, or at the root. -/
def replaceChild (w : World α) (parent : Option ℕ) (node : ℕ) (child : Option ℕ) :
    Option (World α) :=
  if parent = none then some (w.setRoot child)
  else do
    let left ← w.childOf .left parent
    if left = some node then w.set parent fun x => { x with left := child }
    else w.set parent fun x => { x with right := child }

/-- The left-most node below a node. -/
def leftmost (w : World α) : ℕ → ℕ → Option ℕ
  | 0, _ => none
  | fuel + 1, node => do
      match ← w.childOf .left (some node) with
      | none => some node
      | some left => leftmost w fuel left

/-- A node with at most one child is taken out: the colour that went, with the place where
the tree may have become too shallow. -/
def unlinkLeaf (w : World α) (node : ℕ) (child : Option ℕ) :
    Option (Color × Option ℕ × Option ℕ × World α) := do
  let x ← w.heap.get node
  let w ← w.setIf child fun y => { y with parent := x.parent }
  let w ← w.replaceChild x.parent node child
  some (x.color, x.parent, child, w)

/-- A node with two children is replaced by its successor.  The source does not copy the
links of `old` into `node`. -/
def unlinkInner (fuel : ℕ) (w : World α) (old right : ℕ) :
    Option (Color × Option ℕ × Option ℕ × World α) := do
  let node ← w.leftmost fuel right
  let x ← w.heap.get node
  let w ← w.setIf x.right fun y => { y with parent := x.parent }
  let w ← w.replaceChild x.parent node x.right
  let up ← w.parentOf (some node)
  let parent := if up = some old then some node else x.parent
  let above ← w.parentOf (some old)
  let w ← w.replaceChild above old (some node)
  let left ← w.childOf .left (some old)
  let w ← w.set left fun y => { y with parent := some node }
  let right ← w.childOf .right (some old)
  let w ← w.setIf right fun y => { y with parent := some node }
  some (x.color, parent, x.right, w)

/-- `kylin_rb_unlink_raw`, which returns `old`. -/
def unlinkRaw (fuel : ℕ) (w : World α) (old : ℕ) : Option (World α) := do
  let o ← w.heap.get old
  let (color, parent, child, w) ←
    match o.left, o.right with
    | none, right => w.unlinkLeaf old right
    | some left, none => w.unlinkLeaf old (some left)
    | some _, some right => w.unlinkInner fuel old right
  if color = .black then w.removeColor fuel parent child else some w

/-- `kylin_rb_remove_raw`: the same, and the node is destroyed. -/
def removeRaw (fuel : ℕ) (w : World α) (old : ℕ) : Option (World α) := do
  let w ← w.unlinkRaw fuel old
  let o ← w.heap.get old
  let w := { w with destroyed := w.destroyed ++ kmathValDtor o.val w.guard.opts.valType }
  w.nodeFree old

/-- `kylin_rb_remove`. -/
def remove (fuel : ℕ) (w : World α) (cmp : KPtr α) : Option (World α) := do
  match ← w.findRaw fuel cmp with
  | none => some { w with kerrno := .noent }
  | some tmp => w.removeRaw fuel tmp

/-- `kylin_rb_unlink`. -/
def unlink (fuel : ℕ) (w : World α) (cmp : KPtr α) : Option (KPtr α × World α) := do
  match ← w.findRaw fuel cmp with
  | none => some (.null, { w with kerrno := .noent })
  | some tmp =>
      let w ← w.unlinkRaw fuel tmp
      let x ← w.heap.get tmp
      let result := kmathValGet x.val w.guard.opts.valType
      let w ← w.nodeFree tmp
      some (result, w)

/-! ## Statistics -/

/-- `kylin_rb_count`. -/
protected def count (w : World α) : ℕ := w.guard.count

/-- `kylin_rb_min`. -/
protected def min (w : World α) : Option ℕ := w.guard.min

/-- `kylin_rb_max`. -/
protected def max (w : World α) : Option ℕ := w.guard.max

/-- The addresses that the in-order walk below a pointer meets. -/
inductive Walk (h : Heap (KrbNode α)) : Option ℕ → List ℕ → Prop
  | nil : Walk h none []
  | node {a x l r} : h.get a = some x → Walk h x.left l → Walk h x.right r →
      Walk h (some a) (l ++ a :: r)

/-- **What the statistics should be**: those of the nodes reachable from the root, with the
left-most and the right-most of them. -/
def RightStats (w : World α) : Prop :=
  ∃ l, Walk w.heap w.guard.root l ∧ w.count = l.length ∧ w.min = l.head? ∧ w.max = l.getLast? ∧
    (w.min = none ↔ w.guard.root = none) ∧ (w.max = none ↔ w.guard.root = none)

/-- The calls on a tree. -/
inductive Call (α : Type)
  /-- With the answer of the node allocator. -/
  | insert (node : Option ℕ) (elm : KPtr α)
  | insertRaw (node : ℕ)
  | remove (cmp : KPtr α)
  | removeRaw (node : ℕ)
  | unlink (cmp : KPtr α)

/-- One call, with the pointer it returns. -/
def perform (fuel : ℕ) (w : World α) : Call α → Option (KPtr α × World α)
  | .insert node elm => w.insert fuel node elm
  | .insertRaw node => (w.insertRaw fuel node).map fun w => (.null, w)
  | .remove cmp => (w.remove fuel cmp).map fun w => (.null, w)
  | .removeRaw node => (w.removeRaw fuel node).map fun w => (.null, w)
  | .unlink cmp => w.unlink fuel cmp

/-- The allocator answers with memory that is not in use, a node is inserted when it is not
in the tree and removed when it is. -/
def Allowed (w : World α) : Call α → Prop
  | .insert node _ => ∀ a, node = some a → w.heap.get a = none
  | .insertRaw node => (w.heap.get node).isSome ∧ ∀ l, Walk w.heap w.guard.root l → node ∉ l
  | .removeRaw node => ∃ l, Walk w.heap w.guard.root l ∧ node ∈ l
  | .remove _ | .unlink _ => True

/-- The calls that have a node to insert. -/
def Call.Inserts : Call α → Prop
  | .insert node _ => node ≠ none
  | .insertRaw _ => True
  | .remove _ | .removeRaw _ | .unlink _ => False

/-! ## The fields that nothing writes -/

/-- The three fields. -/
def stats (w : World α) : ℕ × Option ℕ × Option ℕ := (w.guard.count, w.guard.min, w.guard.max)

section Frame
variable {w : World α} {P : ℕ → Prop} {I : World α → Prop} {s : ℕ × Option ℕ × Option ℕ}

/-- A pointer that is null or points to a node of a kind. -/
def Within (P : ℕ → Prop) (p : Option ℕ) : Prop := ∀ a, p = some a → P a

/-- A node whose links are such pointers. -/
def LinksWithin (P : ℕ → Prop) (x : KrbNode α) : Prop :=
  Within P x.parent ∧ ∀ side, Within P (x.child side)

/-- **A property of worlds that stores of links and colours do not touch**, as long as the
pointers stored are to nodes of the kind `P`.  Such pointers are all that is found in such
nodes. -/
structure Stable (P : ℕ → Prop) (I : World α → Prop) : Prop where
  load : ∀ {w : World α}, I w → ∀ {p : Option ℕ}, Within P p →
    Ensures (w.heap.load p) (LinksWithin P)
  set : ∀ {w : World α}, I w → ∀ (p : Option ℕ) (f : KrbNode α → KrbNode α),
    (∀ x, (f x).val = x.val) → (∀ x, LinksWithin P x → LinksWithin P (f x)) → Ensures (w.set p f) I
  root : ∀ {w : World α}, I w → ∀ {p : Option ℕ}, Within P p → I (w.setRoot p)

theorem within_none : Within P none := nofun

theorem within_some {a : ℕ} (h : P a) : Within P (some a) := fun _ hb => Option.some.inj hb ▸ h

namespace Stable

theorem child (hI : Stable P I) (hw : I w) {p : Option ℕ} (hp : Within P p) (side : Side) :
    Ensures (w.childOf side p) (Within P) :=
  .map ((hI.load hw hp).mono fun _ hx => hx.2 side)

theorem parent (hI : Stable P I) (hw : I w) {p : Option ℕ} (hp : Within P p) :
    Ensures (w.parentOf p) (Within P) :=
  .map ((hI.load hw hp).mono fun _ hx => hx.1)

theorem setColor (hI : Stable P I) (hw : I w) (p : Option ℕ) (c : Color) :
    Ensures (w.set p fun x => { x with color := c }) I := by
  refine hI.set hw p _ (fun _ => rfl) fun x hx => ⟨hx.1, fun side => ?_⟩
  cases side with
  | left => exact hx.2 .left
  | right => exact hx.2 .right

theorem setParent (hI : Stable P I) (hw : I w) (p : Option ℕ) {q : Option ℕ} (hq : Within P q) :
    Ensures (w.set p fun x => { x with parent := q }) I := by
  refine hI.set hw p _ (fun _ => rfl) fun x hx => ⟨hq, fun side => ?_⟩
  cases side with
  | left => exact hx.2 .left
  | right => exact hx.2 .right

theorem setChild (hI : Stable P I) (hw : I w) (p : Option ℕ) {q : Option ℕ} (hq : Within P q)
    (side : Side) : Ensures (w.set p fun x => x.setChild q side) I := by
  refine hI.set hw p _ (fun x => ?_) fun x hx => ?_
  · cases side <;> rfl
  · cases side with
    | left =>
        refine ⟨hx.1, fun side => ?_⟩
        cases side with
        | left => exact hq
        | right => exact hx.2 .right
    | right =>
        refine ⟨hx.1, fun side => ?_⟩
        cases side with
        | left => exact hx.2 .left
        | right => exact hq

end Stable

theorem keeps_setIf {p : Option ℕ} {f : KrbNode α → KrbNode α} (hw : I w)
    (hset : Ensures (w.set p f) I) : Ensures (w.setIf p f) I :=
  .ite (.some hw) hset

theorem keeps_replaceChild (hI : Stable P I) (hw : I w) (parent : Option ℕ) (node : ℕ)
    {child : Option ℕ} (hchild : Within P child) : Ensures (w.replaceChild parent node child) I :=
  .ite (.some (hI.root hw hchild)) (.bind .any fun _ _ =>
    .ite (hI.setChild hw _ hchild .left) (hI.setChild hw _ hchild .right))

theorem keeps_rotate (hI : Stable P I) (hw : I w) (side : Side) {node : ℕ} (hnode : P node) :
    Ensures (w.rotate side node) I := by
  have hnode' := within_some hnode
  unfold rotate
  dsimp only
  refine .bind (hI.child hw hnode' _) fun tmp htmp => .bind (hI.child hw htmp _) fun inner hinner =>
    .bind (hI.setChild hw _ hinner _) fun _ hw => ?_
  refine .ite (.bind (.some hw) ?link)
    (.bind .any fun _ _ => .bind (hI.setParent hw _ hnode') ?link)
  intro w hw
  refine .bind (hI.parent hw hnode') fun up hup => .bind (hI.setParent hw _ hup) fun _ hw => ?_
  refine .ite (.bind (.some (hI.root hw htmp)) ?swap) (.bind .any fun _ _ => .bind .any fun _ _ =>
    .ite (.bind (hI.setChild hw _ htmp .left) ?swap) (.bind (hI.setChild hw _ htmp .right) ?swap))
  intro w hw
  exact .bind (hI.setChild hw _ hnode' _) fun _ hw => hI.setParent hw _ htmp

theorem keeps_insertColorTurn (hI : Stable P I) (hw : I w) (side : Side) {node parent gparent : ℕ}
    (hnode : P node) (hparent : P parent) (hgparent : P gparent) :
    Ensures (w.insertColorTurn side node parent gparent) fun r => I r.2 ∧ P r.1 := by
  unfold insertColorTurn
  dsimp only
  refine .bind .any fun g _ => ?_
  -- whatever the uncle is found to be
  split <;> refine .bind .any fun uncle _ => ?_
  all_goals
    cases uncle with
    | some tmp =>
        exact .bind (hI.setColor hw _ _) fun _ hw => .bind (hI.setColor hw _ _) fun _ hw =>
          .bind (hI.setColor hw _ _) fun _ hw => .some ⟨hw, hgparent⟩
    | none =>
        have hrest : ∀ r : ℕ × ℕ × World α, I r.2.2 ∧ P r.1 → Ensures (do
            let w ← r.2.2.set (some r.2.1) fun p => { p with color := .black }
            let w ← w.set (some gparent) fun g => { g with color := .red }
            let w ← w.rotate side.other gparent
            some (r.1, w)) fun r => I r.2 ∧ P r.1 := fun r hr =>
          .bind (hI.setColor hr.1 _ _) fun _ hw => .bind (hI.setColor hw _ _) fun _ hw =>
            .bind (keeps_rotate hI hw _ hgparent) fun _ hw => .some ⟨hw, hr.2⟩
        refine .bind .any fun p _ => .ite ?_ (.bind (.some ⟨hw, hnode⟩) hrest)
        exact .bind (keeps_rotate hI hw _ hparent) fun _ hw => .bind (.some ⟨hw, hparent⟩) hrest

theorem keeps_insertColorLoop (hI : Stable P I) (fuel : ℕ) (hw : I w) {node : ℕ} (hnode : P node) :
    Ensures (insertColorLoop fuel w node) I := by
  induction fuel generalizing w node with
  | zero => exact .none
  | succ fuel ih =>
      unfold insertColorLoop
      dsimp only
      refine .bind (hI.load hw (within_some hnode)) fun x hx => ?_
      cases hparent : x.parent with
      | none => exact .some hw
      | some parent =>
          have hP := hx.1 parent hparent
          refine .bind (hI.load hw (within_some hP)) fun p hp =>
            .ite (.bind hp.1 fun gparent hP' => .bind .any fun g _ => ?_) (.some hw)
          have hturn := fun side => keeps_insertColorTurn hI hw side hnode hP hP'
          exact .ite (.bind (hturn .left) fun r hr => ih hr.1 hr.2)
            (.bind (hturn .right) fun r hr => ih hr.1 hr.2)

theorem keeps_insertColor (hI : Stable P I) (fuel : ℕ) (hw : I w) {node : ℕ} (hnode : P node) :
    Ensures (w.insertColor fuel node) I :=
  .bind (keeps_insertColorLoop hI fuel hw hnode) fun _ hw => hI.setColor hw _ _

theorem keeps_linkNode (hI : Stable P I) (fuel : ℕ) (hw : I w) {node : ℕ} (hnode : P node)
    (tmp : Option ℕ) {parent : Option ℕ} (hparent : Within P parent) (result : ℤ) :
    Ensures (w.linkNode fuel node tmp parent result) I := by
  have hcolor : ∀ w : World α, I w → Ensures (w.insertColor fuel node) I :=
    fun _ hw => keeps_insertColor hI fuel hw hnode
  have hclear : Ensures (w.set (some node) fun x =>
      { x with parent := parent, left := none, right := none, color := .red }) I := by
    refine hI.set hw _ _ (fun _ => rfl) fun x hx => ⟨hparent, fun side => ?_⟩
    cases side <;> exact within_none
  have hnode' := within_some hnode
  unfold linkNode
  dsimp only
  refine .bind hclear fun _ hw => .ite ?_ (.bind (.some (hI.root hw hnode')) hcolor)
  exact .ite (.bind (hI.setChild hw _ hnode' .left) hcolor)
    (.bind (hI.setChild hw _ hnode' .right) hcolor)

theorem keeps_removeColorRed (hI : Stable P I) (hw : I w) (side : Side) {parent : ℕ}
    (hparent : P parent) :
    Ensures (w.removeColorRed side parent) fun r => I r.2 ∧ Within P r.1 := by
  refine .bind (hI.child hw (within_some hparent) _) fun tmp htmp => .bind .any fun color _ =>
    .ite ?_ (.some ⟨hw, htmp⟩)
  exact .bind (hI.setColor hw _ _) fun _ hw => .bind (hI.setColor hw _ _) fun _ hw =>
    .bind (keeps_rotate hI hw _ hparent) fun _ hw =>
      .bind (hI.child hw (within_some hparent) _) fun _ htmp => .some ⟨hw, htmp⟩

theorem keeps_removeColorInner (hI : Stable P I) (hw : I w) (side : Side) (parent : ℕ)
    {tmp : Option ℕ} (htmp : Within P tmp) :
    Ensures (w.removeColorInner side parent tmp) fun r => I r.2 := by
  refine .bind .any fun outer _ => .ite ?_ (.some hw)
  exact .bind .any fun _ _ => .bind (keeps_setIf hw (hI.setColor hw _ _)) fun _ hw =>
    .bind (hI.setColor hw _ _) fun _ hw => .bind htmp fun _ htmp =>
      .bind (keeps_rotate hI hw _ htmp) fun _ hw => .bind .any fun _ _ => .some hw

theorem keeps_removeColorOuter (hI : Stable P I) (hw : I w) (side : Side) {parent : ℕ}
    (hparent : P parent) (tmp : Option ℕ) : Ensures (w.removeColorOuter side parent tmp) I :=
  .bind .any fun _ _ => .bind (hI.setColor hw _ _) fun _ hw =>
    .bind (hI.setColor hw _ _) fun _ hw => .bind .any fun _ _ =>
      .bind (keeps_setIf hw (hI.setColor hw _ _)) fun _ hw => keeps_rotate hI hw _ hparent

theorem keeps_removeColorTurn (hI : Stable P I) (hw : I w) (side : Side) {parent : ℕ}
    (hparent : P parent) :
    Ensures (w.removeColorTurn side parent) fun r => I r.2 ∧ ∀ next ∈ r.1, Within P next.2 := by
  refine .bind (keeps_removeColorRed hI hw side hparent) fun r hr => .bind .any fun left _ => ?_
  dsimp only
  refine .ite (.bind .any ?_) (.bind .any ?_)
  all_goals
    intro right _
    refine .ite ?_ ?_
    · refine .bind (hI.setColor hr.1 _ _) fun _ hw =>
        .bind (hI.parent hw (within_some hparent)) fun up hup => .some ⟨hw, fun next hnext => ?_⟩
      rwa [← Option.some.inj hnext]
    · exact .bind (keeps_removeColorInner hI hr.1 _ _ hr.2) fun r hw =>
        .bind (keeps_removeColorOuter hI hw _ hparent _) fun _ hw => .some ⟨hw, nofun⟩

theorem keeps_removeColorLoop (hI : Stable P I) (fuel : ℕ) (hw : I w) {parent : Option ℕ}
    (hparent : Within P parent) (node : Option ℕ) :
    Ensures (removeColorLoop fuel w parent node) fun r => I r.2 := by
  induction fuel generalizing w parent node with
  | zero => exact .none
  | succ fuel ih =>
      have hnext : ∀ r : Option (ℕ × Option ℕ) × World α,
          (I r.2 ∧ ∀ next ∈ r.1, Within P next.2) → Ensures (
            match r.1 with
            | some (node, parent) => removeColorLoop fuel r.2 parent (some node)
            | none => some (r.2.guard.root, r.2)) fun r => I r.2 := by
        intro r hr
        split
        · next heq => exact ih hr.1 (hr.2 _ heq) _
        · exact .some hr.1
      unfold removeColorLoop
      dsimp only
      refine .ite (.bind .any ?_) (.bind .any ?_)
      all_goals
        intro black _
        refine .ite (.bind hparent fun p hp => .bind .any fun left _ => ?_) (.some hw)
        exact .ite (.bind (keeps_removeColorTurn hI hw _ hp) hnext)
          (.bind (keeps_removeColorTurn hI hw _ hp) hnext)

theorem keeps_removeColor (hI : Stable P I) (fuel : ℕ) (hw : I w) {parent : Option ℕ}
    (hparent : Within P parent) (node : Option ℕ) : Ensures (w.removeColor fuel parent node) I :=
  .bind (keeps_removeColorLoop hI fuel hw hparent node) fun _ hr =>
    keeps_setIf hr (hI.setColor hr _ _)

theorem keeps_leftmost (hI : Stable P I) (hw : I w) (fuel : ℕ) {node : ℕ} (hnode : P node) :
    Ensures (w.leftmost fuel node) P := by
  induction fuel generalizing node with
  | zero => exact .none
  | succ fuel ih =>
      refine .bind (hI.child hw (within_some hnode) .left) fun left hleft => ?_
      cases left with
      | none => exact .some hnode
      | some left => exact ih (hleft left rfl)

theorem keeps_unlinkLeaf (hI : Stable P I) (hw : I w) {node : ℕ} (hnode : P node)
    {child : Option ℕ} (hchild : Within P child) :
    Ensures (w.unlinkLeaf node child) fun r => I r.2.2.2 ∧ Within P r.2.1 :=
  .bind (hI.load hw (within_some hnode)) fun _ hx =>
    .bind (keeps_setIf hw (hI.setParent hw _ hx.1)) fun _ hw =>
      .bind (keeps_replaceChild hI hw _ _ hchild) fun _ hw => .some ⟨hw, hx.1⟩

theorem keeps_unlinkInner (hI : Stable P I) (fuel : ℕ) (hw : I w) (old : ℕ) {right : ℕ}
    (hright : P right) :
    Ensures (w.unlinkInner fuel old right) fun r => I r.2.2.2 ∧ Within P r.2.1 := by
  refine .bind (keeps_leftmost hI hw fuel hright) fun node hnode =>
    .bind (hI.load hw (within_some hnode)) fun x hx =>
      .bind (keeps_setIf hw (hI.setParent hw _ hx.1)) fun _ hw =>
        .bind (keeps_replaceChild hI hw _ _ (hx.2 .right)) fun _ hw => .bind .any fun up _ =>
          .bind .any fun _ _ => .bind (keeps_replaceChild hI hw _ _ (within_some hnode)) fun _ hw =>
            .bind .any fun _ _ => .bind (hI.setParent hw _ (within_some hnode)) fun _ hw =>
              .bind .any fun _ _ =>
                .bind (keeps_setIf hw (hI.setParent hw _ (within_some hnode))) fun _ hw =>
                  .some ⟨hw, ?_⟩
  dsimp only
  split
  · exact within_some hnode
  · exact hx.1

theorem keeps_unlinkRaw (hI : Stable P I) (fuel : ℕ) (hw : I w) {old : ℕ} (hold : P old) :
    Ensures (w.unlinkRaw fuel old) I := by
  have hcolor : ∀ r : Color × Option ℕ × Option ℕ × World α, I r.2.2.2 ∧ Within P r.2.1 →
      Ensures (if r.1 = .black then r.2.2.2.removeColor fuel r.2.1 r.2.2.1 else some r.2.2.2) I :=
    fun r hr => .ite (keeps_removeColor hI fuel hr.1 hr.2 _) (.some hr.1)
  unfold unlinkRaw
  dsimp only
  refine .bind (hI.load hw (within_some hold)) fun o ho => ?_
  have hleft : Within P o.left := ho.2 .left
  have hright : Within P o.right := ho.2 .right
  cases hl : o.left <;> cases hr : o.right <;> rw [hl] at hleft <;> rw [hr] at hright
  · exact .bind (keeps_unlinkLeaf hI hw hold hright) hcolor
  · exact .bind (keeps_unlinkLeaf hI hw hold hright) hcolor
  · exact .bind (keeps_unlinkLeaf hI hw hold hleft) hcolor
  · exact .bind (keeps_unlinkInner hI fuel hw old (hright _ rfl)) hcolor

/-- A computation that keeps the three fields. -/
def Keeps (s : ℕ × Option ℕ × Option ℕ) (m : Option (World α)) : Prop :=
  Ensures m fun w => w.stats = s

/-- For nodes of any kind. -/
theorem linksWithin_any (x : KrbNode α) : LinksWithin (fun _ => True) x :=
  ⟨fun _ _ => trivial, fun _ _ _ => trivial⟩

/-- No store of links and colours writes the fields. -/
theorem stable_stats (s : ℕ × Option ℕ × Option ℕ) :
    Stable (fun _ => True) fun w : World α => w.stats = s where
  load _ _ _ := fun x _ => linksWithin_any x
  set hw p f _ _ := by
    apply Ensures.map
    exact fun _ _ => hw
  root hw _ _ := hw

theorem keeps_nodeFree (hw : w.stats = s) (node : ℕ) : Keeps s (w.nodeFree node) := by
  apply Ensures.map
  exact fun _ _ => hw

theorem keeps_insert (fuel : ℕ) (hw : w.stats = s) (node : Option ℕ) (elm : KPtr α) :
    Ensures (w.insert fuel node elm) fun r => r.2.stats = s := by
  unfold insert
  cases node with
  | none => exact .some hw
  | some node =>
      refine .bind .any fun v _ => .bind .any fun d _ => ?_
      cases d with
      | equal =>
          refine .bind (Q := fun w => w.stats = s) ?_ fun _ hw => .some hw
          exact keeps_nodeFree (by exact hw) node
      | leaf tmp parent result =>
          refine .bind (Q := fun w => w.stats = s) ?_ fun _ hw => .bind .any fun x _ => .some hw
          exact keeps_linkNode (stable_stats s) fuel (by exact hw) trivial tmp
            (fun _ _ => trivial) result

theorem keeps_insertRaw (fuel : ℕ) (hw : w.stats = s) (node : ℕ) :
    Keeps s (w.insertRaw fuel node) := by
  unfold insertRaw
  refine .bind .any fun x _ => .bind .any fun d _ => ?_
  cases d with
  | equal => exact .some hw
  | leaf tmp parent result =>
      exact keeps_linkNode (stable_stats s) fuel hw trivial tmp (fun _ _ => trivial) result

theorem keeps_removeRaw (fuel : ℕ) (hw : w.stats = s) (old : ℕ) :
    Keeps s (w.removeRaw fuel old) := by
  refine .bind (keeps_unlinkRaw (stable_stats s) fuel hw trivial) fun w hw =>
    .bind .any fun o _ => ?_
  exact keeps_nodeFree (by exact hw) old

/-- **No call writes the statistics.** -/
theorem perform_stats (fuel : ℕ) (c : Call α) :
    Ensures (w.perform fuel c) fun r => r.2.stats = w.stats := by
  cases c with
  | insert node elm => exact keeps_insert fuel rfl node elm
  | insertRaw node => exact .map (keeps_insertRaw fuel rfl node)
  | remove cmp =>
      refine .map (.bind .any fun p _ => ?_)
      cases p with
      | none => exact .some rfl
      | some tmp => exact keeps_removeRaw fuel rfl tmp
  | removeRaw node => exact .map (keeps_removeRaw fuel rfl node)
  | unlink cmp =>
      refine .bind .any fun p _ => ?_
      cases p with
      | none => exact .some rfl
      | some tmp =>
          exact .bind (keeps_unlinkRaw (stable_stats _) fuel rfl trivial) fun _ hw =>
            .bind .any fun _ _ => .bind (keeps_nodeFree hw tmp) fun _ hw => .some hw

end Frame

/-! ## Whole runs -/

section Runs
variable {w : World α} {fuel : ℕ}

/-- Fields that say the tree is empty are right when it is. -/
theorem rightStats_iff_root (h : w.stats = (0, none, none)) :
    RightStats w ↔ w.guard.root = none := by
  have hcount : w.count = 0 := congrArg Prod.fst h
  have hmin : w.min = none := congrArg (fun s => s.2.1) h
  have hmax : w.max = none := congrArg (fun s => s.2.2) h
  constructor
  · intro ⟨_, _, _, _, _, hroot, _⟩
    exact hroot.mp hmin
  · intro hroot
    exact ⟨[], hroot ▸ .nil, hcount, hmin, hmax, by simp [hmin, hroot], by simp [hmax, hroot]⟩

theorem descend_root_none (val : KmathVal α) (fuel : ℕ) :
    w.descend val fuel none none 0 = some (.leaf none none 0) := by
  cases fuel <;> rfl

theorem findRaw_root_none (hroot : w.guard.root = none) (cmp : KPtr α) :
    w.findRaw fuel cmp = some none := by
  rw [findRaw, hroot]
  cases fuel <;> rfl

/-- A node linked into an empty tree is its root. -/
theorem linkNode_root (hfuel : 0 < fuel) {node : ℕ} (hnode : (w.heap.get node).isSome) :
    Ensures (w.linkNode fuel node none none 0) fun w' => w'.guard.root ≠ none := by
  obtain ⟨x, hx⟩ := Option.isSome_iff_exists.mp hnode
  have hparent : ∀ a, (none : Option ℕ) = some a →
      a ≠ node ∧ ∃ y, w.heap.get a = some y ∧ y.color = .black := nofun
  obtain ⟨w', hw', -, hroot, -⟩ := linkNode_leaf hfuel hx hparent 0
  rw [hw']
  apply Ensures.some
  simp [hroot]

/-- An insertion into an empty tree. -/
theorem perform_inserts (hfuel : 0 < fuel) (hroot : w.guard.root = none) {c : Call α}
    (ha : Allowed w c) (hc : c.Inserts) :
    Ensures (w.perform fuel c) fun r => r.2.guard.root ≠ none := by
  cases c with
  | insert node elm =>
      obtain ⟨node, rfl⟩ := Option.ne_none_iff_exists'.mp hc
      refine .bind .any fun v _ => ?_
      dsimp only
      rw [hroot, descend_root_none, Option.bind_eq_bind, Option.bind_some]
      refine .bind (linkNode_root hfuel ?_) fun _ hw => .bind .any fun _ _ => .some hw
      simp
  | insertRaw node =>
      refine .map (.bind .any fun x _ => ?_)
      rw [hroot, descend_root_none]
      exact linkNode_root hfuel ha.1
  | remove _ | removeRaw _ | unlink _ => exact absurd hc id

/-- Any other call on an empty tree. -/
theorem perform_empty (hroot : w.guard.root = none) {c : Call α} (ha : Allowed w c)
    (hc : ¬ c.Inserts) : Ensures (w.perform fuel c) fun r => r.2.guard.root = none := by
  cases c with
  | insert node elm =>
      have hnode : node = none := Classical.not_not.mp hc
      rw [perform, hnode]
      exact .some hroot
  | insertRaw node => exact absurd trivial hc
  | remove cmp =>
      rw [perform, remove, findRaw_root_none hroot]
      exact .map (.some hroot)
  | removeRaw node =>
      obtain ⟨l, hwalk, hmem⟩ := ha
      rw [hroot] at hwalk
      cases hwalk
      cases hmem
  | unlink cmp =>
      rw [perform, unlink, findRaw_root_none hroot]
      exact .some hroot

/-- A call writes none of the statistics. -/
theorem perform_stats_zero (w : World α) (c : Call α) (r : KPtr α) (w' : World α)
    (hstats : w.stats = (0, none, none)) (hs : w.perform fuel c = some (r, w')) :
    w'.stats = (0, none, none) := by
  have hsame : w'.stats = w.stats := perform_stats fuel c _ hs
  rw [hsame, hstats]

/-- After a run they are what `create` has left. -/
theorem run_stats {opts : KrbOpts α} {heap : Heap (KrbNode α)}
    {tr : List (Step (World α) (Call α) (KPtr α))}
    (h : Run (perform fuel) Allowed (create opts heap) tr w) : w.stats = (0, none, none) :=
  h.invariant (I := fun w => w.stats = (0, none, none)) rfl
    fun w c r w' hstats _ hs => perform_stats_zero w c r w' hstats hs

/-- **When the statistics are right.**  After a run they are right exactly when the tree is
empty, and in all states of the run exactly when no call of it had a node to insert. -/
theorem run_rightStats_iff (hfuel : 0 < fuel) {opts : KrbOpts α} {heap : Heap (KrbNode α)}
    {tr : List (Step (World α) (Call α) (KPtr α))}
    (h : Run (perform fuel) Allowed (create opts heap) tr w) :
    ((∀ e ∈ tr, RightStats e.after) ↔ ∀ e ∈ tr, ¬ e.call.Inserts) ∧
      (RightStats w ↔ w.guard.root = none) := by
  constructor
  · apply h.forall_mem_iff (I := fun w => w.stats = (0, none, none) ∧ w.guard.root = none)
      ⟨rfl, rfl⟩
    intro w c r w' ⟨hstats, hroot⟩ ha hs
    have hstats' := perform_stats_zero w c r w' hstats hs
    rw [rightStats_iff_root hstats']
    refine ⟨⟨?_, ?_⟩, fun hroot' => ⟨hstats', hroot'⟩⟩
    · exact fun hroot' hc => perform_inserts hfuel hroot ha hc _ hs hroot'
    · exact fun hc => perform_empty hroot ha hc _ hs
  · exact rightStats_iff_root (run_stats h)

end Runs

/-- A tree for the runs below. -/
def emptyTree : World ℕ := create ⟨.others, false, fun a b => rank a - rank b⟩ ⟨fun _ => none⟩

/-- A run that inserts nothing, since there is no memory. -/
theorem run_rightStats_no_memory :
    ∃ tr w, Run (perform 1) Allowed emptyTree tr w ∧ tr.length = 3 ∧
      ∀ e ∈ tr, RightStats e.after := by
  have hrun : Run (perform 1) Allowed emptyTree _ _ :=
    run_of_runList [.insert none (.user (.obj 5)), .remove (.user (.obj 5)),
      .unlink (.user (.obj 5))] rfl (by
        simp only [List.forall_mem_cons]
        refine ⟨by simp [Allowed], trivial, trivial, by simp⟩)
  refine ⟨_, _, hrun, rfl, (run_rightStats_iff (by decide) hrun).1.mpr ?_⟩
  simp only [List.forall_mem_cons]
  exact ⟨fun h => h rfl, id, id, by simp⟩

/-- One insertion: the tree has a node, and the count is zero. -/
theorem not_rightStats_insert :
    ∃ tr w, Run (perform 1) Allowed emptyTree tr w ∧ w.guard.root = some 1 ∧ w.count = 0 ∧
      ¬ RightStats w := by
  refine ⟨_, _, run_of_runList [.insert (some 1) (.user (.obj 5))] rfl (by
    simp only [List.forall_mem_cons]
    exact ⟨fun _ _ => rfl, by simp⟩), rfl, rfl, ?_⟩
  intro ⟨_, _, _, _, _, hroot, _⟩
  cases hroot.mp rfl

end Krb.World

end Kylin
