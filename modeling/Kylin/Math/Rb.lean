import Kylin.Lib.Run
import Kylin.Lib.Heap
import Kylin.Lib.RedBlack
import Kylin.Math.Val

/-!
# The red-black tree

`krb_t` (`lib/core/math/kylin_rb.c`) is an intrusive red-black tree on a heap of
nodes.  The functions here are its creation, insertion and search, as sequences of
loads and stores; the mirror-image halves of the source are one definition with a
`Side`.

After the descent of `kylin_rb_insert` the search pointer is always null, so the
branch that links the new node below its parent is never taken: every successful
insertion makes the new node the whole tree.  `run_isOrderedSet_iff` says when a
run of insertions still looks like an ordered set: exactly when all its keys are
equal.

## Main definitions

* `KrbNode`, `Krb`, `Krb.World` — nodes, the guard and the memory around it.
* `rotate`, `insertColor`, `insert`, `insertRaw`, `find` — the operations.
* `InOrder` — the in-order walk of the tree below a pointer.
* `IsOrderedSet` — what a run of insertions into an ordered set looks like.
-/

namespace Kylin

open Lib

/-- `krb_node_t`.  The colours are `RB_RED` and `RB_BLACK`. -/
structure KrbNode (α : Type) where
  parent : Option ℕ
  left : Option ℕ
  right : Option ℕ
  color : Color
  val : KmathVal α

namespace KrbNode
variable {α : Type}

/-- The child on a side. -/
def child (x : KrbNode α) : Side → Option ℕ
  | .left => x.left
  | .right => x.right

/-- The key of a node of a pointer type. -/
def key (x : KrbNode α) : Option (Cell α) := x.val.ptr.deref

/-- The node with another child on a side. -/
def setChild (x : KrbNode α) (p : Option ℕ) : Side → KrbNode α
  | .left => { x with left := p }
  | .right => { x with right := p }

end KrbNode

/-- `krb_opts_t`.  `valCtor` says whether there is a value constructor. -/
structure KrbOpts (α : Type) where
  valType : Kobj
  valCtor : Bool
  compare : Cell α → Cell α → ℤ

/-- `krb_t`. -/
structure Krb (α : Type) where
  opts : KrbOpts α
  count : ℕ
  min : Option ℕ
  max : Option ℕ
  root : Option ℕ

namespace Krb

/-- A tree, the heap its nodes live on, the values given to the value destructor so
far, and the error variable. -/
structure World (α : Type) where
  guard : Krb α
  heap : Heap (KrbNode α)
  destroyed : List (KPtr α)
  kerrno : Kerr

namespace World
variable {α : Type}

/-- `kylin_rb_create`, on the zero-filled memory of `kylin_malloc`, beside a heap of
other nodes. -/
def create (opts : KrbOpts α) (heap : Heap (KrbNode α)) : World α where
  guard := ⟨opts, 0, none, none, none⟩
  heap := heap
  destroyed := []
  kerrno := .ok

/-- A store to the node a pointer points to. -/
def set (w : World α) (p : Option ℕ) (f : KrbNode α → KrbNode α) : Option (World α) :=
  (w.heap.modify p f).map fun h => { w with heap := h }

/-- `RB_PARENT` of the node a pointer points to. -/
def parentOf (w : World α) (p : Option ℕ) : Option (Option ℕ) := (w.heap.load p).map KrbNode.parent

/-- `RB_LEFT` or `RB_RIGHT` of the node a pointer points to. -/
def childOf (w : World α) (side : Side) (p : Option ℕ) : Option (Option ℕ) :=
  (w.heap.load p).map fun x => x.child side

/-- `RB_ROOT(guard) = p`. -/
def setRoot (w : World α) (p : Option ℕ) : World α := { w with guard := { w.guard with root := p } }

/-! ## Rebalancing -/

/-- `_rotate_left` and, for the other side, `_rotate_right`: the child of `node` on
the opposite side takes its place. -/
def rotate (side : Side) (w : World α) (node : ℕ) : Option (World α) := do
  let tmp ← w.childOf side.other (some node)
  let inner ← w.childOf side tmp
  let w ← w.set (some node) fun x => x.setChild inner side.other
  let w ←
    if inner = none then some w
    else do
      let inner ← w.childOf side tmp
      w.set inner fun x => { x with parent := some node }
  let up ← w.parentOf (some node)
  let w ← w.set tmp fun x => { x with parent := up }
  let w ←
    if up = none then some (w.setRoot tmp)
    else do
      let up ← w.parentOf (some node)
      let left ← w.childOf .left up
      if left = some node then w.set up fun x => { x with left := tmp }
      else w.set up fun x => { x with right := tmp }
  let w ← w.set tmp fun x => x.setChild (some node) side
  w.set (some node) fun x => { x with parent := tmp }

/-- One turn of the loop of `_insert_color` below a red parent that is the child of
`gparent` on `side`: the node to go on with, if the loop goes on with another. -/
def insertColorTurn (side : Side) (w : World α) (node parent gparent : ℕ) :
    Option (ℕ × World α) := do
  let g ← w.heap.get gparent
  let uncle ←
    match g.child side.other with
    | none => some none
    | some tmp => (w.heap.get tmp).map fun t => if t.color = .red then some tmp else none
  match uncle with
  | some tmp =>
      let w ← w.set (some tmp) fun t => { t with color := .black }
      let w ← w.set (some parent) fun p => { p with color := .black }
      let w ← w.set (some gparent) fun g => { g with color := .red }
      some (gparent, w)
  | none =>
      let p ← w.heap.get parent
      let (node, parent, w) ←
        if p.child side.other = some node then do
          let w ← w.rotate side parent
          some (parent, node, w)
        else some (node, parent, w)
      let w ← w.set (some parent) fun p => { p with color := .black }
      let w ← w.set (some gparent) fun g => { g with color := .red }
      let w ← w.rotate side.other gparent
      some (node, w)

/-- The loop of `_insert_color`; `none` when `fuel` turns were not enough. -/
def insertColorLoop : ℕ → World α → ℕ → Option (World α)
  | 0, _, _ => none
  | fuel + 1, w, node => do
      let x ← w.heap.get node
      match x.parent with
      | none => some w
      | some parent =>
          let p ← w.heap.get parent
          if p.color = .red then
            let gparent ← p.parent
            let g ← w.heap.get gparent
            let (node, w) ←
              if g.left = some parent then w.insertColorTurn .left node parent gparent
              else w.insertColorTurn .right node parent gparent
            insertColorLoop fuel w node
          else some w

/-- `_insert_color`. -/
def insertColor (fuel : ℕ) (w : World α) (node : ℕ) : Option (World α) := do
  let w ← insertColorLoop fuel w node
  w.set w.guard.root fun x => { x with color := .black }

/-! ## Insertion and search -/

/-- How the descent of an insertion ends: at a node with an equal value, or past a
leaf, with the final values of `tmp`, `parent` and `result`. -/
inductive Descent
  | equal
  | leaf (tmp parent : Option ℕ) (result : ℤ)

/-- The descent of `kylin_rb_insert` and `kylin_rb_insert_raw`. -/
def descend (w : World α) (val : KmathVal α) : ℕ → Option ℕ → Option ℕ → ℤ → Option Descent
  | _, none, parent, result => some (.leaf none parent result)
  | 0, some _, _, _ => none
  | fuel + 1, some tmp, _, _ => do
      let x ← w.heap.get tmp
      let result ← kmathValCmp val x.val w.guard.opts.valType w.guard.opts.compare
      if result < 0 then descend w val fuel x.left (some tmp) result
      else if 0 < result then descend w val fuel x.right (some tmp) result
      else some .equal

/-- The end of both insertions: link `node` in and rebalance. -/
def linkNode (fuel : ℕ) (w : World α) (node : ℕ) (tmp parent : Option ℕ) (result : ℤ) :
    Option (World α) := do
  let w ← w.set (some node) fun x =>
    { x with parent := parent, left := none, right := none, color := .red }
  let w ←
    if tmp ≠ none then
      if result < 0 then w.set parent fun p => { p with left := some node }
      else w.set parent fun p => { p with right := some node }
    else some (w.setRoot (some node))
  w.insertColor fuel node

/-- `RB_NODE_FREE`. -/
def nodeFree (w : World α) (node : ℕ) : Option (World α) :=
  (w.heap.free node).map fun h => { w with heap := h }

/-- `kylin_rb_insert`; `node` is the answer of the node allocator. -/
def insert (fuel : ℕ) (w : World α) (node : Option ℕ) (elm : KPtr α) :
    Option (KPtr α × World α) :=
  match node with
  | none => some (.null, { w with kerrno := .nomem })
  | some node => do
      let v ← kmathValCtor elm w.guard.opts.valType w.guard.opts.valCtor
      let w := { w with heap := w.heap.alloc node ⟨none, none, none, .black, v⟩ }
      match ← w.descend v fuel w.guard.root none 0 with
      | .equal =>
          let w := { w with destroyed := w.destroyed ++ kmathValDtor v w.guard.opts.valType }
          let w ← w.nodeFree node
          some (.null, w)
      | .leaf tmp parent result =>
          let w ← w.linkNode fuel node tmp parent result
          let x ← w.heap.get node
          some (kmathValGet x.val w.guard.opts.valType, w)

/-- `kylin_rb_insert_raw`. -/
def insertRaw (fuel : ℕ) (w : World α) (node : ℕ) : Option (World α) := do
  let x ← w.heap.get node
  match ← w.descend x.val fuel w.guard.root none 0 with
  | .equal => some { w with kerrno := .exist }
  | .leaf tmp parent result => w.linkNode fuel node tmp parent result

/-- The loop of `kylin_rb_find` and `kylin_rb_find_raw`. -/
def findLoop (w : World α) (cmp : KPtr α) : ℕ → Option ℕ → Option (Option ℕ)
  | _, none => some none
  | 0, some _ => none
  | fuel + 1, some tmp => do
      let x ← w.heap.get tmp
      let result ← kmathValCmpRaw x.val cmp w.guard.opts.valType w.guard.opts.compare
      if result < 0 then findLoop w cmp fuel x.right
      else if 0 < result then findLoop w cmp fuel x.left
      else some (some tmp)

/-- `kylin_rb_find_raw`. -/
def findRaw (fuel : ℕ) (w : World α) (cmp : KPtr α) : Option (Option ℕ) :=
  w.findLoop cmp fuel w.guard.root

/-- `kylin_rb_find`. -/
def find (fuel : ℕ) (w : World α) (cmp : KPtr α) : Option (KPtr α) := do
  match ← w.findLoop cmp fuel w.guard.root with
  | none => some .null
  | some tmp =>
      let x ← w.heap.get tmp
      some (kmathValGet x.val w.guard.opts.valType)

/-! ## Ordered sets -/

/-- The in-order walk of the tree below a pointer. -/
inductive InOrder (h : Heap (KrbNode α)) : Option ℕ → List (KrbNode α) → Prop
  | nil : InOrder h none []
  | node {a x l r} : h.get a = some x → InOrder h x.left l → InOrder h x.right r →
      InOrder h (some a) (l ++ x :: r)

/-- A walk is determined by where it starts. -/
theorem InOrder.unique {h : Heap (KrbNode α)} {p : Option ℕ} {l l' : List (KrbNode α)}
    (hl : InOrder h p l) (hl' : InOrder h p l') : l = l' := by
  induction hl generalizing l' with
  | nil =>
      cases hl'
      rfl
  | node hx _ _ ihl ihr =>
      cases hl' with
      | node hx' hleft hright =>
          obtain rfl := Option.some.inj (hx.symm.trans hx')
          rw [ihl hleft, ihr hright]

/-- A comparison callback that orders all keys strictly and totally. -/
structure ComparesTotally (cmp : Cell α → Cell α → ℤ) : Prop where
  eq_iff : ∀ a b, cmp a b = 0 ↔ a = b
  swap : ∀ a b, cmp a b < 0 ↔ 0 < cmp b a
  trans : ∀ a b c, cmp a b < 0 → cmp b c < 0 → cmp a c < 0

/-- One insertion: the address the allocator answers with, and the key. -/
def step (fuel : ℕ) (w : World α) (c : ℕ × Cell α) : Option (KPtr α × World α) :=
  w.insert fuel (some c.1) (.user c.2)

/-- The allocator answers with memory that is not in use. -/
def Fresh (w : World α) (c : ℕ × Cell α) : Prop := w.heap.get c.1 = none

/-- The keys inserted by a run, with repetitions. -/
def keys (tr : List (Step (World α) (ℕ × Cell α) (KPtr α))) : List (Cell α) :=
  tr.map fun e => e.call.2

/-- **What an ordered set looks like after a run of insertions**: its walk is strictly
ascending and meets exactly the inserted keys, an insertion failed exactly when its
key was there, changing nothing, and a search finds exactly the inserted keys. -/
structure IsOrderedSet (fuel : ℕ) (tr : List (Step (World α) (ℕ × Cell α) (KPtr α)))
    (w : World α) : Prop where
  walk : ∃ l, ∃ ks : List (Cell α), InOrder w.heap w.guard.root l ∧
    l.map KrbNode.key = ks.map some ∧
    ks.Pairwise (fun a b => w.guard.opts.compare a b < 0) ∧ ∀ k, k ∈ ks ↔ k ∈ keys tr
  results : ∀ pre e post, tr = pre ++ e :: post → (e.result = .null ↔ e.call.2 ∈ keys pre)
  unchanged : ∀ e ∈ tr, e.result = .null →
    e.after.guard = e.before.guard ∧ e.after.heap = e.before.heap
  find : ∀ k, ∃ p, w.find fuel (.user k) = some p ∧ (p ≠ .null ↔ k ∈ keys tr)
  returns : ∀ c, w.Fresh c → (w.step fuel c).isSome

/-- The trees that insertions build: no node, or a black root without children that
holds the key. -/
def RootKey (w : World α) : Option (Cell α) → Prop
  | none => w.guard.root = none
  | some k => ∃ a x, w.guard.root = some a ∧ w.heap.get a = some x ∧ x.left = none ∧
      x.right = none ∧ x.color = .black ∧ x.key = some k

section Spec
variable {w : World α} {fuel : ℕ}

theorem set_of_isSome {a : ℕ} (ha : (w.heap.get a).isSome) (f : KrbNode α → KrbNode α) :
    w.set (some a) f = some { w with heap := w.heap.map a f } := by
  rw [set, Heap.modify_of_isSome _ _ ha, Option.map_some]

/-- Linking a node in below a black parent, or below none: since `tmp` is null it
becomes the root, and nothing is rebalanced. -/
theorem linkNode_leaf (hfuel : 0 < fuel) {node : ℕ} {x : KrbNode α}
    (hx : w.heap.get node = some x) {parent : Option ℕ}
    (hparent : ∀ a, parent = some a → a ≠ node ∧ ∃ y, w.heap.get a = some y ∧ y.color = .black)
    (result : ℤ) :
    ∃ w', w.linkNode fuel node none parent result = some w' ∧ w'.guard.opts = w.guard.opts ∧
      w'.guard.root = some node ∧
      w'.heap.get node = some ⟨parent, none, none, .black, x.val⟩ := by
  obtain ⟨fuel, rfl⟩ : ∃ k, fuel = k + 1 := ⟨fuel - 1, by omega⟩
  let red : KrbNode α → KrbNode α := fun x =>
    { x with parent := parent, left := none, right := none, color := .red }
  let w₁ : World α := { w.setRoot (some node) with heap := w.heap.map node red }
  have hnode : w₁.heap.get node = some ⟨parent, none, none, .red, x.val⟩ := by
    simp [w₁, red, hx]
  have hloop : insertColorLoop (fuel + 1) w₁ node = some w₁ := by
    cases parent with
    | none => simp [insertColorLoop, hnode]
    | some a =>
        obtain ⟨hne, y, hy, hblack⟩ := hparent a rfl
        have ha : w₁.heap.get a = some y := (Heap.get_map_of_ne _ _ _ hne).trans hy
        simp [insertColorLoop, hnode, ha, hblack]
  have hlink : w.linkNode (fuel + 1) node none parent result = w₁.insertColor (fuel + 1) node := by
    rw [linkNode, set_of_isSome (by rw [hx]; rfl)]
    rfl
  have hblacken : w₁.insertColor (fuel + 1) node =
      some { w₁ with heap := w₁.heap.map node fun x => { x with color := .black } } := by
    rw [insertColor, hloop]
    exact set_of_isSome (by rw [hnode]; rfl) _
  refine ⟨_, hlink.trans hblacken, rfl, rfl, ?_⟩
  simp [hnode]

/-- The memory of a node that was allocated and freed again is as it was. -/
theorem free_alloc (h : Heap (KrbNode α)) {node : ℕ} (hfresh : h.get node = none)
    (x : KrbNode α) : (h.alloc node x).free node = some h := by
  rw [Heap.free_of_isSome _ (by simp), Heap.alloc, Function.update_idem, ← hfresh,
    Function.update_eq_self]

/-- The descent in a tree of at most one node. -/
theorem descend_spec (hptr : w.guard.opts.valType.IsPointer)
    (hcmp : ComparesTotally w.guard.opts.compare) (hfuel : 0 < fuel) {ko : Option (Cell α)}
    (H : w.RootKey ko) {p : KPtr α} {k : Cell α} (hp : p.deref = some k) :
    (ko = some k → w.descend (.v p) fuel w.guard.root none 0 = some .equal) ∧
      (ko ≠ some k → ∃ result,
        w.descend (.v p) fuel w.guard.root none 0 = some (.leaf none w.guard.root result)) := by
  obtain ⟨fuel, rfl⟩ : ∃ k, fuel = k + 1 := ⟨fuel - 1, by omega⟩
  cases ko with
  | none =>
      have hroot : w.guard.root = none := H
      rw [hroot]
      exact ⟨by simp, fun _ => ⟨0, rfl⟩⟩
  | some k' =>
      obtain ⟨a, x, hroot, hx, hleft, hright, hblack, hkey⟩ := H
      have hres : kmathValCmp (.v p) x.val w.guard.opts.valType w.guard.opts.compare =
          some (w.guard.opts.compare k k') :=
        kmathValCmp_of_isPointer hptr (show (KmathVal.v p).ptr.deref = some k from hp) hkey _
      rw [hroot]
      constructor
      · intro hk
        obtain rfl := Option.some.inj hk
        have hzero : w.guard.opts.compare k' k' = 0 := (hcmp.eq_iff k' k').mpr rfl
        simp [descend, hx, hres, hzero]
      · intro hk
        have hne : w.guard.opts.compare k k' ≠ 0 := fun h => hk (by rw [(hcmp.eq_iff k k').mp h])
        refine ⟨w.guard.opts.compare k k', ?_⟩
        by_cases hlt : w.guard.opts.compare k k' < 0
        · simp [descend, hx, hres, hlt, hleft]
        · have hgt : 0 < w.guard.opts.compare k k' := by omega
          simp [descend, hx, hres, hgt, hlt, hright]

/-- **One insertion** into such a tree: an equal key is refused and changes nothing,
any other key becomes the whole tree. -/
theorem step_spec (hptr : w.guard.opts.valType.IsPointer)
    (hcmp : ComparesTotally w.guard.opts.compare) (hfuel : 0 < fuel) {ko : Option (Cell α)}
    (H : w.RootKey ko) {c : ℕ × Cell α} (hc : w.Fresh c) :
    ∃ p w', w.step fuel c = some (p, w') ∧ w'.guard.opts = w.guard.opts ∧
      w'.RootKey (some c.2) ∧ (p = .null ↔ ko = some c.2) ∧
      (p = .null → w'.guard = w.guard ∧ w'.heap = w.heap) := by
  obtain ⟨node, k⟩ := c
  obtain ⟨p, hv, hp⟩ := kmathValCtor_of_isPointer hptr k w.guard.opts.valCtor
  -- the tree is the same beside the new node
  let w₁ : World α := { w with heap := w.heap.alloc node ⟨none, none, none, .black, .v p⟩ }
  have hother : ∀ a x, w.heap.get a = some x → a ≠ node ∧ w₁.heap.get a = some x := by
    intro a x hx
    have hne : a ≠ node := by
      rintro rfl
      rw [show w.heap.get a = none from hc] at hx
      cases hx
    exact ⟨hne, (Heap.get_alloc_of_ne _ _ _ hne).trans hx⟩
  have H₁ : w₁.RootKey ko := by
    cases ko with
    | none => exact H
    | some k' =>
        obtain ⟨a, x, hroot, hx, hrest⟩ := H
        exact ⟨a, x, hroot, (hother a x hx).2, hrest⟩
  have hdesc := descend_spec (w := w₁) hptr hcmp hfuel H₁ hp
  by_cases hk : ko = some k
  · refine ⟨.null, { w with destroyed := w.destroyed ++ kmathValDtor (.v p) w.guard.opts.valType },
      ?_, rfl, ?_, by simp [hk], fun _ => ⟨rfl, rfl⟩⟩
    · have hfree : w₁.heap.free node = some w.heap := free_alloc w.heap hc _
      have heq := hdesc.1 hk
      simp only [step, insert, hv, Option.bind_eq_bind, Option.bind_some]
      change (w₁.descend (.v p) fuel w₁.guard.root none 0).bind _ = _
      rw [heq, Option.bind_some]
      simp only [nodeFree]
      change (((w₁.heap.free node).map _).bind _) = _
      rw [hfree]
      rfl
    · rw [hk] at H
      exact H
  · obtain ⟨result, hleaf⟩ := hdesc.2 hk
    have hnode : w₁.heap.get node = some ⟨none, none, none, .black, .v p⟩ := by simp [w₁]
    have hparent : ∀ a, w₁.guard.root = some a →
        a ≠ node ∧ ∃ y, w₁.heap.get a = some y ∧ y.color = .black := by
      intro a ha
      cases ko with
      | none => exact absurd ha (by rw [show w₁.guard.root = none from H]; simp)
      | some k' =>
          obtain ⟨b, x, hroot, hx, -, -, hblack, -⟩ := H
          obtain rfl : b = a := Option.some.inj (hroot.symm.trans ha)
          exact ⟨(hother b x hx).1, x, (hother b x hx).2, hblack⟩
    obtain ⟨w', hrun, hopts, hroot, hget⟩ := linkNode_leaf hfuel hnode hparent result
    have hval : kmathValGet (.v p) w'.guard.opts.valType = p := by
      rw [hopts]
      exact kmathValGet_of_isPointer hptr _
    have hnull : p ≠ .null := by
      rintro rfl
      cases hp
    refine ⟨p, w', ?_, hopts, ⟨node, _, hroot, hget, rfl, rfl, rfl, hp⟩, by simp [hnull, hk],
      fun h => absurd h hnull⟩
    simp only [step, insert, hv, Option.bind_eq_bind, Option.bind_some]
    change (w₁.descend (.v p) fuel w₁.guard.root none 0).bind _ = _
    rw [hleaf, Option.bind_some]
    change (w₁.linkNode fuel node none w₁.guard.root result).bind _ = _
    rw [hrun, Option.bind_some, hget, Option.bind_some, hval]

/-- A search in such a tree. -/
theorem find_spec (hptr : w.guard.opts.valType.IsPointer)
    (hcmp : ComparesTotally w.guard.opts.compare) (hfuel : 0 < fuel) {ko : Option (Cell α)}
    (H : w.RootKey ko) (k : Cell α) :
    ∃ p, w.find fuel (.user k) = some p ∧ (p ≠ .null ↔ ko = some k) := by
  obtain ⟨fuel, rfl⟩ : ∃ k, fuel = k + 1 := ⟨fuel - 1, by omega⟩
  cases ko with
  | none =>
      have hroot : w.guard.root = none := H
      exact ⟨.null, by simp [find, hroot, findLoop], by simp⟩
  | some k' =>
      obtain ⟨a, x, hroot, hx, hleft, hright, hblack, hkey⟩ := H
      have hres : kmathValCmpRaw x.val (.user k) w.guard.opts.valType w.guard.opts.compare =
          some (w.guard.opts.compare k' k) := kmathValCmpRaw_of_isPointer hptr hkey rfl _
      by_cases hk : k' = k
      · have hzero : w.guard.opts.compare k' k = 0 := (hcmp.eq_iff k' k).mpr hk
        refine ⟨x.val.ptr, ?_, ?_⟩
        · simp [find, hroot, findLoop, hx, hres, hzero, kmathValGet_of_isPointer hptr]
        · have hnull : x.val.ptr ≠ .null := by
            intro h
            rw [KrbNode.key, h] at hkey
            cases hkey
          simp [hnull, hk]
      · have hne : w.guard.opts.compare k' k ≠ 0 := mt (hcmp.eq_iff k' k).mp hk
        refine ⟨.null, ?_, by simp [hk]⟩
        by_cases hlt : w.guard.opts.compare k' k < 0
        · simp [find, hroot, findLoop, hx, hres, hlt, hright]
        · have hgt : 0 < w.guard.opts.compare k' k := by omega
          simp [find, hroot, findLoop, hx, hres, hlt, hgt, hleft]

/-- The walk of such a tree meets its one key. -/
theorem walk_spec {ko : Option (Cell α)} (H : w.RootKey ko) :
    ∃ l, InOrder w.heap w.guard.root l ∧ l.map KrbNode.key = ko.toList.map some := by
  cases ko with
  | none =>
      have hroot : w.guard.root = none := H
      exact ⟨[], hroot ▸ .nil, rfl⟩
  | some k =>
      obtain ⟨a, x, hroot, hx, hleft, hright, -, hkey⟩ := H
      refine ⟨[] ++ x :: [], ?_, by simp [hkey]⟩
      rw [hroot]
      exact .node hx (hleft ▸ .nil) (hright ▸ .nil)

end Spec

section Run
variable {opts : KrbOpts α} {heap : Heap (KrbNode α)} {fuel : ℕ} {w : World α}
  {tr : List (Step (World α) (ℕ × Cell α) (KPtr α))}

/-- After a run the tree holds the key inserted last, and no other. -/
theorem run_rootKey (hptr : opts.valType.IsPointer) (hcmp : ComparesTotally opts.compare)
    (hfuel : 0 < fuel) (h : Run (step fuel) Fresh (create opts heap) tr w) :
    w.guard.opts = opts ∧ w.RootKey (keys tr).getLast? := by
  refine h.induct (P := fun tr w => w.guard.opts = opts ∧ w.RootKey (keys tr).getLast?)
    ⟨rfl, rfl⟩ ?_
  rintro tr w c r w' - ⟨hopts, H⟩ hc hs
  obtain ⟨p, w'', hs', hopts', H', -⟩ := step_spec (hopts ▸ hptr) (hopts ▸ hcmp) hfuel H hc
  rw [hs'] at hs
  obtain ⟨rfl, rfl⟩ := Prod.mk.inj (Option.some.inj hs)
  refine ⟨hopts'.trans hopts, ?_⟩
  rw [keys, List.map_append, List.map_singleton, List.getLast?_concat]
  exact H'

/-- The results of the insertions of a run. -/
theorem run_results (hptr : opts.valType.IsPointer) (hcmp : ComparesTotally opts.compare)
    (hfuel : 0 < fuel) (h : Run (step fuel) Fresh (create opts heap) tr w)
    {pre post : List (Step (World α) (ℕ × Cell α) (KPtr α))}
    {e : Step (World α) (ℕ × Cell α) (KPtr α)} (htr : tr = pre ++ e :: post) :
    (e.result = .null ↔ (keys pre).getLast? = some e.call.2) ∧
      (e.result = .null → e.after.guard = e.before.guard ∧ e.after.heap = e.before.heap) := by
  obtain ⟨hpre, hc, hs⟩ := h.split htr
  obtain ⟨hopts, H⟩ := run_rootKey hptr hcmp hfuel hpre
  obtain ⟨p, w', hs', -, -, hnull, hsame⟩ := step_spec (hopts ▸ hptr) (hopts ▸ hcmp) hfuel H hc
  rw [hs'] at hs
  obtain ⟨hp, hw⟩ := Prod.mk.inj (Option.some.inj hs)
  rw [← hp, ← hw]
  exact ⟨hnull, hsame⟩

/-- **When a tree is an ordered set.**  A run of insertions behaves as on an ordered
set exactly when all the keys it inserts are equal. -/
theorem run_isOrderedSet_iff (hptr : opts.valType.IsPointer)
    (hcmp : ComparesTotally opts.compare) (hfuel : 0 < fuel)
    (h : Run (step fuel) Fresh (create opts heap) tr w) :
    IsOrderedSet fuel tr w ↔ ∀ k ∈ keys tr, ∀ k' ∈ keys tr, k = k' := by
  obtain ⟨hopts, H⟩ := run_rootKey hptr hcmp hfuel h
  obtain ⟨l, hwalk, hl⟩ := walk_spec H
  constructor
  · -- the walk meets one key only, the last
    rintro hset k hk k' hk'
    obtain ⟨l', ks, hwalk', hks, -, hmem⟩ := hset.walk
    rw [hwalk'.unique hwalk, hl] at hks
    have hlast : ks = (keys tr).getLast?.toList :=
      (List.map_injective_iff.mpr (fun _ _ h => Option.some.inj h) hks).symm
    have hsame : ∀ c ∈ keys tr, (keys tr).getLast? = some c := by
      intro c hc
      have := (hmem c).mpr hc
      rw [hlast, Option.mem_toList] at this
      exact this
    exact Option.some.inj ((hsame k hk).symm.trans (hsame k' hk'))
  · intro hall
    have hlast : ∀ ks : List (Cell α), (∀ c ∈ ks, c ∈ keys tr) → ∀ k ∈ keys tr,
        (ks.getLast? = some k ↔ k ∈ ks) := by
      intro ks hks k hk
      refine ⟨List.mem_of_getLast?, fun hmem => ?_⟩
      obtain ⟨c, hc⟩ := Option.isSome_iff_exists.mp
        (List.getLast?_isSome.mpr (List.ne_nil_of_mem hmem))
      rw [hc, hall c (hks c (List.mem_of_getLast? hc)) k hk]
    refine ⟨⟨l, (keys tr).getLast?.toList, hwalk, hl, ?_, ?_⟩, ?_, ?_, ?_, ?_⟩
    · cases (keys tr).getLast? <;> simp
    · intro k
      rw [Option.mem_toList]
      constructor
      · exact List.mem_of_getLast?
      · exact fun hk => (hlast _ (fun _ h => h) k hk).mpr hk
    · intro pre e post htr
      have hsub : ∀ c ∈ keys pre, c ∈ keys tr := by
        intro c hc
        rw [htr, keys, List.map_append]
        exact List.mem_append_left _ hc
      have he : e.call.2 ∈ keys tr := by
        rw [htr]
        simp [keys]
      exact (run_results hptr hcmp hfuel h htr).1.trans (hlast _ hsub _ he)
    · intro e he
      obtain ⟨pre, post, htr⟩ := List.append_of_mem he
      exact (run_results hptr hcmp hfuel h htr).2
    · intro k
      obtain ⟨p, hp, hnull⟩ := find_spec (hopts ▸ hptr) (hopts ▸ hcmp) hfuel H k
      refine ⟨p, hp, hnull.trans ?_⟩
      constructor
      · exact List.mem_of_getLast?
      · exact fun hk => (hlast _ (fun _ h => h) k hk).mpr hk
    · intro c hc
      obtain ⟨p, w', hs, -⟩ := step_spec (hopts ▸ hptr) (hopts ▸ hcmp) hfuel H hc
      simp [hs]

end Run

/-- An order on cells of natural numbers. -/
def rank : Cell ℕ → ℤ
  | .obj n => n
  | .int w => -1 - w.toNat

theorem comparesTotally_rank : ComparesTotally fun a b => rank a - rank b where
  eq_iff := by
    intro a b
    rw [Int.sub_eq_zero]
    refine ⟨fun h => ?_, fun h => h ▸ rfl⟩
    cases a <;> cases b <;> simp only [rank] at h
    · rw [Int.ofNat.inj h]
    · omega
    · omega
    · exact congrArg _ (BitVec.eq_of_toNat_eq (by omega))
  swap := by
    intro a b
    omega
  trans := by
    intro a b c
    omega

/-- The same key twice. -/
theorem run_isOrderedSet_twice :
    ∃ tr w, Run (step 1) Fresh
        (create ⟨.others, false, fun a b => rank a - rank b⟩ ⟨fun _ => none⟩ : World ℕ) tr w ∧
      keys tr = [.obj 5, .obj 5] ∧ IsOrderedSet 1 tr w := by
  have hrun : Run (step 1) Fresh
      (create ⟨.others, false, fun a b => rank a - rank b⟩ ⟨fun _ => none⟩ : World ℕ) _ _ :=
    run_of_runList [(1, .obj 5), (2, .obj 5)] rfl (by
      simp only [List.forall_mem_cons]
      exact ⟨rfl, rfl, by simp⟩)
  refine ⟨_, _, hrun, rfl, ?_⟩
  refine (run_isOrderedSet_iff (by decide) comparesTotally_rank (by decide) hrun).mpr ?_
  simp [keys]

/-- Two keys: the second insertion forgets the first. -/
theorem not_isOrderedSet_two :
    ∃ (opts : KrbOpts ℕ) (heap : Heap (KrbNode ℕ)) (tr : List _) (w : World ℕ),
      opts.valType.IsPointer ∧ ComparesTotally opts.compare ∧
      Run (step 2) Fresh (create opts heap) tr w ∧ ¬ IsOrderedSet 2 tr w := by
  refine ⟨⟨.others, false, fun a b => rank a - rank b⟩, ⟨fun _ => none⟩, _, _, by decide,
    comparesTotally_rank, run_of_runList [(1, .obj 1), (2, .obj 2)] rfl (by
      simp only [List.forall_mem_cons]
      exact ⟨rfl, rfl, by simp⟩), fun hset => ?_⟩
  obtain ⟨p, hp, hnull⟩ := hset.find (.obj 1)
  have hzero : p = .null := (Option.some.inj hp).symm
  exact absurd hzero (hnull.mpr (by decide))

end World

end Krb

end Kylin
