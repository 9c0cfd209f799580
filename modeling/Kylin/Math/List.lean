import Kylin.Lib.Run
import Kylin.Lib.Heap
import Kylin.Lib.Chain
import Kylin.Math.Val

/-!
# The doubly linked list

`klist_t` (`lib/core/math/kylin_list.c`) keeps its nodes on a heap and points to
the first and the last of them.  Every function is written as the sequence of
loads and stores of the source; one through a null or freed pointer is a fault.
Nodes enter a list from the node allocator, whose answer is an argument of the
call, or, for the `_raw` functions, from the caller.

The count is a natural number: a list cannot have `2 ^ 64` nodes in memory.

## Main definitions

* `KlistNode`, `Klist`, `Klist.World` — nodes, the guard, and the memory around it.
* `insertHead`, …, `unlinkRaw` — the operations.
* `Holds` — a list whose nodes are `l`, in this order.
* `Call.apply` — the same operations on a mathematical sequence.
* `run_chains` — every run from `kylin_list_create` keeps the two in step.
-/

namespace Kylin

open Lib

/-- `klist_node_t`. -/
structure KlistNode (α : Type) where
  prev : Option ℕ
  next : Option ℕ
  val : KmathVal α

/-- `klist_opts_t`.  `valCtor` says whether there is a value constructor. -/
structure KlistOpts (α : Type) where
  valType : Kobj
  valCtor : Bool
  /-- The callback `match`. -/
  valMatch : KPtr α → KPtr α → ℤ

/-- `klist_t`. -/
structure Klist (α : Type) where
  head : Option ℕ
  tail : Option ℕ
  opts : KlistOpts α
  count : ℕ

namespace Klist

/-- A list, the heap its nodes live on, the values given to the value destructor
so far, and the error variable. -/
structure World (α : Type) where
  guard : Klist α
  heap : Heap (KlistNode α)
  destroyed : List (KPtr α)
  kerrno : Kerr

namespace World
variable {α : Type}

/-- `kylin_list_create`, on the zero-filled memory of `kylin_malloc`, beside a heap
of other nodes. -/
def create (opts : KlistOpts α) (heap : Heap (KlistNode α)) : World α where
  guard := ⟨none, none, opts, 0⟩
  heap := heap
  destroyed := []
  kerrno := .ok

/-! ## Stores -/

/-- `LIST_HEAD(guard) = p`. -/
def setHead (w : World α) (p : Option ℕ) : World α := { w with guard := { w.guard with head := p } }

/-- `LIST_TAIL(guard) = p`. -/
def setTail (w : World α) (p : Option ℕ) : World α := { w with guard := { w.guard with tail := p } }

/-- `LIST_COUNT(guard) = n`. -/
def setCount (w : World α) (n : ℕ) : World α := { w with guard := { w.guard with count := n } }

/-- `LIST_PREV(node) = p`. -/
def setPrev (w : World α) (node p : Option ℕ) : Option (World α) :=
  (w.heap.modify node fun x => { x with prev := p }).map fun h => { w with heap := h }

/-- `LIST_NEXT(node) = p`. -/
def setNext (w : World α) (node p : Option ℕ) : Option (World α) :=
  (w.heap.modify node fun x => { x with next := p }).map fun h => { w with heap := h }

/-! ## Operations -/

/-- `kylin_list_insert_head_raw`. -/
def insertHeadRaw (w : World α) (node : ℕ) : Option (World α) :=
  if w.guard.count = 0 then do
    let w := (w.setHead (some node)).setTail (some node)
    let w ← w.setPrev (some node) none
    let w ← w.setNext (some node) none
    some (w.setCount (w.guard.count + 1))
  else do
    let w ← w.setPrev (some node) none
    let w ← w.setNext (some node) w.guard.head
    let w ← w.setPrev w.guard.head (some node)
    let w := w.setHead (some node)
    some (w.setCount (w.guard.count + 1))

/-- `kylin_list_insert_tail_raw`. -/
def insertTailRaw (w : World α) (node : ℕ) : Option (World α) :=
  if w.guard.count = 0 then do
    let w := (w.setHead (some node)).setTail (some node)
    let w ← w.setPrev (some node) none
    let w ← w.setNext (some node) none
    some (w.setCount (w.guard.count + 1))
  else do
    let w ← w.setPrev (some node) w.guard.tail
    let w ← w.setNext (some node) none
    let w ← w.setNext w.guard.tail (some node)
    let w := w.setTail (some node)
    some (w.setCount (w.guard.count + 1))

/-- `kylin_list_insert_after_raw`. -/
def insertAfterRaw (w : World α) (before node : ℕ) : Option (World α) := do
  let w ← w.setPrev (some node) (some before)
  let x ← w.heap.get before
  let w ← w.setNext (some node) x.next
  let w ←
    if w.guard.tail = some before then some (w.setTail (some node))
    else do
      let x ← w.heap.get before
      w.setPrev x.next (some node)
  let w ← w.setNext (some before) (some node)
  some (w.setCount (w.guard.count + 1))

/-- `kylin_list_insert_before_raw`. -/
def insertBeforeRaw (w : World α) (after node : ℕ) : Option (World α) := do
  let w ← w.setNext (some node) (some after)
  let x ← w.heap.get after
  let w ← w.setPrev (some node) x.prev
  let w ←
    if w.guard.head = some after then some (w.setHead (some node))
    else do
      let x ← w.heap.get after
      w.setNext x.prev (some node)
  let w ← w.setPrev (some after) (some node)
  some (w.setCount (w.guard.count + 1))

/-- The value forms of the insertions: allocate a node, construct the value in it,
and link it in as the raw form does.  `node` is the answer of the allocator. -/
def insertWith (link : World α → ℕ → Option (World α)) (w : World α) (node : Option ℕ)
    (val : KPtr α) : Option (KPtr α × World α) :=
  match node with
  | none => some (.null, { w with kerrno := .nomem })
  | some node => do
      let v ← kmathValCtor val w.guard.opts.valType w.guard.opts.valCtor
      let w ← link { w with heap := w.heap.alloc node ⟨none, none, v⟩ } node
      let x ← w.heap.get node
      some (kmathValGet x.val w.guard.opts.valType, w)

/-- `kylin_list_insert_head`. -/
def insertHead : World α → Option ℕ → KPtr α → Option (KPtr α × World α) :=
  insertWith insertHeadRaw

/-- `kylin_list_insert_tail`. -/
def insertTail : World α → Option ℕ → KPtr α → Option (KPtr α × World α) :=
  insertWith insertTailRaw

/-- `kylin_list_insert_after`. -/
def insertAfter (w : World α) (before : ℕ) (node : Option ℕ) (val : KPtr α) :
    Option (KPtr α × World α) :=
  insertWith (fun w node => w.insertAfterRaw before node) w node val

/-- `kylin_list_insert_before`. -/
def insertBefore (w : World α) (after : ℕ) (node : Option ℕ) (val : KPtr α) :
    Option (KPtr α × World α) :=
  insertWith (fun w node => w.insertBeforeRaw after node) w node val

/-- Make what points forward to a node with these links point past it. -/
def bypassNext (w : World α) (prev next : Option ℕ) : Option (World α) :=
  match prev with
  | some p => w.setNext (some p) next
  | none => some (w.setHead next)

/-- Make what points back to a node with these links point past it. -/
def bypassPrev (w : World α) (prev next : Option ℕ) : Option (World α) :=
  match next with
  | some n => w.setPrev (some n) prev
  | none => some (w.setTail prev)

/-- The block with which the removing functions take `node` out of its chain. -/
def detach (w : World α) (node : ℕ) : Option (World α) := do
  let x ← w.heap.get node
  let w ← w.bypassNext x.prev x.next
  let x ← w.heap.get node
  let w ← w.bypassPrev x.prev x.next
  some (w.setCount (w.guard.count - 1))

/-- `LIST_NODE_FREE`. -/
def nodeFree (w : World α) (node : ℕ) : Option (World α) :=
  (w.heap.free node).map fun h => { w with heap := h }

/-- The loop of `kylin_list_find_raw`; `none` when `fuel` nodes were not enough. -/
def findRawLoop (w : World α) (key : KPtr α) : ℕ → Option ℕ → Option (Option ℕ)
  | _, none => some none
  | 0, some _ => none
  | fuel + 1, some tmp => do
      let x ← w.heap.get tmp
      if w.guard.opts.valMatch key x.val.ptr = 0 then some (some tmp)
      else findRawLoop w key fuel x.next

/-- `kylin_list_find_raw`. -/
def findRaw (w : World α) (key : KPtr α) : Option (Option ℕ) :=
  w.findRawLoop key w.guard.count w.guard.head

/-- Whether the value of a node matches a key. -/
def matchesKey (w : World α) (key : KPtr α) (a : ℕ) : Bool :=
  match w.heap.get a with
  | some x => w.guard.opts.valMatch key x.val.ptr == 0
  | none => false

/-- `kylin_list_remove_raw`. -/
def removeRaw (w : World α) (node : ℕ) : Option (World α) := do
  let w ← w.detach node
  let x ← w.heap.get node
  let w := { w with destroyed := w.destroyed ++ kmathValDtor x.val w.guard.opts.valType }
  w.nodeFree node

/-- `kylin_list_remove`. -/
def remove (w : World α) (cmp : KPtr α) : Option (World α) := do
  match ← w.findRaw cmp with
  | none => some { w with kerrno := .inval }
  | some node => w.removeRaw node

/-- `kylin_list_unlink`. -/
def unlink (w : World α) (cmp : KPtr α) : Option (KPtr α × World α) := do
  match ← w.findRaw cmp with
  | none => some (.null, { w with kerrno := .inval })
  | some node =>
      let w ← w.detach node
      let x ← w.heap.get node
      let result := kmathValGet x.val w.guard.opts.valType
      let w ← w.nodeFree node
      some (result, w)

/-- `kylin_list_unlink_raw`. -/
def unlinkRaw (w : World α) (node : ℕ) : Option (World α) := w.detach node

/-! ## Links -/

/-- The links of the nodes on the heap. -/
def links (w : World α) (a : ℕ) : Option Link := (w.heap.get a).map fun x => ⟨x.prev, x.next⟩

/-- The world after a store to the link `prev` of the node `a`. -/
def putPrev (w : World α) (a : ℕ) (p : Option ℕ) : World α :=
  { w with heap := w.heap.map a fun x => { x with prev := p } }

/-- The world after a store to the link `next` of the node `a`. -/
def putNext (w : World α) (a : ℕ) (p : Option ℕ) : World α :=
  { w with heap := w.heap.map a fun x => { x with next := p } }

section Links
variable (w : World α) (a b : ℕ) (p : Option ℕ) (n : ℕ)

@[simp] theorem isSome_links : (w.links a).isSome = (w.heap.get a).isSome := by simp [links]

@[simp] theorem links_setHead : (w.setHead p).links = w.links := rfl
@[simp] theorem links_setTail : (w.setTail p).links = w.links := rfl
@[simp] theorem links_setCount : (w.setCount n).links = w.links := rfl
@[simp] theorem heap_setHead : (w.setHead p).heap = w.heap := rfl
@[simp] theorem heap_setTail : (w.setTail p).heap = w.heap := rfl
@[simp] theorem heap_setCount : (w.setCount n).heap = w.heap := rfl
@[simp] theorem guard_setHead : (w.setHead p).guard = { w.guard with head := p } := rfl
@[simp] theorem guard_setTail : (w.setTail p).guard = { w.guard with tail := p } := rfl
@[simp] theorem guard_setCount : (w.setCount n).guard = { w.guard with count := n } := rfl
@[simp] theorem guard_putPrev : (w.putPrev a p).guard = w.guard := rfl
@[simp] theorem guard_putNext : (w.putNext a p).guard = w.guard := rfl

@[simp] theorem isSome_putPrev :
    ((w.putPrev a p).heap.get b).isSome = (w.heap.get b).isSome := Heap.isSome_get_map _ _ _ _

@[simp] theorem isSome_putNext :
    ((w.putNext a p).heap.get b).isSome = (w.heap.get b).isSome := Heap.isSome_get_map _ _ _ _

@[simp] theorem links_putPrev :
    (w.putPrev a p).links b =
      if b = a then (w.links b).map fun x => { x with prev := p } else w.links b := by
  rw [links, putPrev, Heap.get_map, links]
  split <;> simp [Function.comp_def]

@[simp] theorem links_putNext :
    (w.putNext a p).links b =
      if b = a then (w.links b).map fun x => { x with next := p } else w.links b := by
  rw [links, putNext, Heap.get_map, links]
  split <;> simp [Function.comp_def]

variable {w a b}

theorem get_putPrev_of_ne (hb : b ≠ a) : (w.putPrev a p).heap.get b = w.heap.get b :=
  Heap.get_map_of_ne _ _ _ hb

theorem get_putNext_of_ne (hb : b ≠ a) : (w.putNext a p).heap.get b = w.heap.get b :=
  Heap.get_map_of_ne _ _ _ hb

@[simp] theorem setPrev_of_isSome (ha : (w.heap.get a).isSome) :
    w.setPrev (some a) p = some (w.putPrev a p) := by
  rw [setPrev, Heap.modify_of_isSome _ _ ha, Option.map_some]
  rfl

@[simp] theorem setNext_of_isSome (ha : (w.heap.get a).isSome) :
    w.setNext (some a) p = some (w.putNext a p) := by
  rw [setNext, Heap.modify_of_isSome _ _ ha, Option.map_some]
  rfl

/-- The node at an address with known links. -/
theorem get_of_links {x : Link} (h : w.links a = some x) :
    ∃ v, w.heap.get a = some ⟨x.prev, x.next, v⟩ := by
  obtain ⟨y, hy, rfl⟩ := Option.map_eq_some_iff.mp h
  exact ⟨y.val, hy⟩

end Links

/-- A list whose nodes are `l`, in this order. -/
structure Holds (w : World α) (l : List ℕ) : Prop where
  chain : Chain w.links none l none
  head_eq : w.guard.head = l.head?
  tail_eq : w.guard.tail = l.getLast?
  count_eq : w.guard.count = l.length
  nodup : l.Nodup

theorem holds_create (opts : KlistOpts α) (heap : Heap (KlistNode α)) :
    Holds (create opts heap) [] :=
  ⟨trivial, rfl, rfl, rfl, List.nodup_nil⟩

namespace Holds
variable {w w' : World α} {l l₁ l₂ : List ℕ} {a : ℕ}

theorem isSome (H : Holds w l) (ha : a ∈ l) : (w.heap.get a).isSome := by
  rw [← isSome_links]
  exact H.chain.isSome ha

/-- The list after a node was linked in between `l₁` and `l₂`. -/
theorem link (l₁ l₂ : List ℕ) (H : Holds w (l₁ ++ l₂)) (ha : a ∉ l₁ ++ l₂)
    (hhead : w'.guard.head = (l₁ ++ a :: l₂).head?)
    (htail : w'.guard.tail = (l₁ ++ a :: l₂).getLast?)
    (hcount : w'.guard.count = w.guard.count + 1)
    (hnew : w'.links a = some ⟨l₁.getLast?, l₂.head?⟩)
    (hlast : ∀ b, l₁.getLast? = some b →
      w'.links b = (w.links b).map fun x => { x with next := some a })
    (hnext : ∀ b, l₂.head? = some b →
      w'.links b = (w.links b).map fun x => { x with prev := some a })
    (hrest : ∀ b, b ≠ a → l₁.getLast? ≠ some b → l₂.head? ≠ some b →
      w'.links b = w.links b) : Holds w' (l₁ ++ a :: l₂) where
  chain := H.chain.insert H.nodup ha hnew hlast hnext hrest
  head_eq := hhead
  tail_eq := htail
  count_eq := by
    rw [hcount, H.count_eq, List.length_append, List.length_append, List.length_cons]
    rfl
  nodup := List.nodup_middle.mpr (List.nodup_cons.mpr ⟨ha, H.nodup⟩)

/-- Memory outside the nodes of a list does not matter to it. -/
theorem frame (H : Holds w l) (hhead : w'.guard.head = w.guard.head)
    (htail : w'.guard.tail = w.guard.tail) (hcount : w'.guard.count = w.guard.count)
    (hl : ∀ b ∈ l, w'.links b = w.links b) : Holds w' l where
  chain := H.chain.congr hl
  head_eq := hhead.trans H.head_eq
  tail_eq := htail.trans H.tail_eq
  count_eq := hcount.trans H.count_eq
  nodup := H.nodup

/-- The first node of a list. -/
theorem link_empty {x : Link} (H : Holds w []) (hx : w.links a = some x) :
    Holds (((((w.setHead (some a)).setTail (some a)).putPrev a none).putNext a none).setCount
      (w.guard.count + 1)) [a] := by
  refine link [] [] H (by simp) rfl rfl rfl ?_ ?_ ?_ ?_
  · simp [hx]
  · simp
  · simp
  · intro b hb _ _
    simp [hb]

/-- **Inserting at the head.** -/
theorem insertHeadRaw_spec (H : Holds w l) (ha : a ∉ l) (hlive : (w.heap.get a).isSome) :
    ∃ w', w.insertHeadRaw a = some w' ∧ w'.guard.opts = w.guard.opts ∧
      (w'.heap.get a).isSome ∧ Holds w' (a :: l) := by
  obtain ⟨x, hx⟩ := Option.isSome_iff_exists.mp ((isSome_links w a).trans hlive)
  cases l with
  | nil =>
      have hc : w.guard.count = 0 := H.count_eq
      refine ⟨_, ?_, ?_, ?_, H.link_empty hx⟩
      · simp [insertHeadRaw, hc, hlive]
      · rfl
      · simp [hlive]
  | cons b l =>
      have hc : w.guard.count ≠ 0 := by simp [H.count_eq]
      have hb : (w.heap.get b).isSome := H.isSome List.mem_cons_self
      have hhead : w.guard.head = some b := H.head_eq
      have hne : b ≠ a := fun h => ha (h ▸ List.mem_cons_self)
      refine ⟨((((w.putPrev a none).putNext a (some b)).putPrev b (some a)).setHead
        (some a)).setCount (w.guard.count + 1), ?_, rfl, by simp [hlive], ?_⟩
      · simp [insertHeadRaw, hc, hlive, hhead, hb]
      · refine link [] (b :: l) H ha rfl ?_ rfl ?_ ?_ ?_ ?_
        · simpa using H.tail_eq
        · simp [hx, hne.symm]
        · simp
        · intro c hcb
          obtain rfl : b = c := by simpa using hcb
          simp [hne]
        · intro c hca _ hcb
          have hcb' : ¬ c = b := fun h => hcb (h ▸ rfl)
          simp [hca, hcb']

/-- **Inserting at the tail.** -/
theorem insertTailRaw_spec (H : Holds w l) (ha : a ∉ l) (hlive : (w.heap.get a).isSome) :
    ∃ w', w.insertTailRaw a = some w' ∧ w'.guard.opts = w.guard.opts ∧
      (w'.heap.get a).isSome ∧ Holds w' (l ++ [a]) := by
  obtain ⟨x, hx⟩ := Option.isSome_iff_exists.mp ((isSome_links w a).trans hlive)
  have H' : Holds w (l ++ []) := by simpa using H
  have ha' : a ∉ l ++ [] := by simpa using ha
  rcases List.eq_nil_or_concat l with rfl | ⟨l', b, hl⟩
  · have hc : w.guard.count = 0 := H.count_eq
    refine ⟨_, ?_, ?_, ?_, H.link_empty hx⟩
    · simp [insertTailRaw, hc, hlive]
    · rfl
    · simp [hlive]
  · rw [List.concat_eq_append] at hl
    have hc : w.guard.count ≠ 0 := by simp [H.count_eq, hl]
    have hlast : l.getLast? = some b := by simp [hl]
    have hb : (w.heap.get b).isSome := H.isSome (List.mem_of_getLast? hlast)
    have htail : w.guard.tail = some b := H.tail_eq.trans hlast
    have hne : b ≠ a := fun h => ha (h ▸ List.mem_of_getLast? hlast)
    refine ⟨((((w.putPrev a (some b)).putNext a none).putNext b (some a)).setTail
      (some a)).setCount (w.guard.count + 1), ?_, rfl, by simp [hlive], ?_⟩
    · simp [insertTailRaw, hc, hlive, htail, hb]
    · refine link l [] H' ha' ?_ ?_ rfl ?_ ?_ ?_ ?_
      · have := H.head_eq
        simp [hl] at this ⊢
        exact this
      · simp
      · simp [hx, hne.symm, hlast]
      · intro c hcb
        obtain rfl : b = c := Option.some.inj (hlast.symm.trans hcb)
        simp [hne]
      · simp
      · intro c hca hcb _
        have hcb' : ¬ c = b := fun h => hcb (h ▸ hlast)
        simp [hca, hcb']

/-- The ends of a list are not between the ends. -/
theorem tail_eq_iff (H : Holds w (l₁ ++ a :: l₂)) : w.guard.tail = some a ↔ l₂ = [] := by
  rw [H.tail_eq]
  rcases List.eq_nil_or_concat l₂ with rfl | ⟨l', b, rfl⟩
  · simp
  · have hab : b ≠ a := by
      have := H.nodup
      rw [List.nodup_middle, List.nodup_cons] at this
      exact fun h => this.1 (by simp [h])
    rw [List.concat_eq_append, ← List.cons_append, ← List.append_assoc, List.getLast?_concat]
    simp [hab]

theorem head_eq_iff (H : Holds w (l₁ ++ a :: l₂)) : w.guard.head = some a ↔ l₁ = [] := by
  rw [H.head_eq]
  cases l₁ with
  | nil => simp
  | cons b l =>
      have hab : b ≠ a := by
        have := H.nodup
        rw [List.nodup_middle, List.nodup_cons] at this
        exact fun h => this.1 (by simp [h])
      simp [hab]

/-- **Inserting after a node.** -/
theorem insertAfterRaw_spec {before : ℕ} (H : Holds w (l₁ ++ before :: l₂))
    (ha : a ∉ l₁ ++ before :: l₂) (hlive : (w.heap.get a).isSome) :
    ∃ w', w.insertAfterRaw before a = some w' ∧ w'.guard.opts = w.guard.opts ∧
      (w'.heap.get a).isSome ∧ Holds w' (l₁ ++ before :: a :: l₂) := by
  obtain ⟨x, hx⟩ := Option.isSome_iff_exists.mp ((isSome_links w a).trans hlive)
  have hne : before ≠ a := fun h => ha (by simp [h])
  have hlinks : w.links before = some ⟨l₁.getLast?, l₂.head?⟩ := H.chain.link
  obtain ⟨v, hget⟩ := get_of_links hlinks
  have H' : Holds w ((l₁ ++ [before]) ++ l₂) := by simpa using H
  have ha' : a ∉ (l₁ ++ [before]) ++ l₂ := by simpa using ha
  have hl : l₁ ++ before :: a :: l₂ = (l₁ ++ [before]) ++ a :: l₂ := by simp
  have hlast : (l₁ ++ [before]).getLast? = some before := List.getLast?_concat
  have hhead := H.head_eq
  rw [List.head?_append] at hhead
  cases l₂ with
  | nil =>
      have htail : w.guard.tail = some before := H.tail_eq_iff.mpr rfl
      refine ⟨((((w.putPrev a (some before)).putNext a none).setTail (some a)).putNext before
        (some a)).setCount (w.guard.count + 1), ?_, rfl, by simp [hlive], ?_⟩
      · simp [insertAfterRaw, hlive, get_putPrev_of_ne _ hne, hget, htail]
      · rw [hl]
        refine link (l₁ ++ [before]) [] H' ha' ?_ ?_ rfl ?_ ?_ ?_ ?_
        · simpa using hhead
        · simp
        · simp [hx, hne.symm]
        · intro c hc
          obtain rfl : before = c := Option.some.inj (hlast.symm.trans hc)
          simp [hne]
        · simp
        · intro c hca hcb _
          have hcb' : ¬ c = before := fun h => hcb (h ▸ hlast)
          simp [hca, hcb']
  | cons d l₂ =>
      have htail : ¬ w.guard.tail = some before := mt H.tail_eq_iff.mp (by simp)
      have hd : (w.heap.get d).isSome := H.isSome (by simp)
      have hda : d ≠ a := fun h => ha (by simp [h])
      have hdb : d ≠ before := by
        have := H.nodup
        rw [List.nodup_middle, List.nodup_cons] at this
        exact fun h => this.1 (by simp [h])
      refine ⟨((((w.putPrev a (some before)).putNext a (some d)).putPrev d (some a)).putNext
        before (some a)).setCount (w.guard.count + 1), ?_, rfl, by simp [hlive], ?_⟩
      · simp [insertAfterRaw, hlive, get_putPrev_of_ne _ hne, get_putNext_of_ne _ hne, hget, htail,
          hd]
      · rw [hl]
        refine link (l₁ ++ [before]) (d :: l₂) H' ha' ?_ ?_ rfl ?_ ?_ ?_ ?_
        · simpa using hhead
        · have := H.tail_eq
          simpa using this
        · simp [hx, hne.symm, hda.symm]
        · intro c hc
          obtain rfl : before = c := Option.some.inj (hlast.symm.trans hc)
          simp [hne, hdb.symm]
        · intro c hc
          obtain rfl : d = c := by simpa using hc
          simp [hda, hdb]
        · intro c hca hcb hcd
          have hcb' : ¬ c = before := fun h => hcb (h ▸ hlast)
          have hcd' : ¬ c = d := fun h => hcd (h ▸ rfl)
          simp [hca, hcb', hcd']

/-- **Inserting before a node.** -/
theorem insertBeforeRaw_spec {after : ℕ} (H : Holds w (l₁ ++ after :: l₂))
    (ha : a ∉ l₁ ++ after :: l₂) (hlive : (w.heap.get a).isSome) :
    ∃ w', w.insertBeforeRaw after a = some w' ∧ w'.guard.opts = w.guard.opts ∧
      (w'.heap.get a).isSome ∧ Holds w' (l₁ ++ a :: after :: l₂) := by
  obtain ⟨x, hx⟩ := Option.isSome_iff_exists.mp ((isSome_links w a).trans hlive)
  have hne : after ≠ a := fun h => ha (by simp [h])
  have hlinks : w.links after = some ⟨l₁.getLast?, l₂.head?⟩ := H.chain.link
  obtain ⟨v, hget⟩ := get_of_links hlinks
  rcases List.eq_nil_or_concat l₁ with rfl | ⟨l', d, rfl⟩
  · have hhead : w.guard.head = some after := H.head_eq_iff.mpr rfl
    refine ⟨((((w.putNext a (some after)).putPrev a none).setHead (some a)).putPrev after
      (some a)).setCount (w.guard.count + 1), ?_, rfl, by simp [hlive], ?_⟩
    · simp [insertBeforeRaw, hlive, get_putNext_of_ne _ hne, hget, hhead]
    · refine link [] (after :: l₂) H ha rfl ?_ rfl ?_ ?_ ?_ ?_
      · simpa using H.tail_eq
      · simp [hx, hne.symm]
      · simp
      · intro c hc
        obtain rfl : after = c := by simpa using hc
        simp [hne]
      · intro c hca _ hcb
        have hcb' : ¬ c = after := fun h => hcb (h ▸ rfl)
        simp [hca, hcb']
  · rw [List.concat_eq_append] at *
    have hlast : (l' ++ [d]).getLast? = some d := List.getLast?_concat
    have hhead : ¬ w.guard.head = some after := mt H.head_eq_iff.mp (by simp)
    have hd : (w.heap.get d).isSome := H.isSome (by simp)
    have hda : d ≠ a := fun h => ha (by simp [h])
    have hdb : d ≠ after := by
      have := H.nodup
      rw [List.nodup_middle, List.nodup_cons] at this
      exact fun h => this.1 (by simp [h])
    rw [hlast] at hget
    refine ⟨((((w.putNext a (some after)).putPrev a (some d)).putNext d (some a)).putPrev
      after (some a)).setCount (w.guard.count + 1), ?_, rfl, by simp [hlive], ?_⟩
    · simp [insertBeforeRaw, hlive, get_putNext_of_ne _ hne, get_putPrev_of_ne _ hne, hget, hhead,
        hd]
    · refine link (l' ++ [d]) (after :: l₂) H ha ?_ ?_ rfl ?_ ?_ ?_ ?_
      · simpa [List.head?_append] using H.head_eq
      · simpa [List.getLast?_append] using H.tail_eq
      · simp [hx, hne.symm, hda.symm]
      · intro c hc
        obtain rfl : d = c := Option.some.inj (hlast.symm.trans hc)
        simp [hda, hdb]
      · intro c hc
        obtain rfl : after = c := by simpa using hc
        simp [hne, hdb.symm]
      · intro c hca hcd hcb
        have hcb' : ¬ c = after := fun h => hcb (h ▸ rfl)
        have hcd' : ¬ c = d := fun h => hcd (h ▸ hlast)
        simp [hca, hcb', hcd']

theorem notMem_of_middle (H : Holds w (l₁ ++ a :: l₂)) : a ∉ l₁ ++ l₂ := by
  have hnodup := H.nodup
  rw [List.nodup_middle, List.nodup_cons] at hnodup
  exact hnodup.1

theorem bypassNext_spec (H : Holds w (l₁ ++ a :: l₂)) :
    ∃ w', w.bypassNext l₁.getLast? l₂.head? = some w' ∧
      w'.guard = { w.guard with head := (l₁ ++ l₂).head? } ∧ w'.heap.get a = w.heap.get a ∧
      (∀ b, (w'.heap.get b).isSome = (w.heap.get b).isSome) ∧
      ∀ b, w'.links b = if l₁.getLast? = some b then
        (w.links b).map fun x => { x with next := l₂.head? } else w.links b := by
  have ha := H.notMem_of_middle
  have hhead := H.head_eq
  cases hlast : l₁.getLast? with
  | none =>
      obtain rfl : l₁ = [] := List.getLast?_eq_none_iff.mp hlast
      exact ⟨w.setHead l₂.head?, rfl, rfl, rfl, fun _ => rfl, by simp⟩
  | some p =>
      have hp : p ∈ l₁ := List.mem_of_getLast? hlast
      have hpa : a ≠ p := fun h => ha (by simp [h, hp])
      refine ⟨w.putNext p l₂.head?, setNext_of_isSome _ (H.isSome (by simp [hp])), ?_,
        get_putNext_of_ne _ hpa, fun b => by simp, fun b => ?_⟩
      · have hsame : (l₁ ++ l₂).head? = w.guard.head := by
          rw [hhead]
          cases l₁ with
          | nil => cases hp
          | cons d l => rfl
        rw [hsame]
        rfl
      · rw [links_putNext]
        exact if_congr (by simp [eq_comm]) rfl rfl

theorem bypassPrev_spec (H : Holds w (l₁ ++ a :: l₂)) {w₁ : World α}
    (htail : w₁.guard.tail = w.guard.tail)
    (hsome : ∀ b, (w₁.heap.get b).isSome = (w.heap.get b).isSome) :
    ∃ w', w₁.bypassPrev l₁.getLast? l₂.head? = some w' ∧
      w'.guard = { w₁.guard with tail := (l₁ ++ l₂).getLast? } ∧
      w'.heap.get a = w₁.heap.get a ∧
      ∀ b, w'.links b = if l₂.head? = some b then
        (w₁.links b).map fun x => { x with prev := l₁.getLast? } else w₁.links b := by
  have ha := H.notMem_of_middle
  rw [H.tail_eq] at htail
  cases hhead : l₂.head? with
  | none =>
      obtain rfl : l₂ = [] := List.head?_eq_none_iff.mp hhead
      exact ⟨w₁.setTail l₁.getLast?, rfl, by simp, rfl, by simp⟩
  | some n =>
      have hn : n ∈ l₂ := List.mem_of_head? hhead
      have hna : a ≠ n := fun h => ha (by simp [h, hn])
      have hlive : (w₁.heap.get n).isSome := by
        rw [hsome]
        exact H.isSome (by simp [hn])
      refine ⟨w₁.putPrev n l₁.getLast?, setPrev_of_isSome _ hlive, ?_,
        get_putPrev_of_ne _ hna, fun b => ?_⟩
      · have hsame : (l₁ ++ l₂).getLast? = w₁.guard.tail := by
          rw [htail, List.getLast?_append, List.getLast?_append]
          cases l₂ with
          | nil => cases hn
          | cons d l => simp [List.getLast?_cons_cons]
        rw [hsame]
        rfl
      · rw [links_putPrev]
        exact if_congr (by simp [eq_comm]) rfl rfl

/-- **Taking a node out.**  It stays on the heap, with its value. -/
theorem detach_spec (H : Holds w (l₁ ++ a :: l₂)) :
    ∃ w', w.detach a = some w' ∧ w'.guard.opts = w.guard.opts ∧ w'.heap.get a = w.heap.get a ∧
      Holds w' (l₁ ++ l₂) := by
  obtain ⟨v, hget⟩ := get_of_links H.chain.link
  obtain ⟨w₁, hrun₁, hguard₁, hget₁, hsome₁, hlinks₁⟩ := H.bypassNext_spec
  obtain ⟨w₂, hrun₂, hguard₂, hget₂, hlinks₂⟩ := H.bypassPrev_spec (by rw [hguard₁]) hsome₁
  have hnodup : (l₁ ++ l₂).Nodup := by
    have := H.nodup
    rw [List.nodup_middle, List.nodup_cons] at this
    exact this.2
  have hd := List.disjoint_of_nodup_append hnodup
  refine ⟨w₂.setCount (w₂.guard.count - 1), ?_, ?_, hget₂.trans hget₁, ?_, ?_, ?_, ?_, hnodup⟩
  · simp only [detach, hget, Option.bind_eq_bind, Option.bind_some, hrun₁, hget₁, hrun₂]
  · simp [hguard₂, hguard₁]
  · refine H.chain.remove H.nodup ?_ ?_ ?_
    · intro b hb
      have hb2 : l₂.head? ≠ some b :=
        ne_head?_of_notMem fun h => hd (List.mem_of_getLast? hb) h
      rw [links_setCount, hlinks₂, if_neg hb2, hlinks₁, if_pos hb]
    · intro b hb
      have hb1 : l₁.getLast? ≠ some b :=
        ne_getLast?_of_notMem fun h => hd h (List.mem_of_head? hb)
      rw [links_setCount, hlinks₂, if_pos hb, hlinks₁, if_neg hb1]
    · intro b _ hb1 hb2
      rw [links_setCount, hlinks₂, if_neg hb2, hlinks₁, if_neg hb1]
  · simp [hguard₂, hguard₁]
  · simp [hguard₂]
  · have hcount := H.count_eq
    simp only [List.length_append, List.length_cons] at hcount
    simp only [guard_setCount, hguard₂, hguard₁, List.length_append]
    omega

/-- A node off the list may be freed. -/
theorem nodeFree_spec (H : Holds w l) (ha : a ∉ l) (hlive : (w.heap.get a).isSome) :
    ∃ w', w.nodeFree a = some w' ∧ w'.guard = w.guard ∧ Holds w' l := by
  refine ⟨{ w with heap := ⟨Function.update w.heap.get a none⟩ }, ?_, rfl, ?_⟩
  · rw [nodeFree, Heap.free_of_isSome _ hlive, Option.map_some]
  · refine H.frame rfl rfl rfl fun b hb => ?_
    have hba : b ≠ a := fun h => ha (h ▸ hb)
    simp only [links, Function.update_of_ne hba]

/-- The search meets the nodes in order, and any `fuel` as large as the list is
enough. -/
theorem findRawLoop_eq {p : Option ℕ} (key : KPtr α) (h : Chain w.links p l none) :
    ∀ {fuel : ℕ}, l.length ≤ fuel →
      w.findRawLoop key fuel l.head? = some (l.find? (w.matchesKey key)) := by
  induction l generalizing p with
  | nil =>
      intro fuel _
      cases fuel <;> rfl
  | cons a l ih =>
      intro fuel hfuel
      obtain ⟨fuel, rfl⟩ : ∃ k, fuel = k + 1 := ⟨fuel - 1, by simp at hfuel; omega⟩
      obtain ⟨v, hget⟩ := get_of_links h.1
      have hrest := ih h.2 (Nat.le_of_succ_le_succ hfuel)
      by_cases hm : w.guard.opts.valMatch key v.ptr = 0
      · simp [findRawLoop, hget, hm, matchesKey]
      · simp [findRawLoop, hget, hm, matchesKey, hrest]

theorem findRaw_eq (H : Holds w l) (key : KPtr α) :
    w.findRaw key = some (l.find? (w.matchesKey key)) := by
  rw [findRaw, H.head_eq, H.count_eq]
  exact findRawLoop_eq key H.chain (Nat.le_refl _)

theorem removeRaw_spec (H : Holds w (l₁ ++ a :: l₂)) :
    ∃ w', w.removeRaw a = some w' ∧ w'.guard.opts = w.guard.opts ∧ Holds w' (l₁ ++ l₂) := by
  obtain ⟨v, hget⟩ := get_of_links H.chain.link
  obtain ⟨w₁, hrun₁, hopts₁, hget₁, H₁⟩ := H.detach_spec
  have hlive : (w₁.heap.get a).isSome := by
    rw [hget₁]
    exact H.isSome (by simp)
  have H₂ : Holds { w₁ with destroyed := w₁.destroyed ++ kmathValDtor v w₁.guard.opts.valType }
      (l₁ ++ l₂) := H₁.frame rfl rfl rfl fun _ _ => rfl
  obtain ⟨w₂, hrun₂, hguard₂, H₃⟩ := H₂.nodeFree_spec H.notMem_of_middle hlive
  refine ⟨w₂, ?_, ?_, H₃⟩
  · simp only [removeRaw, hrun₁, hget₁, hget, Option.bind_eq_bind, Option.bind_some, hrun₂]
  · rw [hguard₂]
    exact hopts₁

/-- A search finds nothing, or splits the list at its first match. -/
theorem find_cases (w : World α) (l : List ℕ) (key : KPtr α) :
    (l.find? (w.matchesKey key) = none ∧ l.eraseP (w.matchesKey key) = l) ∨
      ∃ l₁ a l₂, l = l₁ ++ a :: l₂ ∧ l.find? (w.matchesKey key) = some a ∧
        l.eraseP (w.matchesKey key) = l₁ ++ l₂ := by
  cases hfind : l.find? (w.matchesKey key) with
  | none =>
      refine Or.inl ⟨rfl, List.eraseP_of_forall_not fun b hb => ?_⟩
      exact List.find?_eq_none.mp hfind b hb
  | some a =>
      obtain ⟨ha, l₁, l₂, rfl, hno⟩ := List.find?_eq_some_iff_append.mp hfind
      refine Or.inr ⟨l₁, a, l₂, rfl, rfl, ?_⟩
      rw [List.eraseP_append_right _ fun b hb => by simpa using hno b hb,
        List.eraseP_cons_of_pos ha]

theorem remove_spec (H : Holds w l) (cmp : KPtr α) :
    ∃ w', w.remove cmp = some w' ∧ w'.guard.opts = w.guard.opts ∧
      Holds w' (l.eraseP (w.matchesKey cmp)) := by
  rcases find_cases w l cmp with ⟨hnone, hl⟩ | ⟨l₁, a, l₂, hsplit, hsome, hl⟩
  · refine ⟨{ w with kerrno := .inval }, ?_, rfl, ?_⟩
    · simp [remove, H.findRaw_eq, hnone]
    · rw [hl]
      exact H.frame rfl rfl rfl fun _ _ => rfl
  · obtain ⟨w', hrun, hopts, H'⟩ := (hsplit ▸ H : Holds w (l₁ ++ a :: l₂)).removeRaw_spec
    refine ⟨w', ?_, hopts, hl ▸ H'⟩
    simp [remove, H.findRaw_eq, hsome, hrun]

theorem unlink_spec (H : Holds w l) (cmp : KPtr α) :
    ∃ r w', w.unlink cmp = some (r, w') ∧ w'.guard.opts = w.guard.opts ∧
      Holds w' (l.eraseP (w.matchesKey cmp)) := by
  rcases find_cases w l cmp with ⟨hnone, hl⟩ | ⟨l₁, a, l₂, hsplit, hsome, hl⟩
  · refine ⟨.null, { w with kerrno := .inval }, ?_, rfl, ?_⟩
    · simp [unlink, H.findRaw_eq, hnone]
    · rw [hl]
      exact H.frame rfl rfl rfl fun _ _ => rfl
  · have Hs : Holds w (l₁ ++ a :: l₂) := hsplit ▸ H
    obtain ⟨v, hget⟩ := get_of_links Hs.chain.link
    obtain ⟨w₁, hrun₁, hopts₁, hget₁, H₁⟩ := Hs.detach_spec
    have hlive : (w₁.heap.get a).isSome := by
      rw [hget₁]
      exact Hs.isSome (by simp)
    obtain ⟨w₂, hrun₂, hguard₂, H₂⟩ := H₁.nodeFree_spec Hs.notMem_of_middle hlive
    refine ⟨kmathValGet v w₁.guard.opts.valType, w₂, ?_, ?_, hl ▸ H₂⟩
    · simp [unlink, H.findRaw_eq, hsome, hrun₁, hget₁, hget, hrun₂]
    · rw [hguard₂]
      exact hopts₁

end Holds

/-! ## Runs -/

/-- The calls on a list.  For the value forms, `node` is the answer of the node
allocator. -/
inductive Call (α : Type)
  | insertHead (node : Option ℕ) (val : KPtr α)
  | insertTail (node : Option ℕ) (val : KPtr α)
  | insertAfter (before : ℕ) (node : Option ℕ) (val : KPtr α)
  | insertBefore (after : ℕ) (node : Option ℕ) (val : KPtr α)
  | insertHeadRaw (node : ℕ)
  | insertTailRaw (node : ℕ)
  | insertAfterRaw (before node : ℕ)
  | insertBeforeRaw (after node : ℕ)
  | remove (cmp : KPtr α)
  | removeRaw (node : ℕ)
  | unlink (cmp : KPtr α)
  | unlinkRaw (node : ℕ)

/-- What a call returns. -/
inductive Result (α : Type)
  | void
  | val (p : KPtr α)
  | node (a : ℕ)

/-- One call on a list. -/
def step (w : World α) : Call α → Option (Result α × World α)
  | .insertHead node val => (w.insertHead node val).map fun (r, w) => (.val r, w)
  | .insertTail node val => (w.insertTail node val).map fun (r, w) => (.val r, w)
  | .insertAfter before node val => (w.insertAfter before node val).map fun (r, w) => (.val r, w)
  | .insertBefore after node val => (w.insertBefore after node val).map fun (r, w) => (.val r, w)
  | .insertHeadRaw node => (w.insertHeadRaw node).map fun w => (.void, w)
  | .insertTailRaw node => (w.insertTailRaw node).map fun w => (.void, w)
  | .insertAfterRaw before node => (w.insertAfterRaw before node).map fun w => (.void, w)
  | .insertBeforeRaw after node => (w.insertBeforeRaw after node).map fun w => (.void, w)
  | .remove cmp => (w.remove cmp).map fun w => (.void, w)
  | .removeRaw node => (w.removeRaw node).map fun w => (.void, w)
  | .unlink cmp => (w.unlink cmp).map fun (r, w) => (.val r, w)
  | .unlinkRaw node => (w.unlinkRaw node).map fun w => (.node node, w)

/-- A sequence with `a` put right after `before`. -/
def putAfter (before a : ℕ) : List ℕ → List ℕ
  | [] => []
  | b :: l => if b = before then b :: a :: l else b :: putAfter before a l

/-- A sequence with `a` put right before `after`. -/
def putBefore (after a : ℕ) : List ℕ → List ℕ
  | [] => []
  | b :: l => if b = after then a :: b :: l else b :: putBefore after a l

/-- The same call on a mathematical sequence.  The world is where `kylin_list_remove`
and `kylin_list_unlink` read the values they search. -/
def Call.apply (w : World α) (l : List ℕ) : Call α → List ℕ
  | .insertHead (some node) _ | .insertHeadRaw node => node :: l
  | .insertTail (some node) _ | .insertTailRaw node => l ++ [node]
  | .insertAfter before (some node) _ | .insertAfterRaw before node => putAfter before node l
  | .insertBefore after (some node) _ | .insertBeforeRaw after node => putBefore after node l
  -- without memory for a node nothing happens
  | .insertHead none _ | .insertTail none _ | .insertAfter _ none _ | .insertBefore _ none _ => l
  | .removeRaw node | .unlinkRaw node => l.erase node
  | .remove cmp | .unlink cmp => l.eraseP (w.matchesKey cmp)

/-- The sequence that the calls of a run describe. -/
def sequence (tr : List (Step (World α) (Call α) (Result α))) : List ℕ :=
  tr.foldl (fun l e => e.call.apply e.before l) []

/-- The link `next` of the nodes on the heap. -/
def nextLink (w : World α) (a : ℕ) : Option (Option ℕ) := (w.heap.get a).map KlistNode.next

/-- The link `prev` of the nodes on the heap. -/
def prevLink (w : World α) (a : ℕ) : Option (Option ℕ) := (w.heap.get a).map KlistNode.prev

/-- The node `a` is met by following `next` from the head. -/
def InList (w : World α) (a : ℕ) : Prop := ∃ l, Walk w.nextLink w.guard.head l ∧ a ∈ l

/-- An allocator answers with memory that is not in use, and a caller passes a
value that can be read at the type of the list. -/
def Fresh (w : World α) (node : Option ℕ) (val : KPtr α) : Prop :=
  (∀ a, node = some a → w.heap.get a = none) ∧
    (kmathValCtor val w.guard.opts.valType w.guard.opts.valCtor).isSome

/-- A node of the caller's that is not in the list. -/
def Loose (w : World α) (node : ℕ) : Prop := (w.heap.get node).isSome ∧ ¬ w.InList node

/-- What callers promise: anchors and removed nodes are in the list, raw nodes are
not. -/
def Valid (w : World α) : Call α → Prop
  | .insertHead node val | .insertTail node val => w.Fresh node val
  | .insertAfter anchor node val | .insertBefore anchor node val =>
      w.InList anchor ∧ w.Fresh node val
  | .insertHeadRaw node | .insertTailRaw node => w.Loose node
  | .insertAfterRaw anchor node | .insertBeforeRaw anchor node => w.InList anchor ∧ w.Loose node
  | .removeRaw node | .unlinkRaw node => w.InList node
  | .remove _ | .unlink _ => True

theorem putAfter_append {before a : ℕ} {l₁ l₂ : List ℕ} (h : before ∉ l₁) :
    putAfter before a (l₁ ++ before :: l₂) = l₁ ++ before :: a :: l₂ := by
  induction l₁ with
  | nil => simp [putAfter]
  | cons b l ih =>
      have hb : ¬ b = before := fun hb => h (by simp [hb])
      simp [putAfter, hb, ih fun hl => h (by simp [hl])]

theorem putBefore_append {after a : ℕ} {l₁ l₂ : List ℕ} (h : after ∉ l₁) :
    putBefore after a (l₁ ++ after :: l₂) = l₁ ++ a :: after :: l₂ := by
  induction l₁ with
  | nil => simp [putBefore]
  | cons b l ih =>
      have hb : ¬ b = after := fun hb => h (by simp [hb])
      simp [putBefore, hb, ih fun hl => h (by simp [hl])]

namespace Holds
variable {w : World α} {l : List ℕ} {a : ℕ}

theorem walk_next (H : Holds w l) : Walk w.nextLink w.guard.head l := by
  have hnext : w.nextLink = fun b => (w.links b).map Link.next := by
    funext b
    simp [nextLink, links, Function.comp_def]
  rw [hnext, H.head_eq]
  exact H.chain.walk_next

theorem walk_prev (H : Holds w l) : Walk w.prevLink w.guard.tail l.reverse := by
  have hprev : w.prevLink = fun b => (w.links b).map Link.prev := by
    funext b
    simp [prevLink, links, Function.comp_def]
  rw [hprev, H.tail_eq]
  exact H.chain.walk_prev

theorem inList_iff (H : Holds w l) : w.InList a ↔ a ∈ l := by
  constructor
  · rintro ⟨l', hw, ha⟩
    rwa [H.walk_next.unique hw]
  · exact fun ha => ⟨l, H.walk_next, ha⟩

/-- A node of the list splits it in one way. -/
theorem split (H : Holds w l) (ha : w.InList a) :
    ∃ l₁ l₂, l = l₁ ++ a :: l₂ ∧ a ∉ l₁ ∧ l.erase a = l₁ ++ l₂ := by
  obtain ⟨l₁, l₂, rfl⟩ := List.append_of_mem (H.inList_iff.mp ha)
  have hnot : a ∉ l₁ := fun h => H.notMem_of_middle (List.mem_append_left _ h)
  refine ⟨l₁, l₂, rfl, hnot, ?_⟩
  rw [List.erase_append_right _ hnot, List.erase_cons_head]

/-- The value form of an insertion, from its raw form.  Without memory for a node
the list stays as it is. -/
theorem insertWith_spec {link : World α → ℕ → Option (World α)} {f : ℕ → List ℕ}
    {node : Option ℕ} {val : KPtr α} (H : Holds w l) (hf : w.Fresh node val)
    (hlink : ∀ a w₁, a ∉ l → Holds w₁ l → (w₁.heap.get a).isSome →
      ∃ w', link w₁ a = some w' ∧ w'.guard.opts = w₁.guard.opts ∧ (w'.heap.get a).isSome ∧
        Holds w' (f a)) :
    ∃ r w', insertWith link w node val = some (r, w') ∧ Holds w' (node.elim l f) := by
  obtain ⟨hfresh, hval⟩ := hf
  cases node with
  | none =>
      exact ⟨.null, { w with kerrno := .nomem }, rfl, H.frame rfl rfl rfl fun _ _ => rfl⟩
  | some a =>
      obtain ⟨v, hv⟩ := Option.isSome_iff_exists.mp hval
      have hnot : a ∉ l := fun h => by simpa [hfresh a rfl] using H.isSome h
      have H₁ : Holds { w with heap := w.heap.alloc a ⟨none, none, v⟩ } l := by
        refine H.frame rfl rfl rfl fun b hb => ?_
        have hba : b ≠ a := fun h => hnot (h ▸ hb)
        simp only [links, Heap.get_alloc_of_ne _ _ _ hba]
      obtain ⟨w', hrun, -, hlive, H'⟩ := hlink a _ hnot H₁ (by simp)
      obtain ⟨x, hx⟩ := Option.isSome_iff_exists.mp hlive
      refine ⟨kmathValGet x.val w'.guard.opts.valType, w', ?_, H'⟩
      simp [insertWith, hv, hrun, hx]

/-- Inserting after an anchor in the list, as on the sequence. -/
theorem insertAfterRaw_apply {before : ℕ} (H : Holds w l) (hb : before ∈ l) (ha : a ∉ l)
    (hlive : (w.heap.get a).isSome) :
    ∃ w', w.insertAfterRaw before a = some w' ∧ w'.guard.opts = w.guard.opts ∧
      (w'.heap.get a).isSome ∧ Holds w' (putAfter before a l) := by
  obtain ⟨l₁, l₂, rfl, hnot, -⟩ := H.split (H.inList_iff.mpr hb)
  rw [putAfter_append hnot]
  exact H.insertAfterRaw_spec ha hlive

/-- Inserting before an anchor in the list, as on the sequence. -/
theorem insertBeforeRaw_apply {after : ℕ} (H : Holds w l) (hb : after ∈ l) (ha : a ∉ l)
    (hlive : (w.heap.get a).isSome) :
    ∃ w', w.insertBeforeRaw after a = some w' ∧ w'.guard.opts = w.guard.opts ∧
      (w'.heap.get a).isSome ∧ Holds w' (putBefore after a l) := by
  obtain ⟨l₁, l₂, rfl, hnot, -⟩ := H.split (H.inList_iff.mpr hb)
  rw [putBefore_append hnot]
  exact H.insertBeforeRaw_spec ha hlive

theorem Loose.notMem (H : Holds w l) (ha : w.Loose a) : a ∉ l := mt H.inList_iff.mpr ha.2

/-- **One call** on a list is the same call on its sequence of nodes. -/
theorem step_spec (H : Holds w l) {c : Call α} (hc : w.Valid c) :
    ∃ r w', w.step c = some (r, w') ∧ Holds w' (c.apply w l) := by
  cases c with
  | insertHead node val =>
      obtain ⟨r, w', hrun, H'⟩ := H.insertWith_spec hc fun a w₁ ha H₁ => H₁.insertHeadRaw_spec ha
      refine ⟨.val r, w', by simp [step, insertHead, hrun], ?_⟩
      cases node <;> exact H'
  | insertTail node val =>
      obtain ⟨r, w', hrun, H'⟩ := H.insertWith_spec hc fun a w₁ ha H₁ => H₁.insertTailRaw_spec ha
      refine ⟨.val r, w', by simp [step, insertTail, hrun], ?_⟩
      cases node <;> exact H'
  | insertAfter before node val =>
      have hb := H.inList_iff.mp hc.1
      obtain ⟨r, w', hrun, H'⟩ := H.insertWith_spec hc.2 fun a w₁ ha H₁ =>
        H₁.insertAfterRaw_apply hb ha
      refine ⟨.val r, w', by simp [step, insertAfter, hrun], ?_⟩
      cases node <;> exact H'
  | insertBefore after node val =>
      have hb := H.inList_iff.mp hc.1
      obtain ⟨r, w', hrun, H'⟩ := H.insertWith_spec hc.2 fun a w₁ ha H₁ =>
        H₁.insertBeforeRaw_apply hb ha
      refine ⟨.val r, w', by simp [step, insertBefore, hrun], ?_⟩
      cases node <;> exact H'
  | insertHeadRaw node =>
      obtain ⟨w', hrun, -, -, H'⟩ := H.insertHeadRaw_spec (Loose.notMem H hc) hc.1
      exact ⟨.void, w', by simp [step, hrun], H'⟩
  | insertTailRaw node =>
      obtain ⟨w', hrun, -, -, H'⟩ := H.insertTailRaw_spec (Loose.notMem H hc) hc.1
      exact ⟨.void, w', by simp [step, hrun], H'⟩
  | insertAfterRaw before node =>
      obtain ⟨w', hrun, -, -, H'⟩ := H.insertAfterRaw_apply (H.inList_iff.mp hc.1)
        (Loose.notMem H hc.2) hc.2.1
      exact ⟨.void, w', by simp [step, hrun], H'⟩
  | insertBeforeRaw after node =>
      obtain ⟨w', hrun, -, -, H'⟩ := H.insertBeforeRaw_apply (H.inList_iff.mp hc.1)
        (Loose.notMem H hc.2) hc.2.1
      exact ⟨.void, w', by simp [step, hrun], H'⟩
  | remove cmp =>
      obtain ⟨w', hrun, -, H'⟩ := H.remove_spec cmp
      exact ⟨.void, w', by simp [step, hrun], H'⟩
  | removeRaw node =>
      obtain ⟨l₁, l₂, rfl, -, herase⟩ := H.split hc
      obtain ⟨w', hrun, -, H'⟩ := H.removeRaw_spec
      exact ⟨.void, w', by simp [step, hrun], by rw [Call.apply, herase]; exact H'⟩
  | unlink cmp =>
      obtain ⟨r, w', hrun, -, H'⟩ := H.unlink_spec cmp
      exact ⟨.val r, w', by simp [step, hrun], H'⟩
  | unlinkRaw node =>
      obtain ⟨l₁, l₂, rfl, -, herase⟩ := H.split hc
      obtain ⟨w', hrun, -, -, H'⟩ := H.detach_spec
      exact ⟨.node node, w', by simp [step, unlinkRaw, hrun], by rw [Call.apply, herase]; exact H'⟩

end Holds

/-- Along a run the list holds the sequence its calls describe. -/
theorem run_holds_sequence {opts : KlistOpts α} {heap : Heap (KlistNode α)}
    {tr : List (Step (World α) (Call α) (Result α))} {w : World α}
    (h : Run step Valid (create opts heap) tr w) : Holds w (sequence tr) := by
  refine h.induct (P := fun tr w => Holds w (sequence tr)) (holds_create opts heap) ?_
  intro tr w c r w' _ H hc hs
  obtain ⟨r', w'', hs', H'⟩ := H.step_spec hc
  rw [hs'] at hs
  obtain ⟨rfl, rfl⟩ := Prod.mk.inj (Option.some.inj hs)
  rw [sequence, List.foldl_append]
  exact H'

/-- **The two chains of a list mirror each other.**  After every run from
`kylin_list_create`, following `next` from the head meets the sequence that the
calls describe, following `prev` from the tail meets it in reverse, its nodes are
distinct and as many as the count says, and every valid call returns. -/
theorem run_chains {opts : KlistOpts α} {heap : Heap (KlistNode α)}
    {tr : List (Step (World α) (Call α) (Result α))} {w : World α}
    (h : Run step Valid (create opts heap) tr w) :
    Walk w.nextLink w.guard.head (sequence tr) ∧
      Walk w.prevLink w.guard.tail (sequence tr).reverse ∧
      (sequence tr).Nodup ∧ w.guard.count = (sequence tr).length ∧
      ∀ c, w.Valid c → (w.step c).isSome := by
  have H := run_holds_sequence h
  refine ⟨H.walk_next, H.walk_prev, H.nodup, H.count_eq, fun c hc => ?_⟩
  obtain ⟨r, w', hs, -⟩ := H.step_spec hc
  simp [hs]

/-- Two values at the tail, one more after the first, and the first unlinked. -/
theorem run_chains_three :
    ∃ w : World ℕ, Walk w.nextLink w.guard.head [3, 2] ∧
      Walk w.prevLink w.guard.tail [2, 3] ∧ w.guard.count = 2 := by
  have hrun : Run step Valid (create ⟨.others, false, fun _ _ => 1⟩ ⟨fun _ => none⟩ : World ℕ)
      _ _ :=
    run_of_runList [.insertTail (some 1) (.user (.obj 10)), .insertTail (some 2) (.user (.obj 20)),
      .insertAfter 1 (some 3) (.user (.obj 30)), .unlinkRaw 1] rfl (by
        simp only [List.forall_mem_cons]
        refine ⟨⟨?_, rfl⟩, ⟨?_, rfl⟩, ⟨⟨[1, 2], ⟨rfl, _, rfl, rfl, _, rfl, rfl⟩, by simp⟩, ?_, rfl⟩,
          ⟨[1, 3, 2], ⟨rfl, _, rfl, rfl, _, rfl, rfl, _, rfl, rfl⟩, by simp⟩, by simp⟩
        · rintro a ⟨⟩
          rfl
        · rintro a ⟨⟩
          rfl
        · rintro a ⟨⟩
          rfl)
  obtain ⟨hnext, hprev, -, hcount, -⟩ := run_chains hrun
  exact ⟨_, hnext, hprev, hcount⟩

end World

end Klist

end Kylin
