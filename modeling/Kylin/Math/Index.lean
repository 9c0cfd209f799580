import Kylin.Arch.Word
import Kylin.Lib.Buckets
import Kylin.Math.Val

/-!
# The hash index

`lib/core/math/kylin_index.c`.  An index is the map of `kylin_map.c` without keys: a node
holds a value, which is hashed and compared itself.  It has the same two tables and moves
from one to the other in the same way.

What differs is who owns a node.  The operations by value make and free nodes themselves,
`kylin_index_unlink` returning the value alone; those by node take and return nodes, which
the caller has not linked in when he hands them over.  `kylin_index_remove` takes what
`kylin_index_unlink` returns for a node.

`kylin_index_clear` frees the nodes and leaves the tables pointing to them.  Such an entry
is `KindexSlot.freed`: it is not `NULL`, and following it is a fault.

The calls of destructors are logged, in order.

## Main definitions

* `KindexNode`, `KindexHt`, `Kindex`, `World` — the data of the source.
* `indexRehash`, `resize`, `clear`, `unlinkRaw`, `unlink`, `removeRaw`, `remove`,
  `insertRaw`, `insert`, `replace`, `find`, `count` — the operations.
* `step`, `Admitted` — the interface, and what its callers promise.
-/

namespace Kylin

open Lib

/-! ## Data -/

/-- `kindex_opts_t`: the parts the operations read.  `valCtor` says whether the allocator
has this callback. -/
structure KindexOpts (α : Type) where
  valType : Kobj
  valCtor : Bool
  hash : Cell α → UInt64
  compare : Cell α → Cell α → ℤ

/-- `struct kylin_index_node`, less its link, with its address. -/
structure KindexNode (α : Type) where
  addr : ℕ
  val : KmathVal α
  deriving DecidableEq, Repr

/-- An entry of a table: a chain, which is `NULL` if it is empty, or a pointer to memory
that has been freed. -/
inductive KindexSlot (α : Type)
  | chain (nodes : List (KindexNode α))
  | freed

/-- `kindex_ht_t`. -/
structure KindexHt (α : Type) where
  table : Option (Buffer (KindexSlot α))
  cap : ℕ
  mask : ℕ
  used : ℕ

/-- `struct kylin_index`.  `rehashidx` is `none` where the source has `-1`. -/
structure Kindex (α : Type) where
  opts : KindexOpts α
  ht0 : KindexHt α
  ht1 : KindexHt α
  rehashidx : Option ℕ

namespace KindexSlot
variable {α : Type}

/-- The entry is `NULL`. -/
def isNull : KindexSlot α → Bool
  | chain nodes => nodes.isEmpty
  | freed => false

/-- The nodes met by following the entry. -/
def follow : KindexSlot α → Option (List (KindexNode α))
  | chain nodes => some nodes
  | freed => none

end KindexSlot

namespace Kindex
variable {α : Type}

/-- A call of a destructor: of `INDEX_NODE_FREE` on a node, on `NULL` or on the memory of a
value; of `INDEX_VAL_FREE` on a value, or on the word that the memory of a value starts
with. -/
inductive Dtor (α : Type)
  | node (addr : ℕ)
  | nodeNull
  | nodeAt (p : KPtr α)
  | val (p : KPtr α)
  | valAt (p : KPtr α)
  deriving DecidableEq, Repr

/-- An index, the calls of destructors so far, and the error variable. -/
structure World (α : Type) where
  guard : Kindex α
  log : List (Dtor α)
  kerrno : Kerr

/-- `kmath_ht_reset`. -/
def htReset : KindexHt α := ⟨none, 0, 0, 0⟩

/-- `ht->table[index]`, followed. -/
def bucket (ht : KindexHt α) (index : ℕ) : Option (List (KindexNode α)) :=
  ht.table.bind fun t => (t.load index).bind KindexSlot.follow

/-- `ht->table[index] = slot`. -/
def setSlot (ht : KindexHt α) (index : ℕ) (slot : KindexSlot α) : Option (KindexHt α) :=
  ht.table.bind fun t => (t.store index slot).map fun t => { ht with table := some t }

/-- `INDEX_HASH_FUNC(guard)(val)`. -/
def hashOf (opts : KindexOpts α) (val : KPtr α) : Option ℕ :=
  val.deref.map fun c => (opts.hash c).toNat

/-- The hash of the value of a node. -/
def hashNode (opts : KindexOpts α) (node : KindexNode α) : Option ℕ :=
  hashOf opts (kmathValGet node.val opts.valType)

/-- The comparison of a stored value with the value of another node. -/
def cmpNode (opts : KindexOpts α) (node cmp : KindexNode α) : Option ℤ :=
  kmathValCmp node.val cmp.val opts.valType opts.compare

/-- The comparison of a stored value with a value. -/
def cmpRaw (opts : KindexOpts α) (val : KPtr α) (cmp : KindexNode α) : Option ℤ :=
  kmathValCmpRaw cmp.val val opts.valType opts.compare

/-- What destroying a node calls. -/
def destroyNode (opts : KindexOpts α) (node : KindexNode α) : List (Dtor α) :=
  (kmathValDtor node.val opts.valType).map .val ++ [.node node.addr]

namespace World

/-- `INDEX_IS_REHASHING`. -/
def isRehashing (w : World α) : Bool := w.guard.rehashidx.isSome

/-- `kylin_index_create`, on zero-filled memory. -/
def create (opts : KindexOpts α) : World α := ⟨⟨opts, htReset, htReset, none⟩, [], .ok⟩

/-- `_ht_need_expand`. -/
def htNeedExpand (w : World α) : Bool :=
  w.guard.ht0.cap = 0 || 5 < w.guard.ht0.used / w.guard.ht0.cap

/-! ## Rehashing -/

/-- One node of the bucket that `_index_rehash` moves. -/
def moveNode (w : World α) (node : KindexNode α) : Option (World α) := do
  let hash ← hashNode w.guard.opts node
  let idx := hash &&& w.guard.ht1.mask
  let chain ← bucket w.guard.ht1 idx
  match ← seek (cmpNode w.guard.opts node) chain with
  | some _ => some { w with log := w.log ++ destroyNode w.guard.opts node }
  | none => do
      let ht1 ← setSlot w.guard.ht1 idx (.chain (node :: chain))
      some { w with guard := { w.guard with
        ht0 := { w.guard.ht0 with used := w.guard.ht0.used - 1 }
        ht1 := { ht1 with used := ht1.used + 1 } } }

/-- `while(table[rehashidx] == NULL) rehashidx++`; `none` past the end of the table or
of an `int32_t`. -/
def scan (table : Buffer (KindexSlot α)) : ℕ → ℕ → Option ℕ :=
  probe (fun slot => !slot.isNull) (2 ^ 31) table

/-- One turn of the outer loop of `_index_rehash`. -/
def rehashTurn (w : World α) : Option (World α) := do
  let table ← w.guard.ht0.table
  let i ← scan table (table.size + 1) (← w.guard.rehashidx)
  let w ← (← (← table.load i).follow).foldlM moveNode w
  let ht0 ← setSlot w.guard.ht0 i (.chain [])
  if i + 1 < 2 ^ 31 then
    some { w with guard := { w.guard with ht0 := ht0, rehashidx := some (i + 1) } }
  else none

/-- The outer loop of `_index_rehash`. -/
def rehashLoop : ℕ → World α → Option (World α)
  | 0, w => some w
  | step + 1, w =>
      if w.guard.ht0.used = 0 then some w
      else do rehashLoop step (← w.rehashTurn)

/-- `_index_rehash`. -/
def indexRehash (w : World α) (step : ℕ) : Option (World α) :=
  if w.isRehashing then do
    let w ← rehashLoop step w
    if w.guard.ht0.used = 0 then
      some { w with guard := { w.guard with
        ht0 := w.guard.ht1, ht1 := htReset, rehashidx := none } }
    else some w
  else some w

/-- `if(INDEX_IS_REHASHING(guard)) _index_rehash(guard, 1)`, with which every modification
starts. -/
def settle (w : World α) : Option (World α) := if w.isRehashing then w.indexRehash 1 else some w

/-! ## The operations -/

/-- `kylin_index_count`. -/
def count (w : World α) : ℕ := w.guard.ht0.used + w.guard.ht1.used

/-- `kylin_index_resize`; `mem` says whether `kylin_malloc` gives the table. -/
def resize (w : World α) (mem : Bool) (count : ℕ) : Option (Kerr × World α) :=
  if w.isRehashing then some (.busy, w)
  else do
    let realCount ← roundupPowOfTwo count
    if realCount = w.guard.ht0.cap then some (.exist, w)
    else
      let newHt : KindexHt α :=
        ⟨if mem then some ⟨realCount, fun _ => .chain []⟩ else none, realCount, realCount - 1, 0⟩
      if w.guard.ht0.table.isNone then
        some (.ok, { w with guard := { w.guard with ht0 := newHt } })
      else some (.ok, { w with guard := { w.guard with ht1 := newHt, rehashidx := some 0 } })

/-- One turn of the loop of `_ht_clear`, with the log.  The loop has ended when `used` is
zero. -/
def clearBucket (opts : KindexOpts α) (p : KindexHt α × List (Dtor α)) (i : ℕ) :
    Option (KindexHt α × List (Dtor α)) :=
  if p.1.used = 0 then some p
  else do
    let chain ← bucket p.1 i
    if chain.isEmpty then some p
    else do
      let ht ← setSlot p.1 i .freed
      some ({ ht with used := ht.used - chain.length }, p.2 ++ chain.flatMap (destroyNode opts))

/-- `_ht_clear`, of a table that is there. -/
def htClear (opts : KindexOpts α) (ht : KindexHt α) (log : List (Dtor α)) :
    Option (KindexHt α × List (Dtor α)) :=
  if ht.table.isNone then some (ht, log)
  else (List.range ht.cap).foldlM (clearBucket opts) (ht, log)

/-- `kylin_index_clear`. -/
def clear (w : World α) : Option (World α) := do
  let (ht0, log) ← htClear w.guard.opts w.guard.ht0 w.log
  let (ht1, log) ← htClear w.guard.opts w.guard.ht1 log
  some { w with guard := { w.guard with ht0 := ht0, ht1 := ht1, rehashidx := none }, log := log }

/-- The loop over both tables that removal, replacement and lookup share: the table and
the place where a node compares equal.  The loop ends early at a table that is not there,
and, if `stop`, after `ht[0]` when the index is not rehashing. -/
def searchBoth (w : World α) (stop : Bool) (hash : ℕ) (cmp : KindexNode α → Option ℤ) :
    Option (Option (Bool × List (KindexNode α) × KindexNode α × List (KindexNode α))) :=
  if w.guard.ht0.table.isNone then some none
  else do
    match ← seek cmp (← bucket w.guard.ht0 (hash &&& w.guard.ht0.mask)) with
    | some r => some (some (false, r))
    | none =>
        if (stop && !w.isRehashing) || w.guard.ht1.table.isNone then some none
        else do
          match ← seek cmp (← bucket w.guard.ht1 (hash &&& w.guard.ht1.mask)) with
          | some r => some (some (true, r))
          | none => some none

/-- The table that the flag of `searchBoth` names. -/
def ht (w : World α) (second : Bool) : KindexHt α := if second then w.guard.ht1 else w.guard.ht0

/-- Store a table back. -/
def setHt (w : World α) (second : Bool) (ht : KindexHt α) : World α :=
  if second then { w with guard := { w.guard with ht1 := ht } }
  else { w with guard := { w.guard with ht0 := ht } }

/-- The body that `kylin_index_unlink_raw` and `kylin_index_unlink` have in common, for a
hash and a comparison. -/
def unlinkBy (w : World α) (hash : Option ℕ) (cmp : KindexNode α → Option ℤ) :
    Option (Option (KindexNode α) × World α) := do
  let w ← w.settle
  let hash ← hash
  match ← w.searchBoth true hash cmp with
  | none => some (none, w)
  | some (second, before, node, behind) => do
      let ht ← setSlot (w.ht second) (hash &&& (w.ht second).mask) (.chain (before ++ behind))
      some (some node, w.setHt second { ht with used := ht.used - 1 })

/-- `kylin_index_unlink_raw`. -/
def unlinkRaw (w : World α) (node : KindexNode α) : Option (Option (KindexNode α) × World α) :=
  w.unlinkBy (hashNode w.guard.opts node) (cmpNode w.guard.opts node)

/-- `kylin_index_unlink`: the value, the node being freed.  For an integer type the pointer
returned is into the node. -/
def unlink (w : World α) (val : KPtr α) : Option (KPtr α × World α) := do
  let (node, w) ← w.unlinkBy (hashOf w.guard.opts val) (cmpRaw w.guard.opts val)
  match node with
  | none => some (.null, w)
  | some node => some (kmathValGet node.val w.guard.opts.valType,
      { w with log := w.log ++ [.node node.addr] })

/-- `kylin_index_remove_raw`. -/
def removeRaw (w : World α) (cmp : KindexNode α) : Option (Kerr × World α) := do
  let (node, w) ← w.unlinkRaw cmp
  match node with
  | none => some (.nodata, w)
  | some node => some (.ok, { w with log := w.log ++ destroyNode w.guard.opts node })

/-- `kylin_index_remove`.  What it destroys as a node is the memory of the value. -/
def remove (w : World α) (cmp : KPtr α) : Option (Kerr × World α) := do
  let (node, w) ← w.unlink cmp
  match node with
  | .null => some (.nodata, w)
  | node => some (.ok, { w with log := w.log ++
      ((if w.guard.opts.valType.IsInt then [] else [.valAt node]) ++ [.nodeAt node]) })

/-- The expansion with which an insertion starts; `mem` is for the new table. -/
def expand (w : World α) (mem : Bool) : Option (World α) :=
  if w.htNeedExpand then
    (w.resize mem (if w.guard.ht0.cap = 0 then 4 else w.guard.ht0.used * 2)).map Prod.snd
  else some w

/-- The table `kylin_index_insert_raw` inserts into. -/
def insertHt (w : World α) : KindexHt α := w.ht w.isRehashing

/-- The end of `kylin_index_insert_raw`: the node with the value of `node` in the table, or
`node` itself, put there. -/
def insertInto (w : World α) (node : KindexNode α) : Option (Option (KindexNode α) × World α) :=
  if w.insertHt.table.isNone then some (none, { w with kerrno := .noent })
  else do
    let hash ← hashNode w.guard.opts node
    let idx := hash &&& w.insertHt.mask
    let chain ← bucket w.insertHt idx
    match ← seek (cmpNode w.guard.opts node) chain with
    | some (_, cmp, _) => some (some cmp, w)
    | none => do
        let ht ← setSlot w.insertHt idx (.chain (node :: chain))
        some (some node, w.setHt w.isRehashing { ht with used := ht.used + 1 })

/-- `kylin_index_insert_raw`. -/
def insertRaw (w : World α) (mem : Bool) (node : KindexNode α) :
    Option (Option (KindexNode α) × World α) := do
  let w ← w.expand mem
  let w ← w.settle
  w.insertInto node

/-- `kylin_index_insert`; `node` is the answer of the node allocator.  When there is no
table the value of a null node is destroyed, which for an integer type does nothing. -/
def insert (w : World α) (node : Option ℕ) (mem : Bool) (val : KPtr α) :
    Option (KPtr α × World α) :=
  match node with
  | none => some (.null, { w with kerrno := .nomem })
  | some addr => do
      let v ← kmathValCtor val w.guard.opts.valType w.guard.opts.valCtor
      let (node, w) ← w.insertRaw mem ⟨addr, v⟩
      match node with
      | none =>
          if w.guard.opts.valType.IsInt then some (.null, { w with log := w.log ++ [.nodeNull] })
          else none
      | some node => some (kmathValGet node.val w.guard.opts.valType, w)

/-- `kylin_index_replace`. -/
def replace (w : World α) (val : KPtr α) : Option (Option (KindexNode α) × World α) := do
  let w ← w.settle
  let hash ← hashOf w.guard.opts val
  match ← w.searchBoth false hash (cmpRaw w.guard.opts val) with
  | none => some (none, w)
  | some (second, before, cmp, behind) => do
      let v ← kmathValCtor val w.guard.opts.valType w.guard.opts.valCtor
      let new := { cmp with val := v }
      let ht ← setSlot (w.ht second) (hash &&& (w.ht second).mask)
        (.chain (before ++ new :: behind))
      some (some new, { w.setHt second ht with
        log := w.log ++ (kmathValDtor cmp.val w.guard.opts.valType).map .val })

/-- `kylin_index_find`. -/
def find (w : World α) (val : KPtr α) : Option (Option (KindexNode α)) := do
  let hash ← hashOf w.guard.opts val
  match ← w.searchBoth true hash (cmpRaw w.guard.opts val) with
  | none => some none
  | some (_, _, cmp, _) => some (some cmp)

/-! ## Calls -/

/-- The calls of the interface.  `addr` is the address of the node allocated. -/
inductive Call (α : Type)
  | insert (val : Cell α) (addr : ℕ)
  | insertRaw (node : KindexNode α)
  | remove (val : Cell α)
  | removeRaw (node : KindexNode α)
  | unlink (val : Cell α)
  | unlinkRaw (node : KindexNode α)
  | replace (val : Cell α)
  | find (val : Cell α)
  | resize (count : ℕ)
  | clear

/-- What a call returns. -/
inductive Answer (α : Type)
  | val (p : KPtr α)
  | node (node : Option (KindexNode α))
  | code (code : Kerr)
  | none
  deriving DecidableEq

/-- A call, with allocations that succeed. -/
def step (w : World α) : Call α → Option (Answer α × World α)
  | .insert val addr => (w.insert (some addr) true (.user val)).map (Prod.map .val id)
  | .insertRaw node => (w.insertRaw true node).map (Prod.map .node id)
  | .remove val => (w.remove (.user val)).map (Prod.map .code id)
  | .removeRaw node => (w.removeRaw node).map (Prod.map .code id)
  | .unlink val => (w.unlink (.user val)).map (Prod.map .val id)
  | .unlinkRaw node => (w.unlinkRaw node).map (Prod.map .node id)
  | .replace val => (w.replace (.user val)).map (Prod.map .node id)
  | .find val => (w.find (.user val)).map fun r => (.node r, w)
  | .resize count => (w.resize true count).map (Prod.map .code id)
  | .clear => w.clear.map fun w => (.none, w)

/-- The nodes that are linked in. -/
def linked (w : World α) : List (KindexNode α) :=
  [w.guard.ht0, w.guard.ht1].flatMap fun ht => ht.table.elim [] fun t =>
    (List.range t.size).flatMap fun i => (t.get i).follow.getD []

/-- The calls a caller may make: with counts in range, and with nodes of his own. -/
def Admitted (w : World α) : Call α → Prop
  | .resize count => 2 ≤ count ∧ count ≤ 2 ^ 31
  | .insertRaw node => ∀ x ∈ w.linked, x.addr ≠ node.addr
  | _ => True

instance (w : World α) (call : Call α) : Decidable (w.Admitted call) :=
  match call with
  | .resize _ => inferInstanceAs (Decidable (_ ≤ _ ∧ _ ≤ _))
  | .insertRaw _ => inferInstanceAs (Decidable (∀ x ∈ w.linked, _ ≠ _))
  | .insert .. | .remove _ | .removeRaw _ | .unlink _ | .unlinkRaw _ | .replace _ | .find _
  | .clear => .isTrue trivial

end World

end Kindex

end Kylin
