import Kylin.Arch.Word
import Kylin.Lib.Buckets
import Kylin.Lib.Run
import Kylin.Math.Val

/-!
# The hash map with incremental rehashing

`lib/core/math/kylin_map.c`.  A map has two tables.  Entries live in `ht[0]` until a
resize gives `ht[1]` a table of another size; from then on every modification first
moves one bucket of `ht[0]` over, and when `ht[0]` is empty `ht[1]` takes its place.

A lookup or removal searches both tables.  An insertion searches only the table it
inserts into, which is `ht[1]` while a move is under way: a key whose bucket has not
been moved yet is not seen, and is stored a second time.

Chains are lists of nodes, in order; a node carries the address it was allocated at.
The calls `kylin_malloc` makes succeed or fail as an argument says.

## Main definitions

* `KmapNode`, `KmapHt`, `Kmap`, `World` — the data of the source.
* `mapRehash`, `resize`, `unlink`, `remove`, `insert`, `replace`, `find`, `count` — the
  operations.
* `Good` — the invariant of the two tables.
* `World.Refines` — what a map should be to its reference, a `Finmap`.
* `World.lagging` — a key that the next insertion would not see.

## Main results

* `World.mapRehash_spec` — moving buckets changes neither contents nor invariant.
* `World.find_spec`, `unlink_spec`, `replace_spec`, `insert_spec`, `resize_spec` — the
  operations, on the nodes of the map.
* `World.run_refines` — every run that does not insert a lagging key refines the
  reference.
-/

namespace Kylin

open Lib

/-! ## Data -/

/-- `kmap_opts_t`: the parts the operations read.  `keyCtor` and `valCtor` say whether
the allocator has these callbacks. -/
structure KmapOpts (K : Type) where
  keyType : Kobj
  keyCtor : Bool
  valCtor : Bool
  hash : Cell K → UInt64
  keyCmp : Cell K → Cell K → ℤ

/-- `struct kylin_map_node`, less its link, with its address. -/
structure KmapNode (K V : Type) where
  addr : ℕ
  key : KmathVal K
  val : KmathVal V
  valType : Kobj
  valSize : ℕ
  deriving DecidableEq, Repr

/-- `kmap_ht_t`. -/
structure KmapHt (K V : Type) where
  table : Option (Buffer (List (KmapNode K V)))
  cap : ℕ
  mask : ℕ
  used : ℕ

/-- `struct kylin_map`.  `rehashidx` is `none` where the source has `-1`. -/
structure Kmap (K V : Type) where
  opts : KmapOpts K
  ht0 : KmapHt K V
  ht1 : KmapHt K V
  rehashidx : Option ℕ

namespace Kmap

/-- A map, the nodes destroyed so far, the values `kylin_map_replace` destroyed, and the
error variable. -/
structure World (K V : Type) where
  guard : Kmap K V
  freed : List (KmapNode K V)
  dropped : List (KPtr V)
  kerrno : Kerr

variable {K V : Type}

/-- `kmath_ht_reset`. -/
def htReset : KmapHt K V := ⟨none, 0, 0, 0⟩

/-- `ht->table[index]`. -/
def bucket (ht : KmapHt K V) (index : ℕ) : Option (List (KmapNode K V)) :=
  ht.table.bind fun t => t.load index

/-- `ht->table[index] = chain`. -/
def setBucket (ht : KmapHt K V) (index : ℕ) (chain : List (KmapNode K V)) : Option (KmapHt K V) :=
  ht.table.bind fun t => (t.store index chain).map fun t => { ht with table := some t }

/-- `MAP_HASH_FUNC(guard)(key)`. -/
def hashOf (opts : KmapOpts K) (key : KPtr K) : Option ℕ :=
  key.deref.map fun c => (opts.hash c).toNat

/-- The hash of the key of a node. -/
def hashNode (opts : KmapOpts K) (node : KmapNode K V) : Option ℕ :=
  hashOf opts (kmathValGet node.key opts.keyType)

/-- The comparison of a stored key with the key of another node. -/
def cmpNode (opts : KmapOpts K) (node cmp : KmapNode K V) : Option ℤ :=
  kmathValCmp node.key cmp.key opts.keyType opts.keyCmp

/-- The comparison of a stored key with a key. -/
def cmpRaw (opts : KmapOpts K) (key : KPtr K) (cmp : KmapNode K V) : Option ℤ :=
  kmathValCmpRaw cmp.key key opts.keyType opts.keyCmp

/-- `while(cmp)`: the first node of a chain that compares equal, with the nodes before
and behind it. -/
def walk (cmp : KmapNode K V → Option ℤ) : List (KmapNode K V) →
    Option (Option (List (KmapNode K V) × KmapNode K V × List (KmapNode K V))) := seek cmp

namespace World

/-- `MAP_IS_REHASHING`. -/
def isRehashing (w : World K V) : Bool := w.guard.rehashidx.isSome

/-- `kylin_map_create`, on zero-filled memory. -/
def create (opts : KmapOpts K) : World K V := ⟨⟨opts, htReset, htReset, none⟩, [], [], .ok⟩

/-- `_ht_need_expand`. -/
def htNeedExpand (w : World K V) : Bool :=
  w.guard.ht0.cap = 0 || 5 < w.guard.ht0.used / w.guard.ht0.cap

/-! ## Rehashing -/

/-- One node of the bucket that `_map_rehash` moves. -/
def moveNode (w : World K V) (node : KmapNode K V) : Option (World K V) := do
  let hash ← hashNode w.guard.opts node
  let index := hash &&& w.guard.ht1.mask
  let chain ← bucket w.guard.ht1 index
  match ← walk (cmpNode w.guard.opts node) chain with
  | some _ => some { w with freed := w.freed ++ [node] }
  | none => do
      let ht1 ← setBucket w.guard.ht1 index (node :: chain)
      some { w with guard := { w.guard with
        ht0 := { w.guard.ht0 with used := w.guard.ht0.used - 1 }
        ht1 := { ht1 with used := ht1.used + 1 } } }

/-- `while(table[rehashidx] == NULL) rehashidx++`; `none` past the end of the table or
of an `int32_t`. -/
def scan (table : Buffer (List (KmapNode K V))) : ℕ → ℕ → Option ℕ :=
  probe (fun chain => !chain.isEmpty) (2 ^ 31) table

/-- One turn of the outer loop of `_map_rehash`. -/
def rehashTurn (w : World K V) : Option (World K V) := do
  let table ← w.guard.ht0.table
  let i ← scan table (table.size + 1) (← w.guard.rehashidx)
  let w ← (← table.load i).foldlM moveNode w
  let ht0 ← setBucket w.guard.ht0 i []
  if i + 1 < 2 ^ 31 then
    some { w with guard := { w.guard with ht0 := ht0, rehashidx := some (i + 1) } }
  else none

/-- The outer loop of `_map_rehash`. -/
def rehashLoop : ℕ → World K V → Option (World K V)
  | 0, w => some w
  | step + 1, w =>
      if w.guard.ht0.used = 0 then some w
      else do rehashLoop step (← w.rehashTurn)

/-- `_map_rehash`. -/
def mapRehash (w : World K V) (step : ℕ) : Option (World K V) :=
  if w.isRehashing then do
    let w ← rehashLoop step w
    if w.guard.ht0.used = 0 then
      some { w with guard := { w.guard with
        ht0 := w.guard.ht1, ht1 := htReset, rehashidx := none } }
    else some w
  else some w

/-- `if(MAP_IS_REHASHING(guard)) _map_rehash(guard, 1)`, with which every modification
starts. -/
def settle (w : World K V) : Option (World K V) := if w.isRehashing then w.mapRehash 1 else some w

/-! ## The operations -/

/-- `kylin_map_count`. -/
def count (w : World K V) : ℕ := w.guard.ht0.used + w.guard.ht1.used

/-- `kylin_map_resize`; `mem` says whether `kylin_malloc` gives the table. -/
def resize (w : World K V) (mem : Bool) (count : ℕ) : Option (Kerr × World K V) :=
  if w.isRehashing then some (.busy, w)
  else do
    let realCount ← roundupPowOfTwo count
    if realCount = w.guard.ht0.cap then some (.exist, w)
    else
      let newHt : KmapHt K V :=
        ⟨if mem then some ⟨realCount, fun _ => []⟩ else none, realCount, realCount - 1, 0⟩
      if w.guard.ht0.table.isNone then
        some (.ok, { w with guard := { w.guard with ht0 := newHt } })
      else some (.ok, { w with guard := { w.guard with ht1 := newHt, rehashidx := some 0 } })

/-- The search of one table for `key`: nothing found, or the chain index and the walk. -/
def search (w : World K V) (ht : KmapHt K V) (hash : ℕ) (key : KPtr K) :
    Option (Option (List (KmapNode K V) × KmapNode K V × List (KmapNode K V))) := do
  let chain ← bucket ht (hash &&& ht.mask)
  walk (cmpRaw w.guard.opts key) chain

/-- The loop over both tables that removal, replacement and lookup share: the table and
the place where `key` was found.  The loop ends early at a table that is not there,
and, if `stop`, after `ht[0]` when the map is not rehashing. -/
def searchBoth (w : World K V) (stop : Bool) (hash : ℕ) (key : KPtr K) :
    Option (Option (Bool × List (KmapNode K V) × KmapNode K V × List (KmapNode K V))) :=
  if w.guard.ht0.table.isNone then some none
  else do
    match ← w.search w.guard.ht0 hash key with
    | some r => some (some (false, r))
    | none =>
        if (stop && !w.isRehashing) || w.guard.ht1.table.isNone then some none
        else do
          match ← w.search w.guard.ht1 hash key with
          | some r => some (some (true, r))
          | none => some none

/-- The table that the flag of `searchBoth` names. -/
def ht (w : World K V) (second : Bool) : KmapHt K V := if second then w.guard.ht1 else w.guard.ht0

/-- Store a table back. -/
def setHt (w : World K V) (second : Bool) (ht : KmapHt K V) : World K V :=
  if second then { w with guard := { w.guard with ht1 := ht } }
  else { w with guard := { w.guard with ht0 := ht } }

/-- `kylin_map_unlink`. -/
def unlink (w : World K V) (key : KPtr K) : Option (Option (KmapNode K V) × World K V) := do
  let w ← w.settle
  let hash ← hashOf w.guard.opts key
  match ← w.searchBoth true hash key with
  | none => some (none, w)
  | some (second, before, cmp, behind) => do
      let ht ← setBucket (w.ht second) (hash &&& (w.ht second).mask) (before ++ behind)
      some (some cmp, w.setHt second { ht with used := ht.used - 1 })

/-- `kylin_map_remove`. -/
def remove (w : World K V) (key : KPtr K) : Option (Kerr × World K V) := do
  let (node, w) ← w.unlink key
  match node with
  | none => some (.nodata, w)
  | some node => some (.ok, { w with freed := w.freed ++ [node] })

/-- The expansion with which an insertion starts; `mem` is for the new table. -/
def expand (w : World K V) (mem : Bool) : Option (World K V) :=
  if w.htNeedExpand then
    (w.resize mem (if w.guard.ht0.cap = 0 then 4 else w.guard.ht0.used * 2)).map Prod.snd
  else some w

/-- The table `kylin_map_insert_raw` inserts into. -/
def insertHt (w : World K V) : KmapHt K V := w.ht w.isRehashing

/-- The end of `kylin_map_insert_raw`: the node with the key of `node` in the table, or
`node` itself, put there. -/
def insertInto (w : World K V) (node : KmapNode K V) :
    Option (Option (KmapNode K V) × World K V) :=
  if w.insertHt.table.isNone then some (none, { w with kerrno := .noent })
  else do
    let hash ← hashNode w.guard.opts node
    let index := hash &&& w.insertHt.mask
    let chain ← bucket w.insertHt index
    match ← walk (cmpNode w.guard.opts node) chain with
    | some (_, cmp, _) => some (some cmp, w)
    | none => do
        let ht ← setBucket w.insertHt index (node :: chain)
        some (some node, w.setHt w.isRehashing { ht with used := ht.used + 1 })

/-- `kylin_map_insert_raw`. -/
def insertRaw (w : World K V) (mem : Bool) (node : KmapNode K V) :
    Option (Option (KmapNode K V) × World K V) := do
  let w ← w.expand mem
  let w ← w.settle
  w.insertInto node

/-- `kylin_map_insert`; `node` is the answer of the node allocator. -/
def insert (w : World K V) (node : Option ℕ) (mem : Bool) (key : KPtr K) (val : KPtr V)
    (valType : Kobj) (size : ℕ) : Option (Option (KmapNode K V) × World K V) :=
  match node with
  | none => some (none, { w with kerrno := .nomem })
  | some addr => do
      let k ← kmathValCtor key w.guard.opts.keyType w.guard.opts.keyCtor
      let v ← kmathValCtor val valType w.guard.opts.valCtor
      w.insertRaw mem ⟨addr, k, v, valType, size⟩

/-- `kylin_map_replace`. -/
def replace (w : World K V) (key : KPtr K) (val : KPtr V) (valType : Kobj) (size : ℕ) :
    Option (Option (KmapNode K V) × World K V) := do
  let w ← w.settle
  let hash ← hashOf w.guard.opts key
  match ← w.searchBoth false hash key with
  | none => some (none, w)
  | some (second, before, cmp, behind) => do
      let v ← kmathValCtor val valType w.guard.opts.valCtor
      let new := { cmp with val := v, valType := valType, valSize := size }
      let ht ← setBucket (w.ht second) (hash &&& (w.ht second).mask) (before ++ new :: behind)
      some (some new, { w.setHt second ht with
        dropped := w.dropped ++ kmathValDtor cmp.val cmp.valType })

/-- `kylin_map_find`. -/
def find (w : World K V) (key : KPtr K) : Option (Option (KmapNode K V)) := do
  let hash ← hashOf w.guard.opts key
  match ← w.searchBoth true hash key with
  | none => some none
  | some (_, _, cmp, _) => some (some cmp)

end World

/-! ## The invariant -/

/-- The callbacks as a map with a pointer key type needs them. -/
structure Lawful (opts : KmapOpts K) : Prop where
  pointer : opts.keyType.IsPointer
  cmp_zero : ∀ a b, opts.keyCmp a b = 0 ↔ a = b

/-- The key that a node holds. -/
def cell (node : KmapNode K V) : Option (Cell K) := node.key.ptr.deref

/-- The nodes of a table. -/
def stored (ht : KmapHt K V) : List (KmapNode K V) := ht.table.elim [] contents

/-- The nodes of a map. -/
def nodes (m : Kmap K V) : List (KmapNode K V) := stored m.ht0 ++ stored m.ht1

/-- A table: sized by a power of two, every node in the bucket of its hash, and `used`
exact. -/
structure HtGood (opts : KmapOpts K) (ht : KmapHt K V) : Prop where
  size_eq : ∀ t, ht.table = some t → t.size = ht.cap
  cap_pow : ∀ t, ht.table = some t → isPowOfTwo ht.cap = true
  cap_lt : ∀ t, ht.table = some t → ht.cap < 2 ^ 31
  mask_eq : ∀ t, ht.table = some t → ht.mask = ht.cap - 1
  placed : ∀ t, ht.table = some t → ∀ i, i < t.size → ∀ x ∈ t.get i,
    ∃ c, cell x = some c ∧ (opts.hash c).toNat &&& ht.mask = i
  used_eq : ht.used = (stored ht).length

/-- A map: good tables, no key in two nodes, a second table exactly while rehashing, and
then nothing in the first below `rehashidx`. -/
structure Good (m : Kmap K V) : Prop where
  ht0 : HtGood m.opts m.ht0
  ht1 : HtGood m.opts m.ht1
  distinct : ((nodes m).map cell).Nodup
  second : m.ht1.table.isSome = m.rehashidx.isSome
  below : ∀ idx t, m.rehashidx = some idx → m.ht0.table = some t → ∀ j, j < idx → t.get j = []

theorem htGood_reset (opts : KmapOpts K) : HtGood opts (htReset : KmapHt K V) := by
  constructor <;> simp [htReset, stored]

/-! ## Tables -/

section Table
variable {opts : KmapOpts K} {ht : KmapHt K V} {t : Buffer (List (KmapNode K V))} {c : Cell K}

theorem stored_of_table (ht' : ht.table = some t) : stored ht = contents t := by
  simp [stored, ht']

/-- The bucket of a key is inside the table. -/
theorem HtGood.index_lt (H : HtGood opts ht) (hn : ht.table = some t) (hash : ℕ) :
    hash &&& ht.mask < t.size := by
  have hpow := H.cap_pow t hn
  rw [H.size_eq t hn, H.mask_eq t hn, and_pred_eq_mod hpow]
  refine Nat.mod_lt _ ?_
  rcases (isPowOfTwo_iff _).mp hpow with ⟨k, hk⟩
  rw [hk]
  exact Nat.two_pow_pos k

theorem HtGood.bucket_eq (H : HtGood opts ht) (hn : ht.table = some t) (hash : ℕ) :
    bucket ht (hash &&& ht.mask) = some (t.get (hash &&& ht.mask)) := by
  rw [bucket, hn, Option.bind_some, Buffer.load_of_lt (H.index_lt hn hash)]

/-- A node is in the bucket of its key. -/
theorem HtGood.mem_bucket (H : HtGood opts ht) (hn : ht.table = some t) {x : KmapNode K V}
    (hx : x ∈ stored ht) (hc : cell x = some c) : x ∈ t.get ((opts.hash c).toNat &&& ht.mask) := by
  rw [stored_of_table hn] at hx
  rcases mem_contents.mp hx with ⟨i, hi, hmem⟩
  rcases H.placed t hn i hi x hmem with ⟨d, hd, rfl⟩
  rw [hc, Option.some.injEq] at hd
  rwa [hd]

/-- Every node of a table holds a key. -/
theorem HtGood.exists_cell (H : HtGood opts ht) {x : KmapNode K V} (hx : x ∈ stored ht) :
    ∃ c, cell x = some c := by
  cases hn : ht.table with
  | none => simp [stored, hn] at hx
  | some t =>
      rw [stored_of_table hn] at hx
      rcases mem_contents.mp hx with ⟨i, hi, hmem⟩
      exact (H.placed t hn i hi x hmem).imp fun _ h => h.1

/-- **Exchanging a bucket.**  With `used` set right, the table stays good. -/
theorem HtGood.setBucket (H : HtGood opts ht) (hn : ht.table = some t) {i : ℕ} (hi : i < t.size)
    (chain : List (KmapNode K V))
    (hplaced : ∀ x ∈ chain, ∃ c, cell x = some c ∧ (opts.hash c).toNat &&& ht.mask = i) :
    ∃ rest, setBucket ht i chain =
        some { ht with table := some { t with get := Function.update t.get i chain } } ∧
      (stored ht).Perm (t.get i ++ rest) ∧
      ∀ n, let ht' : KmapHt K V :=
          { ht with table := some { t with get := Function.update t.get i chain }, used := n }
        (stored ht').Perm (chain ++ rest) ∧ (n = (chain ++ rest).length → HtGood opts ht') := by
  rcases contents_store hi chain with ⟨rest, hold, hnew⟩
  refine ⟨rest, ?_, by rwa [stored_of_table hn], fun n => ⟨hnew, fun hused => ?_⟩⟩
  · rw [Kmap.setBucket, hn, Option.bind_some, Buffer.store_of_lt hi, Option.map_some]
  constructor
  · intro t' ht'
    cases ht'
    exact H.size_eq t hn
  · intro _ _
    exact H.cap_pow t hn
  · intro _ _
    exact H.cap_lt t hn
  · intro _ _
    exact H.mask_eq t hn
  · intro t' ht' j hj x hx
    cases ht'
    dsimp only at hx ⊢
    by_cases hij : j = i
    · subst hij
      rw [Function.update_self] at hx
      exact hplaced x hx
    · rw [Function.update_of_ne hij] at hx
      exact H.placed t hn j hj x hx
  · rw [hused]
    exact hnew.length_eq.symm

end Table

/-! ## Chains -/

section Chain
variable {opts : KmapOpts K} {c d : Cell K}

theorem cmpNode_eq (L : Lawful opts) {node x : KmapNode K V} (hn : cell node = some c)
    (hx : cell x = some d) : cmpNode opts node x = some (opts.keyCmp c d) :=
  kmathValCmp_of_isPointer L.pointer hn hx _

theorem cmpRaw_eq (L : Lawful opts) {x : KmapNode K V} (hx : cell x = some d) :
    cmpRaw opts (.user c) x = some (opts.keyCmp d c) :=
  kmathValCmpRaw_of_isPointer L.pointer hx rfl _

theorem hashNode_eq (L : Lawful opts) {node : KmapNode K V} (hn : cell node = some c) :
    hashNode opts node = some (opts.hash c).toNat := by
  rw [hashNode, kmathValGet_of_isPointer L.pointer, hashOf]
  exact congrArg (Option.map _) hn

/-- The walk of an insertion or a move looks for the key of its node. -/
theorem walk_cmpNode (L : Lawful opts) {node : KmapNode K V} (hn : cell node = some c)
    {chain : List (KmapNode K V)} (hchain : ∀ x ∈ chain, ∃ d, cell x = some d) :
    ∃ r, walk (cmpNode opts node) chain = some r ∧
      (∀ before x behind, r = some (before, x, behind) →
        chain = before ++ x :: behind ∧ cell x = some c) ∧
      (r = none → ∀ x ∈ chain, cell x ≠ some c) := by
  refine seek_spec fun x hx => ?_
  rcases hchain x hx with ⟨d, hd⟩
  refine ⟨_, cmpNode_eq L hn hd, ?_⟩
  rw [L.cmp_zero, hd, Option.some.injEq, eq_comm]

/-- The walk of a search looks for its key. -/
theorem walk_cmpRaw (L : Lawful opts) {chain : List (KmapNode K V)}
    (hchain : ∀ x ∈ chain, ∃ d, cell x = some d) :
    ∃ r, walk (cmpRaw opts (.user c)) chain = some r ∧
      (∀ before x behind, r = some (before, x, behind) →
        chain = before ++ x :: behind ∧ cell x = some c) ∧
      (r = none → ∀ x ∈ chain, cell x ≠ some c) := by
  refine seek_spec fun x hx => ?_
  rcases hchain x hx with ⟨d, hd⟩
  refine ⟨_, cmpRaw_eq L hd, ?_⟩
  rw [L.cmp_zero, hd, Option.some.injEq]

end Chain

/-! ## Moving a bucket -/

namespace World
variable {w w' : World K V}

/-- A node whose key is not in `ht[1]` is moved there. -/
theorem moveNode_spec (L : Lawful w.guard.opts) (H : HtGood w.guard.opts w.guard.ht1)
    (hn : w.guard.ht1.table.isSome) {node : KmapNode K V} {c : Cell K} (hc : cell node = some c)
    (hnew : ∀ x ∈ stored w.guard.ht1, cell x ≠ some c) :
    ∃ ht1, w.moveNode node = some { w with guard := { w.guard with
        ht0 := { w.guard.ht0 with used := w.guard.ht0.used - 1 }, ht1 := ht1 } } ∧
      HtGood w.guard.opts ht1 ∧ ht1.table.isSome ∧
      (stored ht1).Perm (node :: stored w.guard.ht1) := by
  rcases Option.isSome_iff_exists.mp hn with ⟨t, ht⟩
  have hi := H.index_lt ht (w.guard.opts.hash c).toNat
  have hbucket := H.bucket_eq ht (w.guard.opts.hash c).toNat
  rcases walk_cmpNode L hc fun x hx => (H.placed t ht _ hi x hx).imp fun _ h => h.1 with
    ⟨r, hwalk, hsome, -⟩
  -- no node of the bucket has the key
  have hr : r = none := by
    rcases r with _ | ⟨before, x, behind⟩
    · rfl
    · rcases hsome before x behind rfl with ⟨hchain, hx⟩
      refine absurd hx (hnew x ?_)
      rw [stored_of_table ht]
      exact mem_contents.mpr ⟨_, hi, by rw [hchain]; simp⟩
  subst hr
  rcases H.setBucket ht hi (node :: t.get _) (by
    intro x hx
    rcases List.mem_cons.mp hx with rfl | hx
    · exact ⟨c, hc, rfl⟩
    · exact H.placed t ht _ hi x hx) with ⟨rest, hset, hold, hstore⟩
  rcases hstore (w.guard.ht1.used + 1) with ⟨hperm, hgood⟩
  refine ⟨_, ?_, hgood ?_, rfl, hperm.trans (hold.symm.cons node)⟩
  · simp [moveNode, hashNode_eq L hc, hbucket, hwalk, hset]
  · rw [H.used_eq, hold.length_eq]
    simp

/-- A chain whose keys are not in `ht[1]` is moved there. -/
theorem moveChain_spec (chain : List (KmapNode K V)) :
    ∀ {w : World K V}, Lawful w.guard.opts → HtGood w.guard.opts w.guard.ht1 →
      w.guard.ht1.table.isSome → (∀ x ∈ chain, ∃ c, cell x = some c) →
      ((chain ++ stored w.guard.ht1).map cell).Nodup →
    ∃ ht1, chain.foldlM moveNode w = some { w with guard := { w.guard with
        ht0 := { w.guard.ht0 with used := w.guard.ht0.used - chain.length }, ht1 := ht1 } } ∧
      HtGood w.guard.opts ht1 ∧ ht1.table.isSome ∧
      (stored ht1).Perm (chain ++ stored w.guard.ht1) := by
  induction chain with
  | nil =>
      intro w _ H hn _ _
      exact ⟨w.guard.ht1, by simp, H, hn, List.Perm.refl _⟩
  | cons x xs ih =>
      intro w L H hn hcell hnodup
      rcases hcell x (by simp) with ⟨c, hc⟩
      have hnew : ∀ y ∈ stored w.guard.ht1, cell y ≠ some c := by
        intro y hy hcy
        refine (List.nodup_cons.mp hnodup).1 (List.mem_map.mpr ⟨y, ?_, hcy.trans hc.symm⟩)
        simp [hy]
      rcases moveNode_spec L H hn hc hnew with ⟨ht1, hmove, H1, hn1, hperm1⟩
      have hmid : (xs ++ stored ht1).Perm (x :: xs ++ stored w.guard.ht1) :=
        (hperm1.append_left xs).trans List.perm_middle
      rcases ih (w := { w with guard := { w.guard with
          ht0 := { w.guard.ht0 with used := w.guard.ht0.used - 1 }, ht1 := ht1 } }) L H1 hn1
        (fun y hy => hcell y (by simp [hy])) ((hmid.map cell).nodup_iff.mpr hnodup) with
        ⟨ht1', hfold, H2, hn2, hperm2⟩
      refine ⟨ht1', ?_, H2, hn2, hperm2.trans hmid⟩
      rw [List.foldlM_cons, hmove]
      simpa [Nat.sub_sub, Nat.add_comm] using hfold

/-- The bucket that is moved next: the first that is not empty. -/
theorem exists_next {m : Kmap K V} (G : Good m) {idx : ℕ} (hidx : m.rehashidx = some idx)
    (hused : m.ht0.used ≠ 0) :
    ∃ t i, m.ht0.table = some t ∧ i < t.size ∧ t.size < 2 ^ 31 ∧ t.get i ≠ [] ∧
      (∀ j, j < i → t.get j = []) ∧ scan t (t.size + 1) idx = some i := by
  have hstored : stored m.ht0 ≠ [] := by
    intro h
    rw [G.ht0.used_eq, h] at hused
    exact hused rfl
  rcases hn : m.ht0.table with _ | t
  · simp [stored, hn] at hstored
  rw [stored_of_table hn] at hstored
  rcases exists_first_chain hstored with ⟨i, F⟩
  have hne : t.get i ≠ [] := by simpa using F.here
  have hsize : t.size < 2 ^ 31 := by
    rw [G.ht0.size_eq t hn]
    exact G.ht0.cap_lt t hn
  have hle : idx ≤ i := by
    by_contra hlt
    exact hne (G.below idx t hidx hn i (by omega))
  refine ⟨t, i, rfl, F.lt, hsize, hne, fun j hj => by simpa using F.skip j (Nat.zero_le j) hj, ?_⟩
  have F' : FirstAt (fun chain => !chain.isEmpty) t idx i :=
    ⟨hle, F.lt, F.here, fun j _ => F.skip j (Nat.zero_le j)⟩
  have hi := F.lt
  exact F'.probe_eq (by omega) _ (by omega)

/-- **One turn of `_map_rehash`.**  The first bucket that is not empty goes to `ht[1]`. -/
theorem rehashTurn_spec (L : Lawful w.guard.opts) (G : Good w.guard) {idx : ℕ}
    (hidx : w.guard.rehashidx = some idx) (hused : w.guard.ht0.used ≠ 0) :
    ∃ t i m, w.guard.ht0.table = some t ∧ i < t.size ∧ t.get i ≠ [] ∧
      (∀ j, j < i → t.get j = []) ∧ w.rehashTurn = some { w with guard := m } ∧
      m.opts = w.guard.opts ∧ m.rehashidx = some (i + 1) ∧
      m.ht0.table = some { t with get := Function.update t.get i [] } ∧
      Good m ∧ (nodes m).Perm (nodes w.guard) := by
  rcases exists_next G hidx hused with ⟨t, i, hn, hi, hsize, hne, hfirst, hscan⟩
  rcases G.ht0.setBucket hn hi [] (by simp) with ⟨rest, -, hold, hstore⟩
  rcases hstore (w.guard.ht0.used - (t.get i).length) with ⟨hperm0, hgood0⟩
  -- what is moved, what stays, and what is there already have different keys
  have hall : (nodes w.guard).Perm (rest ++ (t.get i ++ stored w.guard.ht1)) := by
    refine (hold.append_right _).trans ?_
    rw [← List.append_assoc]
    exact List.perm_append_comm.append_right _
  have hnodup : ((rest ++ (t.get i ++ stored w.guard.ht1)).map cell).Nodup :=
    (hall.map cell).nodup_iff.mp G.distinct
  have hn1 : w.guard.ht1.table.isSome := by rw [G.second, hidx]; rfl
  rcases moveChain_spec (t.get i) L G.ht1 hn1
    (fun x hx => (G.ht0.placed t hn i hi x hx).imp fun _ h => h.1)
    (by rw [List.map_append] at hnodup; exact hnodup.of_append_right) with
    ⟨ht1, hmove, H1, hn1', hperm1⟩
  refine ⟨t, i, { w.guard with
      ht0 := { w.guard.ht0 with
        table := some { t with get := Function.update t.get i [] }
        used := w.guard.ht0.used - (t.get i).length }
      ht1 := ht1
      rehashidx := some (i + 1) }, hn, hi, hne, hfirst, ?_, rfl, rfl, rfl, ?_⟩
  · simp only [rehashTurn, hn, hidx, Option.bind_eq_bind, Option.bind_some, hscan,
      Buffer.load_of_lt hi, hmove, setBucket, Buffer.store_of_lt hi, Option.map_some]
    rw [if_pos (by omega)]
  have hnodes : (rest ++ stored ht1).Perm (nodes w.guard) :=
    (hperm1.append_left rest).trans hall.symm
  have hperm := (hperm0.append_right (stored ht1)).trans hnodes
  refine ⟨⟨hgood0 ?_, H1, ?_, by rw [hn1']; rfl, ?_⟩, hperm⟩
  · rw [G.ht0.used_eq, hold.length_eq]
    simp
  · exact (hperm.map cell).nodup_iff.mpr G.distinct
  · intro idx' t' hidx' hn' j hj
    cases hidx'
    cases hn'
    dsimp only
    by_cases hji : j = i
    · rw [hji, Function.update_self]
    · rw [Function.update_of_ne hji]
      exact hfirst j (by omega)

/-- **The loop of `_map_rehash`.** -/
theorem rehashLoop_spec (step : ℕ) :
    ∀ {w : World K V}, Lawful w.guard.opts → Good w.guard → w.isRehashing →
    ∃ m, rehashLoop step w = some { w with guard := m } ∧ m.opts = w.guard.opts ∧ Good m ∧
      m.rehashidx.isSome ∧ (nodes m).Perm (nodes w.guard) ∧
      m.ht0.table.isSome = w.guard.ht0.table.isSome := by
  induction step with
  | zero =>
      intro w _ G hre
      exact ⟨w.guard, rfl, rfl, G, hre, .refl _, rfl⟩
  | succ step ih =>
      intro w L G hre
      by_cases hused : w.guard.ht0.used = 0
      · exact ⟨w.guard, by rw [rehashLoop, if_pos hused], rfl, G, hre, .refl _, rfl⟩
      rcases Option.isSome_iff_exists.mp hre with ⟨idx, hidx⟩
      rcases rehashTurn_spec L G hidx hused with
        ⟨t, i, m, hn, -, -, -, hturn, hopts, hidxm, hnm, Gm, hperm⟩
      have Lm : Lawful m.opts := by rw [hopts]; exact L
      rcases ih (w := { w with guard := m }) Lm Gm (by simp [isRehashing, hidxm]) with
        ⟨m', hloop, hopts', G', hidx', hperm', htable⟩
      dsimp only at hopts' hperm' htable
      refine ⟨m', ?_, hopts'.trans hopts, G', hidx', hperm'.trans hperm, ?_⟩
      · rw [rehashLoop, if_neg hused, hturn]
        exact hloop
      · rw [htable, hnm, hn]
        rfl

/-- What holds of a map between calls: it is good, it has no size before it has a table,
and only a map that has one is rehashing. -/
structure Ready (w : World K V) : Prop where
  lawful : Lawful w.guard.opts
  good : Good w.guard
  cap_zero : w.guard.ht0.table = none → w.guard.ht0.cap = 0
  first : w.isRehashing → w.guard.ht0.table.isSome

/-- **`_map_rehash` keeps the map.** -/
theorem mapRehash_spec (R : Ready w) (step : ℕ) :
    ∃ m, w.mapRehash step = some { w with guard := m } ∧ m.opts = w.guard.opts ∧
      Ready { w with guard := m } ∧ (nodes m).Perm (nodes w.guard) ∧
      (w.guard.ht0.table.isSome → m.ht0.table.isSome) := by
  by_cases hre : w.isRehashing = true
  · rcases rehashLoop_spec step R.lawful R.good hre with ⟨m, hloop, hopts, G, hidx, hperm, htable⟩
    have hfirst : m.ht0.table.isSome := by rw [htable]; exact R.first hre
    have hsecond : m.ht1.table.isSome := by rw [G.second]; exact hidx
    have L : Lawful m.opts := by rw [hopts]; exact R.lawful
    by_cases hused : m.ht0.used = 0
    · have hswap : nodes { m with ht0 := m.ht1, ht1 := htReset, rehashidx := none } = nodes m := by
        have hnil : stored m.ht0 = [] := by
          rw [← List.length_eq_zero_iff, ← G.ht0.used_eq, hused]
        rw [nodes, nodes, hnil, List.nil_append]
        exact List.append_nil _
      refine ⟨{ m with ht0 := m.ht1, ht1 := htReset, rehashidx := none }, ?_, hopts,
        ⟨L, ?_, ?_, by simp [isRehashing]⟩, ?_, fun _ => hsecond⟩
      · simp [mapRehash, hre, hloop, hused]
      · exact ⟨G.ht1, htGood_reset _, by rw [hswap]; exact G.distinct, rfl, by simp⟩
      · intro h
        rw [h] at hsecond
        cases hsecond
      · rw [hswap]
        exact hperm
    · refine ⟨m, by simp [mapRehash, hre, hloop, hused], hopts, ⟨L, G, ?_, fun _ => hfirst⟩, hperm,
        fun _ => hfirst⟩
      intro h
      rw [h] at hfirst
      cases hfirst
  · exact ⟨w.guard, by simp [mapRehash, hre], rfl, R, .refl _, id⟩

theorem settle_eq (w : World K V) : w.settle = w.mapRehash 1 := by
  by_cases hre : w.isRehashing = true
  · rw [settle, if_pos hre]
  · rw [settle, if_neg hre, mapRehash, if_neg hre]

/-- What one call of `_map_rehash` leaves behind in `ht[0]` was behind another bucket. -/
theorem settle_leaves (R : Ready w) (h : w.settle = some w') (hre : w'.isRehashing) :
    w.isRehashing ∧ ∀ x ∈ stored w'.guard.ht0, ∃ t i j, w.guard.ht0.table = some t ∧ j < i ∧
      i < t.size ∧ t.get j ≠ [] ∧ x ∈ t.get i := by
  rw [settle_eq] at h
  by_cases hre0 : w.isRehashing = true
  · refine ⟨hre0, fun x hx => ?_⟩
    by_cases hused : w.guard.ht0.used = 0
    · simp only [mapRehash, hre0, if_true, rehashLoop, hused, Option.bind_eq_bind, Option.bind_some,
        Option.some.injEq] at h
      subst h
      cases hre
    rcases Option.isSome_iff_exists.mp hre0 with ⟨idx, hidx⟩
    rcases rehashTurn_spec R.lawful R.good hidx hused with
      ⟨t, i, m, hn, hi, hne, hfirst, hturn, -, -, hnm, -, -⟩
    simp only [mapRehash, hre0, if_true, rehashLoop, hused, if_false, hturn, Option.bind_eq_bind,
      Option.bind_some] at h
    split at h
    · cases h
      cases hre
    · cases h
      rw [stored_of_table hnm] at hx
      rcases mem_contents.mp hx with ⟨j, hj, hmem⟩
      dsimp only at hj hmem
      by_cases hji : j = i
      · rw [hji, Function.update_self] at hmem
        cases hmem
      · rw [Function.update_of_ne hji] at hmem
        refine ⟨t, j, i, hn, ?_, hj, hne, hmem⟩
        by_contra hle
        rw [hfirst j (by omega)] at hmem
        cases hmem
  · rw [mapRehash, if_neg hre0] at h
    cases h
    exact absurd hre hre0

/-! ## Searching -/

theorem hashOf_user (opts : KmapOpts K) (c : Cell K) :
    hashOf opts (.user c) = some (opts.hash c).toNat := rfl

/-- Searching one table for a key. -/
theorem search_spec (L : Lawful w.guard.opts) {ht : KmapHt K V} (H : HtGood w.guard.opts ht)
    {t : Buffer (List (KmapNode K V))} (hn : ht.table = some t) (c : Cell K) :
    ∃ r, w.search ht (w.guard.opts.hash c).toNat (.user c) = some r ∧
      (∀ before x behind, r = some (before, x, behind) →
        t.get ((w.guard.opts.hash c).toNat &&& ht.mask) = before ++ x :: behind ∧
          cell x = some c) ∧
      (r = none → ∀ x ∈ stored ht, cell x ≠ some c) := by
  have hi := H.index_lt hn (w.guard.opts.hash c).toNat
  rcases walk_cmpRaw L fun x hx => (H.placed t hn _ hi x hx).imp fun _ h => h.1 with
    ⟨r, hwalk, hsome, hnone⟩
  refine ⟨r, ?_, hsome, ?_⟩
  · rw [search, H.bucket_eq hn]
    exact hwalk
  · intro hr x hx hc
    exact hnone hr x (H.mem_bucket hn hx hc) hc

/-- A table of a good map. -/
theorem Ready.htGood (R : Ready w) (second : Bool) : HtGood w.guard.opts (w.ht second) := by
  cases second with
  | false => exact R.good.ht0
  | true => exact R.good.ht1

/-- A map without a first table is idle and empty, if only a map with one is rehashing. -/
theorem idle_of_table_eq_none (G : Good w.guard)
    (hfirst : w.isRehashing → w.guard.ht0.table.isSome) (hn : w.guard.ht0.table = none) :
    w.isRehashing = false ∧ nodes w.guard = [] := by
  have hre : w.isRehashing = false := by
    rw [← Bool.not_eq_true]
    intro hre
    have := hfirst hre
    rw [hn] at this
    cases this
  have hn1 : w.guard.ht1.table = none := by
    rw [← Option.not_isSome_iff_eq_none, G.second]
    simpa [isRehashing] using hre
  exact ⟨hre, by simp [nodes, stored, hn, hn1]⟩

/-- **Searching both tables.**  The loop finds the node with the key, if the map has
one. -/
theorem searchBoth_spec (R : Ready w) (stop : Bool) (c : Cell K) :
    ∃ r, w.searchBoth stop (w.guard.opts.hash c).toNat (.user c) = some r ∧
      (∀ second before x behind, r = some (second, before, x, behind) →
        ∃ t, (w.ht second).table = some t ∧
          t.get ((w.guard.opts.hash c).toNat &&& (w.ht second).mask) = before ++ x :: behind ∧
          cell x = some c) ∧
      (r = none → ∀ x ∈ nodes w.guard, cell x ≠ some c) := by
  cases hn0 : w.guard.ht0.table with
  | none =>
      refine ⟨none, by simp [searchBoth, hn0], by simp, fun _ x hx => ?_⟩
      rw [(idle_of_table_eq_none R.good R.first hn0).2] at hx
      cases hx
  | some t =>
      rcases search_spec R.lawful R.good.ht0 hn0 c with ⟨r, hr, hsome, hnone⟩
      rcases r with _ | ⟨before, x, behind⟩
      · cases hn1 : w.guard.ht1.table with
        | none =>
            refine ⟨none, by simp [searchBoth, hn0, hn1, hr], by simp, fun _ x hx => ?_⟩
            have hx0 : x ∈ stored w.guard.ht0 := by simpa [nodes, stored, hn1] using hx
            exact hnone rfl x hx0
        | some t1 =>
            have hre : w.isRehashing = true := by
              rw [isRehashing, ← R.good.second, hn1]
              rfl
            rcases search_spec R.lawful R.good.ht1 hn1 c with ⟨r1, hr1, hsome1, hnone1⟩
            rcases r1 with _ | ⟨before, x, behind⟩
            · refine ⟨none, by simp [searchBoth, hn0, hn1, hr, hr1, hre], by simp, fun _ x hx => ?_⟩
              rcases List.mem_append.mp hx with hx | hx
              · exact hnone rfl x hx
              · exact hnone1 rfl x hx
            · refine ⟨some (true, before, x, behind), by simp [searchBoth, hn0, hn1, hr, hr1, hre],
                ?_, by simp⟩
              intro _ _ _ _ heq
              cases heq
              exact ⟨t1, hn1, hsome1 before x behind rfl⟩
      · refine ⟨some (false, before, x, behind), by simp [searchBoth, hn0, hr], ?_, by simp⟩
        intro _ _ _ _ heq
        cases heq
        exact ⟨t, hn0, hsome before x behind rfl⟩

/-! ## Exchanging a bucket of the map -/

/-- Every node of a map holds a key. -/
theorem Ready.exists_cell (R : Ready w) {x : KmapNode K V} (hx : x ∈ nodes w.guard) :
    ∃ c, cell x = some c := by
  rcases List.mem_append.mp hx with hx | hx
  · exact R.good.ht0.exists_cell hx
  · exact R.good.ht1.exists_cell hx

theorem nodes_setHt (w : World K V) (second : Bool) (ht : KmapHt K V) :
    (nodes (w.setHt second ht).guard).Perm (stored ht ++ stored (w.ht !second)) := by
  cases second with
  | false => exact .refl _
  | true => exact List.perm_append_comm

theorem nodes_perm (w : World K V) (second : Bool) :
    (nodes w.guard).Perm (stored (w.ht second) ++ stored (w.ht !second)) := by
  cases second with
  | false => exact .refl _
  | true => exact List.perm_append_comm

/-- The nodes of a bucket are nodes of the map. -/
theorem mem_nodes {second : Bool} {tb : Buffer (List (KmapNode K V))}
    (hn : (w.ht second).table = some tb) {i : ℕ} (hi : i < tb.size) {x : KmapNode K V}
    (hx : x ∈ tb.get i) : x ∈ nodes w.guard := by
  refine (nodes_perm w second).mem_iff.mpr (List.mem_append_left _ ?_)
  rw [stored_of_table hn]
  exact mem_contents.mpr ⟨i, hi, hx⟩

/-- The other nodes of a bucket belong there. -/
theorem Ready.placed_around (R : Ready w) {second : Bool} {tb : Buffer (List (KmapNode K V))}
    (hn : (w.ht second).table = some tb) {i : ℕ} (hi : i < tb.size)
    {before behind : List (KmapNode K V)} {x : KmapNode K V}
    (hchain : tb.get i = before ++ x :: behind) :
    ∀ y ∈ before ++ behind, ∃ d, cell y = some d ∧
      (w.guard.opts.hash d).toNat &&& (w.ht second).mask = i := by
  intro y hy
  refine (R.htGood second).placed tb hn i hi y ?_
  rw [hchain]
  rcases List.mem_append.mp hy with hy | hy
  · exact List.mem_append_left _ hy
  · exact List.mem_append_right _ (List.mem_cons_of_mem _ hy)

/-- **Exchanging a bucket of the map.**  The nodes before and after have everything but
the bucket in common; if their keys are distinct and `used` is set right, the map is
ready again. -/
theorem Ready.exchange (R : Ready w) (second : Bool) {t : Buffer (List (KmapNode K V))}
    (hn : (w.ht second).table = some t) {i : ℕ} (hi : i < t.size) (chain : List (KmapNode K V))
    (hplaced : ∀ x ∈ chain, ∃ c, cell x = some c ∧
      (w.guard.opts.hash c).toNat &&& (w.ht second).mask = i)
    (hbelow : w.isRehashing → second = false → t.get i = [] → chain = []) :
    ∃ ht rest, setBucket (w.ht second) i chain = some ht ∧ ht.used = (w.ht second).used ∧
      (nodes w.guard).Perm (t.get i ++ rest) ∧
      ∀ n, (nodes (w.setHt second { ht with used := n }).guard).Perm (chain ++ rest) ∧
        (n + (t.get i).length = (w.ht second).used + chain.length →
          ((chain ++ rest).map cell).Nodup → Ready (w.setHt second { ht with used := n })) := by
  have H := R.htGood second
  rcases H.setBucket hn hi chain hplaced with ⟨rest, hset, hold, hstore⟩
  refine ⟨_, rest ++ stored (w.ht !second), hset, rfl, ?_, fun n => ?_⟩
  · rw [← List.append_assoc]
    exact (nodes_perm w second).trans (hold.append_right _)
  rcases hstore n with ⟨hperm, hgood⟩
  have hnodes := (nodes_setHt w second _).trans (hperm.append_right (stored (w.ht !second)))
  rw [List.append_assoc] at hnodes
  refine ⟨hnodes, fun hn' hnodup => ?_⟩
  have Hnew := hgood (by
    have hlen := hold.length_eq
    rw [← H.used_eq, List.length_append] at hlen
    rw [List.length_append]
    omega)
  have hdistinct := (hnodes.map cell).nodup_iff.mpr hnodup
  cases second with
  | false =>
      refine ⟨R.lawful, ⟨Hnew, R.good.ht1, hdistinct, R.good.second, ?_⟩, ?_, fun _ => rfl⟩
      · intro idx t' hidx ht' j hj
        cases ht'
        dsimp only
        have hempty := R.good.below idx t hidx hn j hj
        by_cases hji : j = i
        · subst hji
          rw [Function.update_self]
          refine hbelow ?_ rfl hempty
          exact Option.isSome_iff_exists.mpr ⟨idx, hidx⟩
        · rw [Function.update_of_ne hji]
          exact hempty
      · intro h
        cases h
  | true =>
      have hre : w.guard.rehashidx.isSome := by
        rw [← R.good.second]
        exact Option.isSome_iff_exists.mpr ⟨t, hn⟩
      exact ⟨R.lawful, ⟨R.good.ht0, Hnew, hdistinct, hre.symm, R.good.below⟩, R.cap_zero, R.first⟩

/-- **`kylin_map_find`.**  It returns the node with the key, if the map has one. -/
theorem find_spec (R : Ready w) (c : Cell K) :
    ∃ r, w.find (.user c) = some r ∧
      (∀ x, r = some x → x ∈ nodes w.guard ∧ cell x = some c) ∧
      (r = none → ∀ x ∈ nodes w.guard, cell x ≠ some c) := by
  rcases searchBoth_spec R true c with ⟨r, hr, hsome, hnone⟩
  rcases r with _ | ⟨second, before, x, behind⟩
  · exact ⟨none, by simp [World.find, hashOf_user, hr], by simp, fun _ => hnone rfl⟩
  · refine ⟨some x, by simp [World.find, hashOf_user, hr], ?_, by simp⟩
    intro y hy
    cases hy
    rcases hsome second before x behind rfl with ⟨tb, hn, hchain, hc⟩
    have hi := (R.htGood second).index_lt hn (w.guard.opts.hash c).toNat
    exact ⟨mem_nodes hn hi (by rw [hchain]; simp), hc⟩

/-- The step with which every modification starts. -/
theorem Ready.settle (R : Ready w) :
    ∃ w', w.settle = some w' ∧ Ready w' ∧ (nodes w'.guard).Perm (nodes w.guard) ∧
      w'.guard.opts = w.guard.opts ∧
      (w.guard.ht0.table.isSome → w'.guard.ht0.table.isSome) := by
  rcases mapRehash_spec R 1 with ⟨m, hm, hopts, R', hperm, htable⟩
  exact ⟨{ w with guard := m }, (settle_eq w).trans hm, R', hperm, hopts, htable⟩

/-- **`kylin_map_unlink`.**  It takes out the node with the key, if the map has one. -/
theorem unlink_spec (R : Ready w) (c : Cell K) :
    ∃ r w', w.unlink (.user c) = some (r, w') ∧ w'.guard.opts = w.guard.opts ∧ Ready w' ∧
      (r = none → (nodes w'.guard).Perm (nodes w.guard) ∧
        ∀ x ∈ nodes w.guard, cell x ≠ some c) ∧
      ∀ x, r = some x → cell x = some c ∧ (nodes w.guard).Perm (x :: nodes w'.guard) := by
  rcases R.settle with ⟨w1, hsettle, R1, hperm1, hopts, -⟩
  rcases searchBoth_spec R1 true c with ⟨r, hr, hsome, hnone⟩
  rcases r with _ | ⟨second, before, x, behind⟩
  · refine ⟨none, w1, ?_, hopts, R1, fun _ => ⟨hperm1, ?_⟩, by simp⟩
    · rw [World.unlink, hsettle]
      simp [hashOf_user, hr]
    · intro y hy
      exact hnone rfl y (hperm1.mem_iff.mpr hy)
  · rcases hsome second before x behind rfl with ⟨tb, hn, hchain, hcx⟩
    have hi := (R1.htGood second).index_lt hn (w1.guard.opts.hash c).toNat
    rcases R1.exchange second hn hi (before ++ behind) (R1.placed_around hn hi hchain)
      (by intro _ _ hnil; rw [hchain] at hnil; simp at hnil) with
      ⟨ht, rest, hset, hused, hold, hnew⟩
    rcases hnew (ht.used - 1) with ⟨hperm, hready⟩
    rw [hchain] at hold hready
    -- the node found in front, then the others
    have hfront : (nodes w1.guard).Perm (x :: (before ++ behind ++ rest)) := by
      rw [List.append_assoc] at hold
      rw [List.append_assoc]
      exact hold.trans List.perm_middle
    have hdistinct := (hfront.map cell).nodup_iff.mp R1.good.distinct
    have hpos : 0 < (w1.ht second).used := by
      rw [(R1.htGood second).used_eq, List.length_pos_iff, stored_of_table hn]
      exact List.ne_nil_of_mem (a := x) (mem_contents.mpr ⟨_, hi, by rw [hchain]; simp⟩)
    refine ⟨some x, w1.setHt second { ht with used := ht.used - 1 }, ?_, ?_,
      hready ?_ (List.nodup_cons.mp hdistinct).2, by simp, ?_⟩
    · rw [World.unlink, hsettle]
      simp [hashOf_user, hr, hset]
    · cases second <;> exact hopts
    · rw [hused]
      simp only [List.length_append, List.length_cons]
      omega
    · intro y hy
      cases hy
      exact ⟨hcx, (hperm1.symm.trans hfront).trans (hperm.symm.cons x)⟩

/-! ## Resizing -/

/-- A new table is good. -/
theorem htGood_new (opts : KmapOpts K) {k : ℕ} (hk : k < 31) :
    HtGood opts (⟨some ⟨2 ^ k, fun _ => []⟩, 2 ^ k, 2 ^ k - 1, 0⟩ : KmapHt K V) where
  size_eq := by
    intro t ht
    cases ht
    rfl
  cap_pow := fun _ _ => (isPowOfTwo_iff _).mpr ⟨k, rfl⟩
  cap_lt := fun _ _ => Nat.pow_lt_pow_right (by decide) hk
  mask_eq := fun _ _ => rfl
  placed := by
    intro t ht i _ x hx
    cases ht
    cases hx
  used_eq := by simp [stored]

/-- **`kylin_map_resize`.**  The contents stay; a map without a table has one after it. -/
theorem resize_spec (R : Ready w) (count : ℕ)
    (hcount : w.isRehashing = false → 2 ≤ count ∧ count ≤ 2 ^ 31) :
    ∃ code w', w.resize true count = some (code, w') ∧ w'.guard.opts = w.guard.opts ∧ Ready w' ∧
      nodes w'.guard = nodes w.guard ∧
      (w'.guard.ht0 = w.guard.ht0 ∧ w.guard.ht0.table.isSome ∨
        w'.isRehashing = false ∧ w'.guard.ht0.table.isSome) := by
  by_cases hre : w.isRehashing = true
  · exact ⟨.busy, w, by rw [World.resize, if_pos hre], rfl, R, rfl, .inl ⟨rfl, R.first hre⟩⟩
  rw [Bool.not_eq_true] at hre
  rcases hcount hre with ⟨h2, hle⟩
  have hround := roundupPowOfTwo_eq h2 (by omega)
  have hlog : Nat.log2 (count - 1) < 31 := (Nat.log2_lt (by omega)).mpr (by omega)
  have hnew := htGood_new (V := V) w.guard.opts hlog
  generalize Nat.log2 (count - 1) = k at hround hlog hnew
  by_cases hsame : 2 ^ k = w.guard.ht0.cap
  · refine ⟨.exist, w, by simp [World.resize, hre, hround, hsame], rfl, R, rfl, .inl ⟨rfl, ?_⟩⟩
    rw [← Option.ne_none_iff_isSome]
    intro hnone
    have := R.cap_zero hnone
    have := Nat.two_pow_pos k
    omega
  have hidx : w.guard.rehashidx = none := by simpa [isRehashing] using hre
  have hn1 : w.guard.ht1.table = none := by
    rw [← Option.not_isSome_iff_eq_none, R.good.second, hidx]
    simp
  cases hn0 : w.guard.ht0.table with
  | none =>
      refine ⟨.ok, { w with guard := { w.guard with
          ht0 := ⟨some ⟨2 ^ k, fun _ => []⟩, 2 ^ k, 2 ^ k - 1, 0⟩ } },
        by simp [World.resize, hre, hround, hsame, hn0], rfl, ?_,
        by simp [nodes, stored, hn0, hn1], .inr ⟨hre, rfl⟩⟩
      refine ⟨R.lawful, ⟨hnew, R.good.ht1, ?_, R.good.second, ?_⟩, by simp, ?_⟩
      · simp [nodes, stored, hn1]
      · simp [hidx]
      · intro _
        rfl
  | some tb =>
      have hnodes : nodes { w.guard with
          ht1 := ⟨some ⟨2 ^ k, fun _ => []⟩, 2 ^ k, 2 ^ k - 1, 0⟩, rehashidx := some 0 } =
          nodes w.guard := by
        simp [nodes, stored, hn0, hn1]
      refine ⟨.ok, { w with guard := { w.guard with
          ht1 := ⟨some ⟨2 ^ k, fun _ => []⟩, 2 ^ k, 2 ^ k - 1, 0⟩, rehashidx := some 0 } },
        by simp [World.resize, hre, hround, hsame, hn0], rfl, ?_, hnodes, .inl ⟨rfl, by simp⟩⟩
      refine ⟨R.lawful, ⟨R.good.ht0, hnew, ?_, rfl, ?_⟩, R.cap_zero, ?_⟩
      · rw [hnodes]
        exact R.good.distinct
      · intro idx _ hidx' _ j hj
        cases hidx'
        omega
      · intro _
        simp [hn0]

/-- The expansion asks for a number of buckets that `kylin_map_resize` may be given. -/
def expands (w : World K V) : Bool :=
  w.isRehashing || !w.htNeedExpand || w.guard.ht0.used * 2 ≤ 2 ^ 31

/-- The expansion before an insertion. -/
theorem expand_spec (R : Ready w) (hexp : w.expands = true) :
    ∃ w', w.expand true = some w' ∧ w'.guard.opts = w.guard.opts ∧ Ready w' ∧
      nodes w'.guard = nodes w.guard ∧ w'.guard.ht0.table.isSome ∧
      (w'.isRehashing → (w.isRehashing || w.htNeedExpand) ∧ w'.guard.ht0 = w.guard.ht0) := by
  by_cases hneed : w.htNeedExpand = true
  · have hcount : w.isRehashing = false →
        2 ≤ (if w.guard.ht0.cap = 0 then 4 else w.guard.ht0.used * 2) ∧
          (if w.guard.ht0.cap = 0 then 4 else w.guard.ht0.used * 2) ≤ 2 ^ 31 := by
      intro hre
      by_cases hcap : w.guard.ht0.cap = 0
      · rw [if_pos hcap]
        decide
      · rw [if_neg hcap]
        simp only [expands, hre, hneed, Bool.not_true, Bool.or_self, Bool.false_or,
          decide_eq_true_eq] at hexp
        simp only [htNeedExpand, hcap, decide_false, Bool.false_or, decide_eq_true_eq] at hneed
        have hdiv := Nat.div_le_self w.guard.ht0.used w.guard.ht0.cap
        omega
    rcases resize_spec R _ hcount with ⟨code, w', hresize, hopts, R', hnodes, htable⟩
    refine ⟨w', by rw [World.expand, if_pos hneed, hresize]; rfl, hopts, R', hnodes, ?_,
      fun hre => ?_⟩
    · rcases htable with ⟨hht0, hsome⟩ | ⟨-, hsome⟩
      · rwa [hht0]
      · exact hsome
    · rcases htable with ⟨hht0, -⟩ | ⟨hno, -⟩
      · exact ⟨by rw [hneed, Bool.or_true], hht0⟩
      · rw [hno] at hre
        cases hre
  · refine ⟨w, by rw [World.expand, if_neg hneed], rfl, R, rfl, ?_,
      fun hre => ⟨by rw [hre]; rfl, rfl⟩⟩
    rw [← Option.ne_none_iff_isSome]
    intro hnone
    exact hneed (by simp [htNeedExpand, R.cap_zero hnone])

end World

/-! ## The reference -/

/-- What a map holds for a key. -/
structure Entry (V : Type) where
  val : KmathVal V
  valType : Kobj
  valSize : ℕ
  deriving DecidableEq, Repr

/-- What a node holds. -/
def entry (node : KmapNode K V) : Entry V := ⟨node.val, node.valType, node.valSize⟩

/-- The value arguments of a call: the pointer points to a value of the type. -/
structure ValArg (V : Type) where
  ptr : KPtr V
  type : Kobj
  size : ℕ
  built : ∀ ctor, (kmathValCtor ptr type ctor).isSome

/-- The entry a call stores. -/
def ValArg.entry (a : ValArg V) (ctor : Bool) : Entry V :=
  ⟨(kmathValCtor a.ptr a.type ctor).get (a.built ctor), a.type, a.size⟩

theorem ValArg.ctor_eq (a : ValArg V) (ctor : Bool) :
    kmathValCtor a.ptr a.type ctor = some (a.entry ctor).val := by
  simp [ValArg.entry]

/-- **Exchanging a node** for another with the same key. -/
theorem World.Ready.substitute {w : World K V} (R : World.Ready w) {second : Bool} {c : Cell K}
    {tb : Buffer (List (KmapNode K V))} {before behind : List (KmapNode K V)} {x new : KmapNode K V}
    (hn : (w.ht second).table = some tb)
    (hchain : tb.get ((w.guard.opts.hash c).toNat &&& (w.ht second).mask) = before ++ x :: behind)
    (hcx : cell x = some c) (hcnew : cell new = some c) :
    ∃ ht rest, setBucket (w.ht second) ((w.guard.opts.hash c).toNat &&& (w.ht second).mask)
        (before ++ new :: behind) = some ht ∧ World.Ready (w.setHt second ht) ∧
      (nodes w.guard).Perm (x :: rest) ∧ (nodes (w.setHt second ht).guard).Perm (new :: rest) := by
  have hi := (R.htGood second).index_lt hn (w.guard.opts.hash c).toNat
  rcases R.exchange second hn hi (before ++ new :: behind) (by
    intro y hy
    rcases List.mem_append.mp hy with hy | hy
    · exact R.placed_around hn hi hchain y (List.mem_append_left _ hy)
    · rcases List.mem_cons.mp hy with rfl | hy
      · exact ⟨c, hcnew, rfl⟩
      · exact R.placed_around hn hi hchain y (List.mem_append_right _ hy))
    (by intro _ _ hnil; rw [hchain] at hnil; simp at hnil) with
    ⟨ht, rest, hset, hused, hold, hnew⟩
  rcases hnew ht.used with ⟨hperm, hready⟩
  rw [hchain] at hold hready
  have hfront : (nodes w.guard).Perm (x :: (before ++ behind ++ rest)) := by
    rw [List.append_assoc] at hold ⊢
    exact hold.trans List.perm_middle
  have hback : (before ++ new :: behind ++ rest).Perm (new :: (before ++ behind ++ rest)) := by
    rw [List.append_assoc, List.append_assoc]
    exact List.perm_middle
  have hdistinct : ((before ++ new :: behind ++ rest).map cell).Nodup := by
    refine (hback.map cell).nodup_iff.mpr ?_
    have h := (hfront.map cell).nodup_iff.mp R.good.distinct
    rw [List.map_cons, hcx] at h
    rwa [List.map_cons, hcnew]
  exact ⟨ht, before ++ behind ++ rest, hset, hready (by rw [hused]; simp) hdistinct, hfront,
    hperm.trans hback⟩

/-- **`kylin_map_replace`.**  It gives the node with the key another value, if the map has
one. -/
theorem World.replace_spec {w : World K V} (R : World.Ready w) (c : Cell K) (a : ValArg V) :
    ∃ r w', w.replace (.user c) a.ptr a.type a.size = some (r, w') ∧
      w'.guard.opts = w.guard.opts ∧ World.Ready w' ∧
      (r = none → (nodes w'.guard).Perm (nodes w.guard) ∧
        ∀ x ∈ nodes w.guard, cell x ≠ some c) ∧
      ∀ y, r = some y → entry y = a.entry w.guard.opts.valCtor ∧ ∃ x rest,
        x.addr = y.addr ∧ x.key = y.key ∧ cell x = some c ∧
        (nodes w.guard).Perm (x :: rest) ∧ (nodes w'.guard).Perm (y :: rest) := by
  rcases R.settle with ⟨w1, hsettle, R1, hperm1, hopts, -⟩
  rcases World.searchBoth_spec R1 false c with ⟨r, hr, hsome, hnone⟩
  rcases r with _ | ⟨second, before, x, behind⟩
  · refine ⟨none, w1, ?_, hopts, R1, fun _ => ⟨hperm1, ?_⟩, by simp⟩
    · rw [World.replace, hsettle]
      simp [World.hashOf_user, hr]
    · intro y hy
      exact hnone rfl y (hperm1.mem_iff.mpr hy)
  · rcases hsome second before x behind rfl with ⟨tb, hn, hchain, hcx⟩
    generalize hnode : ({ x with
      val := (a.entry w1.guard.opts.valCtor).val, valType := a.type, valSize := a.size } :
        KmapNode K V) = new
    have hcnew : cell new = some c := by rw [← hnode]; exact hcx
    rcases R1.substitute hn hchain hcx hcnew with ⟨ht, rest, hset, hR, hold, hnew⟩
    refine ⟨some new, { w1.setHt second ht with
      dropped := w1.dropped ++ kmathValDtor x.val x.valType }, ?_, ?_,
      ⟨hR.lawful, hR.good, hR.cap_zero, hR.first⟩, by simp, ?_⟩
    · rw [World.replace, hsettle]
      simp [World.hashOf_user, hr, a.ctor_eq, hnode, hset]
    · cases second <;> exact hopts
    · intro y hy
      cases hy
      refine ⟨?_, x, rest, ?_, ?_, hcx, hperm1.symm.trans hold, hnew⟩
      · rw [← hnode, hopts]
        rfl
      · rw [← hnode]
      · rw [← hnode]

/-- A finite map from keys to entries. -/
abbrev Reference (K V : Type) := Finmap fun _ : Cell K => Entry V

namespace World
variable [DecidableEq K] {w w' : World K V} {t : Reference K V}

/-- The map is ready, and its nodes are the bindings of the reference. -/
structure Inv (w : World K V) (t : Reference K V) : Prop where
  ready : Ready w
  repr : Represents cell entry (nodes w.guard) t

theorem inv_create {opts : KmapOpts K} (L : Lawful opts) :
    Inv (create opts : World K V) (∅ : Reference K V) where
  ready := by
    refine ⟨L, ⟨htGood_reset _, htGood_reset _, ?_, rfl, by simp [create]⟩, fun _ => rfl, ?_⟩
    · exact List.nodup_nil
    · intro h
      cases h
  repr := Represents.nil

/-- A lookup finds the binding of the reference. -/
theorem Inv.find (H : Inv w t) (c : Cell K) :
    ∃ r, w.find (.user c) = some r ∧ r.map entry = t.lookup c ∧
      ∀ x, r = some x → x ∈ nodes w.guard ∧ cell x = some c := by
  rcases find_spec H.ready c with ⟨r, hr, hsome, hnone⟩
  exact ⟨r, hr, (H.repr.lookup_eq hsome hnone).symm, hsome⟩

theorem erase_of_notMem {c : Cell K} (h : c ∉ t) : t.erase c = t := by
  apply Finmap.ext_lookup
  intro d
  by_cases hd : d = c
  · subst hd
    rw [Finmap.lookup_erase, Finmap.lookup_eq_none.mpr h]
  · rw [Finmap.lookup_erase_ne hd]

/-- A search that finds nothing is for a key that is not bound. -/
theorem Inv.notMem (H : Inv w t) {c : Cell K} (h : ∀ x ∈ nodes w.guard, cell x ≠ some c) :
    c ∉ t := by
  intro hc
  rcases H.repr.mem_iff.mp hc with ⟨x, hx, hcx⟩
  exact h x hx hcx

/-- Unlinking a key erases it. -/
theorem Inv.unlink (H : Inv w t) (c : Cell K) :
    ∃ r w', w.unlink (.user c) = some (r, w') ∧ r.isSome = decide (c ∈ t) ∧
      w'.guard.opts = w.guard.opts ∧ Inv w' (t.erase c) := by
  rcases unlink_spec H.ready c with ⟨r, w', hr, hopts, R', hnone, hsome⟩
  rcases r with _ | x
  · rcases hnone rfl with ⟨hperm, hnew⟩
    have hc := H.notMem hnew
    exact ⟨none, w', hr, by simp [hc], hopts, R', by
      rw [erase_of_notMem hc]; exact H.repr.perm hperm.symm⟩
  · rcases hsome x rfl with ⟨hcx, hperm⟩
    have hmem : c ∈ t := H.repr.mem_iff.mpr ⟨x, hperm.mem_iff.mpr (by simp), hcx⟩
    exact ⟨some x, w', hr, by simp [hmem], hopts, R', (H.repr.perm hperm).erase hcx⟩

/-- **`kylin_map_remove`.** -/
theorem Inv.remove (H : Inv w t) (c : Cell K) :
    ∃ code w', w.remove (.user c) = some (code, w') ∧ (code = .ok ↔ c ∈ t) ∧
      w'.guard.opts = w.guard.opts ∧ Inv w' (t.erase c) := by
  rcases H.unlink c with ⟨r, w1, hr, hsome, hopts, H1⟩
  rcases r with _ | x
  · refine ⟨.nodata, w1, by simp [World.remove, hr], ?_, hopts, H1⟩
    simpa using hsome
  · refine ⟨.ok, { w1 with freed := w1.freed ++ [x] }, by simp [World.remove, hr], ?_, hopts,
      ⟨H1.ready.lawful, H1.ready.good, H1.ready.cap_zero, H1.ready.first⟩, H1.repr⟩
    simpa using hsome

/-- Replacing a bound key binds it anew. -/
theorem Inv.replace (H : Inv w t) (c : Cell K) (a : ValArg V) :
    ∃ r w', w.replace (.user c) a.ptr a.type a.size = some (r, w') ∧
      r.map entry = (if c ∈ t then some (a.entry w.guard.opts.valCtor) else none) ∧
      w'.guard.opts = w.guard.opts ∧
      Inv w' (if c ∈ t then t.insert c (a.entry w.guard.opts.valCtor) else t) := by
  rcases replace_spec H.ready c a with ⟨r, w', hr, hopts, R', hnone, hsome⟩
  rcases r with _ | y
  · rcases hnone rfl with ⟨hperm, hnew⟩
    have hc := H.notMem hnew
    exact ⟨none, w', hr, by simp [hc], hopts, R', by
      rw [if_neg hc]; exact H.repr.perm hperm.symm⟩
  · rcases hsome y rfl with ⟨hentry, x, rest, -, hkey, hcx, hold, hnew⟩
    have hmem : c ∈ t := H.repr.mem_iff.mpr ⟨x, hold.mem_iff.mpr (by simp), hcx⟩
    have hcy : cell y = some c := by rw [cell, ← hkey]; exact hcx
    have hrep := (H.repr.perm hold).exchange hcx hcy
    rw [hentry] at hrep
    exact ⟨some y, w', hr, by rw [if_pos hmem, Option.map_some, hentry], hopts, R', by
      rw [if_pos hmem]; exact hrep.perm hnew.symm⟩

/-! ## Insertion -/

/-- The next insertion of the key would not see that it is in the map: it is in a
bucket of `ht[0]` that is not the first with something in it, and the map is rehashing
or about to expand. -/
def lagging (w : World K V) (c : Cell K) : Bool :=
  (w.isRehashing || w.htNeedExpand) &&
    w.guard.ht0.table.elim false fun t => (List.range t.size).any fun i =>
      (t.get i).any (fun x => cell x = some c) && (List.range i).any fun j => !(t.get j).isEmpty

/-- A key that is not lagging is not left behind in `ht[0]`. -/
theorem notMem_of_not_lagging {c : Cell K} (hlag : w.lagging c = false)
    (hre : (w.isRehashing || w.htNeedExpand) = true) {tb : Buffer (List (KmapNode K V))}
    (hn : w.guard.ht0.table = some tb) {i j : ℕ} (hji : j < i) (hi : i < tb.size)
    (hj : tb.get j ≠ []) {x : KmapNode K V} (hx : x ∈ tb.get i) : cell x ≠ some c := by
  intro hc
  have htrue : w.lagging c = true := by
    rw [lagging, hre, Bool.true_and, hn, Option.elim_some, List.any_eq_true]
    refine ⟨i, List.mem_range.mpr hi, ?_⟩
    rw [Bool.and_eq_true, List.any_eq_true, List.any_eq_true]
    refine ⟨⟨x, hx, by simpa using hc⟩, j, List.mem_range.mpr hji, ?_⟩
    simpa using hj
  rw [hlag] at htrue
  cases htrue

/-- Where the key of an insertion can be once the map is settled: in the table that the
insertion searches, or nowhere. -/
theorem insertHt_only {w1 w2 : World K V} {c : Cell K}
    (hlag : w.lagging c = false) (R1 : Ready w1) (R2 : Ready w2) (hsettle : w1.settle = some w2)
    (hw1 : w1.isRehashing → (w.isRehashing || w.htNeedExpand) ∧ w1.guard.ht0 = w.guard.ht0) :
    ∀ x ∈ stored (w2.ht !w2.isRehashing), cell x ≠ some c := by
  intro x hx
  cases hre : w2.isRehashing with
  | false =>
      have hn1 : w2.guard.ht1.table = none := by
        rw [← Option.not_isSome_iff_eq_none, R2.good.second]
        simpa [isRehashing] using hre
      rw [hre] at hx
      simp [World.ht, stored, hn1] at hx
  | true =>
      rw [hre] at hx
      rcases settle_leaves R1 hsettle hre with ⟨hre1, hleft⟩
      rcases hleft x hx with ⟨tb, i, j, hn, hji, hi, hj, hmem⟩
      rcases hw1 hre1 with ⟨hw, hht0⟩
      rw [hht0] at hn
      exact notMem_of_not_lagging hlag hw hn hji hi hj hmem

section InsertInto
omit [DecidableEq K]
variable {c : Cell K} {node x : KmapNode K V} {tb : Buffer (List (KmapNode K V))}
  {before behind : List (KmapNode K V)}

/-- The key is in the bucket. -/
theorem insertInto_found (R : Ready w) (hn : w.insertHt.table = some tb) (hc : cell node = some c)
    (hwalk : walk (cmpNode w.guard.opts node)
      (tb.get ((w.guard.opts.hash c).toNat &&& w.insertHt.mask)) =
        some (some (before, x, behind))) :
    w.insertInto node = some (some x, w) := by
  have G : HtGood w.guard.opts w.insertHt := R.htGood w.isRehashing
  have hbucket := G.bucket_eq hn (w.guard.opts.hash c).toNat
  simp [insertInto, hn, hashNode_eq R.lawful hc, hbucket, hwalk]

/-- The key is not in the bucket. -/
theorem insertInto_new (R : Ready w) (hn : w.insertHt.table = some tb) (hc : cell node = some c)
    (hwalk : walk (cmpNode w.guard.opts node)
      (tb.get ((w.guard.opts.hash c).toNat &&& w.insertHt.mask)) = some none) {ht : KmapHt K V}
    (hset : setBucket w.insertHt ((w.guard.opts.hash c).toNat &&& w.insertHt.mask)
      (node :: tb.get ((w.guard.opts.hash c).toNat &&& w.insertHt.mask)) = some ht) :
    w.insertInto node =
      some (some node, w.setHt w.isRehashing { ht with used := ht.used + 1 }) := by
  have G : HtGood w.guard.opts w.insertHt := R.htGood w.isRehashing
  have hbucket := G.bucket_eq hn (w.guard.opts.hash c).toNat
  simp [insertInto, hn, hashNode_eq R.lawful hc, hbucket, hwalk, hset]

end InsertInto

/-- **`kylin_map_insert_raw`** of a node whose key is not lagging.  It returns the node that
has the key and changes nothing, or puts the new node in. -/
theorem insertRaw_spec (R : Ready w) {c : Cell K} {node : KmapNode K V} (hc : cell node = some c)
    (hlag : w.lagging c = false) (hexp : w.expands = true) :
    ∃ x w', w.insertRaw true node = some (some x, w') ∧
      w'.guard.opts = w.guard.opts ∧ Ready w' ∧ cell x = some c ∧
      (x ∈ nodes w.guard ∧ (nodes w'.guard).Perm (nodes w.guard) ∨
        x = node ∧ (∀ y ∈ nodes w.guard, cell y ≠ some c) ∧
          (nodes w'.guard).Perm (x :: nodes w.guard)) := by
  -- expand and settle
  rcases expand_spec R hexp with ⟨w1, hexpand, hopts1, R1, hnodes1, htable1, hw1⟩
  rcases R1.settle with ⟨w2, hsettle, R2, hperm2, hopts2, htable2⟩
  rw [hnodes1] at hperm2
  have hopts : w2.guard.opts = w.guard.opts := hopts2.trans hopts1
  have hraw : w.insertRaw true node = w2.insertInto node := by
    simp [insertRaw, hexpand, hsettle]
  have hsome : w2.insertHt.table.isSome := by
    rw [insertHt, World.ht]
    split
    · rename_i hre
      rw [R2.good.second]
      exact hre
    · exact htable2 htable1
  rcases Option.isSome_iff_exists.mp hsome with ⟨tb, hn⟩
  -- search the bucket
  have G : HtGood w2.guard.opts w2.insertHt := R2.htGood w2.isRehashing
  have hi := G.index_lt hn (w2.guard.opts.hash c).toNat
  rcases walk_cmpNode R2.lawful hc fun x hx => (G.placed tb hn _ hi x hx).imp fun _ h => h.1
    with ⟨r, hwalk, hfound, hnone⟩
  rcases r with _ | ⟨before, x, behind⟩
  · have hnew : ∀ y ∈ nodes w2.guard, cell y ≠ some c := by
      intro y hy
      rcases List.mem_append.mp ((nodes_perm w2 w2.isRehashing).mem_iff.mp hy) with hy | hy
      · exact fun hcy => hnone rfl y (G.mem_bucket hn hy hcy) hcy
      · exact insertHt_only hlag R1 R2 hsettle hw1 y hy
    rcases R2.exchange w2.isRehashing hn hi (node :: tb.get _) (by
      intro x hx
      rcases List.mem_cons.mp hx with rfl | hx
      · exact ⟨c, hc, rfl⟩
      · exact G.placed tb hn _ hi x hx)
      (by intro hre hno; rw [hre] at hno; cases hno) with ⟨ht, rest, hset, hused, hold, hex⟩
    rcases hex (ht.used + 1) with ⟨hperm, hready⟩
    have hall : (nodes (w2.setHt w2.isRehashing { ht with used := ht.used + 1 }).guard).Perm
        (node :: nodes w2.guard) := hperm.trans (hold.symm.cons node)
    have hnodup : ((node :: nodes w2.guard).map cell).Nodup := by
      rw [List.map_cons, List.nodup_cons]
      refine ⟨fun hmem => ?_, R2.good.distinct⟩
      rcases List.mem_map.mp hmem with ⟨y, hy, hcy⟩
      exact hnew y hy (hcy.trans hc)
    have hdistinct := ((hperm.symm.trans hall).map cell).nodup_iff.mpr hnodup
    refine ⟨node, _, hraw.trans (insertInto_new R2 hn hc hwalk hset), ?_,
      hready (by rw [hused, List.length_cons]; omega) hdistinct, hc, .inr ⟨rfl, ?_, ?_⟩⟩
    · rw [← hopts]
      cases w2.isRehashing <;> rfl
    · intro y hy
      exact hnew y (hperm2.mem_iff.mpr hy)
    · exact hall.trans (hperm2.cons node)
  · rcases hfound before x behind rfl with ⟨hchain, hcx⟩
    have hx : x ∈ nodes w2.guard := mem_nodes hn hi (by rw [hchain]; simp)
    exact ⟨x, w2, hraw.trans (insertInto_found R2 hn hc hwalk), hopts, R2, hcx,
      .inl ⟨hperm2.mem_iff.mp hx, hperm2⟩⟩

/-- **`kylin_map_insert`** of a key that is not lagging.  It returns the node that has the key
and changes nothing, or puts a new node in. -/
theorem insert_spec (R : Ready w) (c : Cell K) (a : ValArg V) (addr : ℕ)
    (hlag : w.lagging c = false) (hexp : w.expands = true) :
    ∃ x w', w.insert (some addr) true (.user c) a.ptr a.type a.size = some (some x, w') ∧
      w'.guard.opts = w.guard.opts ∧ Ready w' ∧ cell x = some c ∧
      (x ∈ nodes w.guard ∧ (nodes w'.guard).Perm (nodes w.guard) ∨
        entry x = a.entry w.guard.opts.valCtor ∧ (∀ y ∈ nodes w.guard, cell y ≠ some c) ∧
          (nodes w'.guard).Perm (x :: nodes w.guard)) := by
  rcases kmathValCtor_of_isPointer R.lawful.pointer c w.guard.opts.keyCtor with ⟨p, hp, hpc⟩
  generalize hnode : (⟨addr, .v p, (a.entry w.guard.opts.valCtor).val, a.type, a.size⟩ :
    KmapNode K V) = node
  have hc : cell node = some c := by rw [← hnode]; exact hpc
  rcases insertRaw_spec R hc hlag hexp with ⟨x, w', hraw, hopts, R', hcx, hcase⟩
  refine ⟨x, w', ?_, hopts, R', hcx, hcase.imp_right ?_⟩
  · simp [World.insert, hp, a.ctor_eq, hnode, hraw]
  · rintro ⟨rfl, hnew, hperm⟩
    exact ⟨by rw [← hnode]; rfl, hnew, hperm⟩

/-- An insertion binds a key that is not bound. -/
theorem Inv.insert (H : Inv w t) (c : Cell K) (a : ValArg V) (addr : ℕ)
    (hlag : w.lagging c = false) (hexp : w.expands = true) :
    ∃ x w', w.insert (some addr) true (.user c) a.ptr a.type a.size = some (some x, w') ∧
      entry x = (t.lookup c).getD (a.entry w.guard.opts.valCtor) ∧
      w'.guard.opts = w.guard.opts ∧
      Inv w' (if c ∈ t then t else t.insert c (a.entry w.guard.opts.valCtor)) := by
  rcases insert_spec H.ready c a addr hlag hexp with ⟨x, w', hins, hopts, R', hcx, hcase⟩
  refine ⟨x, w', hins, ?_⟩
  rcases hcase with ⟨hx, hperm⟩ | ⟨hentry, hnew, hperm⟩
  · have hlookup : t.lookup c = some (entry x) := (H.repr.lookup_iff c _).mpr ⟨x, hx, hcx, rfl⟩
    refine ⟨by rw [hlookup]; rfl, hopts, R', ?_⟩
    rw [if_pos (Finmap.mem_of_lookup_eq_some hlookup)]
    exact H.repr.perm hperm.symm
  · have hc := H.notMem hnew
    have hrep := H.repr.cons hcx hc
    rw [hentry] at hrep
    refine ⟨by rw [Finmap.lookup_eq_none.mpr hc, hentry]; rfl, hopts, R', ?_⟩
    rw [if_neg hc]
    exact hrep.perm hperm.symm

/-- Resizing binds and erases nothing. -/
theorem Inv.resize (H : Inv w t) (count : ℕ) (hcount : 2 ≤ count ∧ count ≤ 2 ^ 31) :
    ∃ code w', w.resize true count = some (code, w') ∧ w'.guard.opts = w.guard.opts ∧
      Inv w' t := by
  rcases resize_spec H.ready count fun _ => hcount with ⟨code, w', hres, hopts, R', hnodes, -⟩
  exact ⟨code, w', hres, hopts, R', by rw [hnodes]; exact H.repr⟩

/-! ## Runs -/

/-- The calls of the interface.  `addr` is the address of the node allocated. -/
inductive Call (K V : Type)
  | insert (key : Cell K) (val : ValArg V) (addr : ℕ)
  | remove (key : Cell K)
  | replace (key : Cell K) (val : ValArg V)
  | find (key : Cell K)
  | resize (count : ℕ)

/-- What a call says about the contents. -/
inductive Answer (V : Type)
  | entry (e : Option (Entry V))
  | removed (b : Bool)
  | none
  deriving DecidableEq

/-- A call, with allocations that succeed. -/
def step (w : World K V) : Call K V → Option (Answer V × World K V)
  | .insert key val addr => do
      let (r, w) ← w.insert (some addr) true (.user key) val.ptr val.type val.size
      some (.entry (r.map entry), w)
  | .remove key => do
      let (code, w) ← w.remove (.user key)
      some (.removed (code = .ok), w)
  | .replace key val => do
      let (r, w) ← w.replace (.user key) val.ptr val.type val.size
      some (.entry (r.map entry), w)
  | .find key => do
      let r ← w.find (.user key)
      some (.entry (r.map entry), w)
  | .resize count => do
      let (_, w) ← w.resize true count
      some (.none, w)

/-- The finite map that the interface stands for.  An insertion keeps the entry that is
there. -/
def reference (ctor : Bool) (t : Reference K V) : Call K V → Answer V × Reference K V
  | .insert key val _ => (.entry (some ((t.lookup key).getD (val.entry ctor))),
      if key ∈ t then t else t.insert key (val.entry ctor))
  | .remove key => (.removed (key ∈ t), t.erase key)
  | .replace key val => (.entry (if key ∈ t then some (val.entry ctor) else .none),
      if key ∈ t then t.insert key (val.entry ctor) else t)
  | .find key => (.entry (t.lookup key), t)
  | .resize _ => (.none, t)

/-- What a map is to its reference: no key is in two nodes, a lookup returns the node
with the entry of the key, and the count is that of the keys. -/
structure Refines (w : World K V) (t : Reference K V) : Prop where
  distinct : ((nodes w.guard).map cell).Nodup
  find : ∀ c, ∃ r, w.find (.user c) = some r ∧ r.map entry = t.lookup c ∧
    ∀ x, r = some x → x ∈ nodes w.guard ∧ cell x = some c
  count : w.count = t.keys.card

/-- The counts a caller may ask for. -/
def Admitted : Call K V → Prop
  | .resize count => 2 ≤ count ∧ count ≤ 2 ^ 31
  | _ => True

instance (call : Call K V) : Decidable (Admitted call) :=
  match call with
  | .resize _ => inferInstanceAs (Decidable (_ ≤ _ ∧ _ ≤ _))
  | .insert .. | .remove _ | .replace .. | .find _ => .isTrue trivial

/-- The calls under which the map refines its reference: an insertion is not of a key
that it would not see, and does not expand the map past the counts a caller may ask
for. -/
def Sound (w : World K V) (call : Call K V) : Prop :=
  Admitted call ∧
    match call with
    | .insert key _ _ => w.lagging key = false ∧ w.expands = true
    | _ => True

instance (w : World K V) (call : Call K V) : Decidable (w.Sound call) :=
  match call with
  | .insert .. => inferInstanceAs (Decidable (Admitted _ ∧ _ = _ ∧ _ = _))
  | .remove _ | .replace .. | .find _ | .resize _ => inferInstanceAs (Decidable (Admitted _ ∧ True))

theorem Inv.refines (H : Inv w t) : Refines w t where
  distinct := H.repr.distinct
  find := H.find
  count := by
    rw [H.repr.card_eq, nodes, List.length_append, ← H.ready.good.ht0.used_eq,
      ← H.ready.good.ht1.used_eq]
    rfl

/-- **One call.**  It returns, answers as the reference does, and keeps the relation. -/
theorem Inv.step (H : Inv w t) {call : Call K V} (hok : w.Sound call) :
    ∃ w', w.step call = some ((reference w.guard.opts.valCtor t call).1, w') ∧
      w'.guard.opts = w.guard.opts ∧ Inv w' (reference w.guard.opts.valCtor t call).2 := by
  cases call with
  | insert key val addr =>
      rcases H.insert key val addr hok.2.1 hok.2.2 with ⟨x, w', hins, hentry, hopts, H'⟩
      exact ⟨w', by simp [World.step, hins, hentry, reference], hopts, H'⟩
  | remove key =>
      rcases H.remove key with ⟨code, w', hrem, hcode, hopts, H'⟩
      exact ⟨w', by simp [World.step, hrem, hcode, reference], hopts, H'⟩
  | replace key val =>
      rcases H.replace key val with ⟨r, w', hrep, hr, hopts, H'⟩
      exact ⟨w', by simp [World.step, hrep, hr, reference], hopts, H'⟩
  | find key =>
      rcases H.find key with ⟨r, hfind, hr, -⟩
      exact ⟨w, by simp [World.step, hfind, hr, reference], rfl, H⟩
  | resize count =>
      rcases H.resize count hok.1 with ⟨code, w', hres, hopts, H'⟩
      exact ⟨w', by simp [World.step, hres, reference], hopts, H'⟩

/-- A run that does not insert a lagging key follows the reference. -/
theorem inv_of_run {opts : KmapOpts K} (L : Lawful opts)
    {tr : List (Step (World K V) (Call K V) (Answer V))}
    (h : Run step Sound (create opts) tr w) :
    ∃ t, specRun (reference opts.valCtor) ∅ (tr.map Step.call) = (tr.map Step.result, t) ∧
      Inv w t ∧ w.guard.opts = opts := by
  refine h.simulates (R := fun w t => Inv w t ∧ w.guard.opts = opts) ⟨inv_create L, rfl⟩ ?_
  intro w call r w' t hR hok hstep
  rcases hR with ⟨H, rfl⟩
  rcases H.step hok with ⟨w'', hstep', hopts, H'⟩
  rw [hstep'] at hstep
  cases hstep
  exact ⟨rfl, H', hopts⟩

/-- Keys that are numbers, hashed to themselves. -/
def numberOpts : KmapOpts ℕ where
  keyType := .others
  keyCtor := false
  valCtor := false
  hash
    | .obj n => UInt64.ofNat n
    | .int _ => 0
  keyCmp a b := if a = b then 0 else 1

theorem numberOpts_lawful : Lawful numberOpts := by
  refine ⟨by decide, fun a b => ?_⟩
  by_cases hab : a = b
  · simp [numberOpts, hab]
  · simp [numberOpts, hab]

/-- A number as the value of a call. -/
def numberArg (n : ℕ) : ValArg ℕ := ⟨.user (.obj n), .others, 8, fun ctor => by cases ctor <;> rfl⟩

/-- Three insertions and a resize, and then the insertion of a key whose bucket is the
next to be moved. -/
theorem exists_run_rehashing : ∃ tr w,
    Run step Sound (create numberOpts : World ℕ ℕ) tr w ∧ w.isRehashing = true ∧ w.count = 3 := by
  exact exists_run_of_eval
    [.insert (.obj 1) (numberArg 10) 0, .insert (.obj 2) (numberArg 20) 1,
      .insert (.obj 3) (numberArg 30) 2, .resize 8, .insert (.obj 2) (numberArg 21) 3,
      .find (.obj 1)] (by decide +kernel)

end World

end Kmap

end Kylin
