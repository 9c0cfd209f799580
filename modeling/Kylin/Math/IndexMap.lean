import Kylin.Lib.Ensures
import Kylin.Math.Index
import Kylin.Math.Map

/-!
# An index is a map without values

`kylin_index.c` was made from `kylin_map.c` by leaving the values out: an index of values is
what a map from these values to anything is, with the nodes cut down.  Every operation on the
one is the operation on the other, up to what is returned.  So what holds of every index holds
of a map, as long as it is about the tables, and what holds of the states of a map holds of
those of an index.

The index logs calls of destructors where the map lists the nodes it has destroyed.

## Main definitions

* `Kindex.ofMap`, `World.ofMap` — the index that a map is.
* `World.Mirrors` — an index that is a map that is ready.
* `World.Sound` — the calls that keep it so.

## Main results

* `World.settle_ofMap`, `resize_ofMap`, `insertRaw_ofMap`, `unlinkBy_ofMap`, `find_ofMap` —
  the operations are those of the map.
* `World.Mirrors.unlinkRaw_eq` — unlinking by node is unlinking by value.
* `World.mirrors_of_run` — every run of sound calls stays with a map.
-/

namespace Kylin

open Lib

/-- Unlinking destroys nothing. -/
theorem Kmap.World.unlink_freed {K V : Type} {w w' : Kmap.World K V} {key : KPtr K}
    {r : Option (KmapNode K V)} (R : w.Ready) (h : w.unlink key = some (r, w')) :
    w'.freed = w.freed := by
  rcases mapRehash_spec R 1 with ⟨m, hm, -⟩
  rw [← settle_eq] at hm
  rw [unlink, hm, Option.bind_eq_bind, Option.bind_some] at h
  rcases Option.bind_eq_some_iff.mp h with ⟨hash, -, h⟩
  rcases Option.bind_eq_some_iff.mp h with ⟨place, -, h⟩
  rcases place with _ | ⟨second, before, x, behind⟩
  · cases h
    rfl
  · rcases Option.bind_eq_some_iff.mp h with ⟨ht, -, h⟩
    cases h
    cases second <;> rfl

namespace Kindex
variable {α V : Type}

/-! ## The index of a map -/

/-- A node without its value. -/
def ofNode (x : KmapNode α V) : KindexNode α := ⟨x.addr, x.key⟩

/-- A chain of a map as an entry of a table. -/
def ofChain (chain : List (KmapNode α V)) : KindexSlot α := .chain (chain.map ofNode)

def ofHt (ht : KmapHt α V) : KindexHt α :=
  ⟨ht.table.map (Buffer.map ofChain), ht.cap, ht.mask, ht.used⟩

/-- Keys are hashed and compared as values. -/
def ofOpts (opts : KmapOpts α) : KindexOpts α :=
  ⟨opts.keyType, opts.keyCtor, opts.hash, opts.keyCmp⟩

/-- The map that an index is made from. -/
def mapOpts (opts : KindexOpts α) : KmapOpts α :=
  ⟨opts.valType, opts.valCtor, false, opts.hash, opts.compare⟩

def ofMap (m : Kmap α V) : Kindex α := ⟨ofOpts m.opts, ofHt m.ht0, ofHt m.ht1, m.rehashidx⟩

/-- Values that are numbers, hashed to themselves. -/
def numberOpts : KindexOpts ℕ where
  valType := .others
  valCtor := false
  hash := Kmap.World.numberOpts.hash
  compare := Kmap.World.numberOpts.keyCmp

/-! ## Tables -/

section Table
variable {opts : KmapOpts α} {ht : KmapHt α V}

theorem bucket_ofHt (ht : KmapHt α V) (i : ℕ) :
    bucket (ofHt ht) i = (Kmap.bucket ht i).map (List.map ofNode) := by
  rw [bucket, Kmap.bucket, ofHt]
  cases ht.table with
  | none => rfl
  | some t =>
      rw [Option.map_some, Option.bind_some, Option.bind_some, Buffer.load_map]
      cases t.load i <;> rfl

/-- What is read from a table is in it. -/
theorem bucket_eq_some {ht : KindexHt α} {i : ℕ} {chain : List (KindexNode α)}
    (h : bucket ht i = some chain) :
    ∃ t, ht.table = some t ∧ i < t.size ∧ t.get i = .chain chain := by
  rcases Option.bind_eq_some_iff.mp h with ⟨t, ht, h⟩
  rcases Option.bind_eq_some_iff.mp h with ⟨slot, hload, hfollow⟩
  rw [Buffer.load] at hload
  split at hload
  · refine ⟨t, ht, ‹_›, (Option.some.inj hload).trans ?_⟩
    cases slot with
    | chain nodes => rw [Option.some.inj hfollow]
    | freed => cases hfollow
  · cases hload

theorem setSlot_ofHt (ht : KmapHt α V) (i : ℕ) (chain : List (KmapNode α V)) :
    setSlot (ofHt ht) i (.chain (chain.map ofNode)) =
      (Kmap.setBucket ht i chain).map ofHt := by
  rw [setSlot, Kmap.setBucket, ofHt]
  cases ht.table with
  | none => rfl
  | some t =>
      have hstore := Buffer.store_map ofChain t i chain
      rw [ofChain] at hstore
      rw [Option.map_some, Option.bind_some, Option.bind_some, hstore]
      cases t.store i chain <;> rfl

/-- The nodes of a table. -/
def stored (ht : KindexHt α) : List (KindexNode α) :=
  ht.table.elim [] fun t => (List.range t.size).flatMap fun i => (t.get i).follow.getD []

theorem stored_ofHt (ht : KmapHt α V) : stored (ofHt ht) = (Kmap.stored ht).map ofNode := by
  rw [stored, Kmap.stored, ofHt]
  cases ht.table with
  | none => rfl
  | some t =>
      rw [Option.elim_some, contents, List.map_flatMap]
      rfl

theorem seek_cmpNode (opts : KmapOpts α) (x : KmapNode α V) (chain : List (KmapNode α V)) :
    seek (cmpNode (ofOpts opts) (ofNode x)) (chain.map ofNode) =
      (Kmap.walk (Kmap.cmpNode opts x) chain).map
        (Option.map (Prod.map (List.map ofNode) (Prod.map ofNode (List.map ofNode)))) := by
  rw [seek_map]
  rfl

theorem seek_cmpRaw (opts : KmapOpts α) (val : KPtr α) (chain : List (KmapNode α V)) :
    seek (cmpRaw (ofOpts opts) val) (chain.map ofNode) =
      (Kmap.walk (Kmap.cmpRaw opts val) chain).map
        (Option.map (Prod.map (List.map ofNode) (Prod.map ofNode (List.map ofNode)))) := by
  rw [seek_map]
  rfl

end Table

namespace World
variable (log : List (Dtor α)) (w : Kmap.World α V)

/-- What destroying nodes of the map logs. -/
def destroyed (opts : KmapOpts α) (xs : List (KmapNode α V)) : List (Dtor α) :=
  xs.flatMap fun x => destroyNode (ofOpts opts) (ofNode x)

/-- The index that a map is, behind what was logged before. -/
def ofMap (log : List (Dtor α)) (w : Kmap.World α V) : World α :=
  ⟨Kindex.ofMap w.guard, log ++ destroyed w.guard.opts w.freed, w.kerrno⟩

@[simp] theorem ofMap_opts : (ofMap log w).guard.opts = ofOpts w.guard.opts := rfl
@[simp] theorem ofMap_ht0 : (ofMap log w).guard.ht0 = ofHt w.guard.ht0 := rfl
@[simp] theorem ofMap_ht1 : (ofMap log w).guard.ht1 = ofHt w.guard.ht1 := rfl
@[simp] theorem ofMap_isRehashing : (ofMap log w).isRehashing = w.isRehashing := rfl
@[simp] theorem ofMap_ht (second : Bool) : (ofMap log w).ht second = ofHt (w.ht second) := by
  cases second <;> rfl

@[simp] theorem ofMap_setHt (second : Bool) (ht : KmapHt α V) :
    (ofMap log w).setHt second (ofHt ht) = ofMap log (w.setHt second ht) := by
  cases second <;> rfl

/-! ## Rehashing -/

theorem moveNode_ofMap (x : KmapNode α V) :
    (ofMap log w).moveNode (ofNode x) = (w.moveNode x).map (ofMap log) := by
  refine bind_translate_same fun h _ => bind_translate (bucket_ofHt _ _) fun chain _ =>
    bind_translate (seek_cmpNode _ _ _) fun r _ => ?_
  cases r with
  | none =>
      exact bind_translate (setSlot_ofHt w.guard.ht1 (h &&& w.guard.ht1.mask) (x :: chain))
        fun ht1 _ => rfl
  | some r => simp [ofMap, Kindex.ofMap, destroyed]

theorem scan_map (t : Buffer (List (KmapNode α V))) (fuel i : ℕ) :
    scan (t.map ofChain) fuel i = Kmap.World.scan t fuel i := by
  rw [scan, Kmap.World.scan, probe_map]
  congr 1
  funext chain
  cases chain <;> rfl

theorem rehashTurn_ofMap : (ofMap log w).rehashTurn = w.rehashTurn.map (ofMap log) := by
  refine bind_translate rfl fun t _ => bind_translate_same fun idx _ => ?_
  rw [scan_map]
  refine bind_translate_same fun i _ => bind_translate (Buffer.load_map _ _ _) fun chain _ => ?_
  have hfollow : (ofChain chain).follow = some (chain.map ofNode) := rfl
  rw [hfollow, Option.bind_eq_bind, Option.bind_some]
  refine bind_translate (foldlM_translate (moveNode_ofMap log) chain w) fun w' _ => ?_
  refine bind_translate (setSlot_ofHt w'.guard.ht0 i []) fun ht0 _ => ?_
  rw [apply_ite (Option.map _)]
  rfl

theorem rehashLoop_ofMap (step : ℕ) :
    rehashLoop step (ofMap log w) = (Kmap.World.rehashLoop step w).map (ofMap log) := by
  induction step generalizing w with
  | zero => rfl
  | succ step ih =>
      rw [rehashLoop, Kmap.World.rehashLoop, apply_ite (Option.map _)]
      refine if_congr Iff.rfl rfl ?_
      exact bind_translate (rehashTurn_ofMap log w) fun w' _ => ih w'

theorem indexRehash_ofMap (step : ℕ) :
    (ofMap log w).indexRehash step = (w.mapRehash step).map (ofMap log) := by
  rw [indexRehash, Kmap.World.mapRehash, apply_ite (Option.map _)]
  refine if_congr Iff.rfl ?_ rfl
  refine bind_translate (rehashLoop_ofMap log w step) fun w' _ => ?_
  rw [apply_ite (Option.map _)]
  rfl

theorem settle_ofMap : (ofMap log w).settle = w.settle.map (ofMap log) := by
  rw [settle, Kmap.World.settle, indexRehash_ofMap, apply_ite (Option.map _)]
  rfl

section Options
variable (w : World α)

theorem moveNode_opts (node : KindexNode α) :
    Ensures (w.moveNode node) fun w' => w'.guard.opts = w.guard.opts := by
  refine .bind .any fun hash _ => .bind .any fun chain _ => .bind .any fun r _ => ?_
  cases r with
  | some r => exact .some rfl
  | none => exact .bind .any fun ht1 _ => .some rfl

theorem rehashTurn_opts : Ensures w.rehashTurn fun w' => w'.guard.opts = w.guard.opts := by
  refine .bind .any fun table _ => .bind .any fun idx _ => .bind .any fun i _ => .bind .any
    fun slot _ => .bind .any fun chain _ =>
      .bind (Q := fun w' => w'.guard.opts = w.guard.opts) ?_ fun w' h => ?_
  · refine Ensures.foldlM (I := fun _ (w' : World α) => w'.guard.opts = w.guard.opts) rfl ?_
    intro w' node _ h
    exact (moveNode_opts w' node).mono fun _ h' => h'.trans h
  · exact .bind .any fun ht0 _ => .ite (.some h) .none

/-- The options stay as they are. -/
theorem settle_opts : Ensures w.settle fun w' => w'.guard.opts = w.guard.opts := by
  have hloop : ∀ step (w : World α),
      Ensures (rehashLoop step w) fun w' => w'.guard.opts = w.guard.opts := by
    intro step
    induction step with
    | zero => exact fun w => .some rfl
    | succ step ih =>
        intro w
        exact .ite (.some rfl) (.bind (rehashTurn_opts w) fun w' h =>
          (ih w').mono fun _ h' => h'.trans h)
  refine .ite (.ite (.bind (hloop 1 w) fun w' h => ?_) (.some rfl)) (.some rfl)
  exact .ite (.some h) (.some h)

end Options

/-- Nor do those of a map, as far as an index has them. -/
theorem settle_ofOpts : Ensures w.settle fun w' => ofOpts w'.guard.opts = ofOpts w.guard.opts := by
  have h := settle_opts (ofMap [] w)
  rw [settle_ofMap] at h
  exact h.of_map

/-! ## The operations -/

theorem isNone_ofHt (ht : KmapHt α V) : (ofHt ht).table.isNone = ht.table.isNone :=
  Option.isNone_map

theorem resize_ofMap (mem : Bool) (count : ℕ) :
    (ofMap log w).resize mem count = (w.resize mem count).map (Prod.map id (ofMap log)) := by
  rw [resize, Kmap.World.resize, apply_ite (Option.map _)]
  refine if_congr Iff.rfl rfl (bind_translate_same fun n _ => ?_)
  rw [apply_ite (Option.map _)]
  refine if_congr Iff.rfl rfl ?_
  rw [apply_ite (Option.map _), ofMap_ht0, isNone_ofHt]
  cases mem <;> rfl

theorem expand_ofMap (mem : Bool) : (ofMap log w).expand mem = (w.expand mem).map (ofMap log) := by
  rw [expand, Kmap.World.expand, apply_ite (Option.map _), resize_ofMap, Option.map_map,
    Option.map_map]
  rfl

theorem insertInto_ofMap (x : KmapNode α V) :
    (ofMap log w).insertInto (ofNode x) =
      (w.insertInto x).map (Prod.map (Option.map ofNode) (ofMap log)) := by
  have hht : (ofMap log w).insertHt = ofHt w.insertHt := ofMap_ht log w w.isRehashing
  rw [insertInto, Kmap.World.insertInto, apply_ite (Option.map _), hht, isNone_ofHt]
  refine if_congr Iff.rfl rfl ?_
  refine bind_translate_same fun h _ => bind_translate (bucket_ofHt _ _) fun chain _ =>
    bind_translate (seek_cmpNode _ _ _) fun r _ => ?_
  cases r with
  | none =>
      refine bind_translate (setSlot_ofHt w.insertHt (h &&& w.insertHt.mask) (x :: chain))
        fun ht _ => ?_
      simp only [Option.map_some, Prod.map_apply, ofMap_isRehashing]
      rw [← ofMap_setHt]
      rfl
  | some r => rfl

theorem insertRaw_ofMap (mem : Bool) (x : KmapNode α V) :
    (ofMap log w).insertRaw mem (ofNode x) =
      (w.insertRaw mem x).map (Prod.map (Option.map ofNode) (ofMap log)) :=
  bind_translate (expand_ofMap log w mem) fun w _ => bind_translate (settle_ofMap log w)
    fun w _ => insertInto_ofMap log w x

/-- A place that a search has found. -/
def ofPlace : Bool × List (KmapNode α V) × KmapNode α V × List (KmapNode α V) →
    Bool × List (KindexNode α) × KindexNode α × List (KindexNode α) :=
  Prod.map id (Prod.map (List.map ofNode) (Prod.map ofNode (List.map ofNode)))

theorem searchBoth_ofMap (stop : Bool) (hash : ℕ) (val : KPtr α) :
    (ofMap log w).searchBoth stop hash (cmpRaw (ofOpts w.guard.opts) val) =
      (w.searchBoth stop hash val).map (Option.map ofPlace) := by
  rw [searchBoth, Kmap.World.searchBoth, apply_ite (Option.map _), ofMap_ht0, ofMap_ht1,
    isNone_ofHt, isNone_ofHt]
  refine if_congr Iff.rfl rfl ?_
  simp only [Kmap.World.search, Option.bind_eq_bind, Option.bind_assoc]
  refine bind_translate (bucket_ofHt _ _) fun chain _ =>
    bind_translate (seek_cmpRaw _ _ _) fun r _ => ?_
  cases r with
  | some r => rfl
  | none =>
      simp only [Option.map_none]
      rw [apply_ite (Option.map _)]
      refine if_congr Iff.rfl rfl ?_
      refine bind_translate (bucket_ofHt _ _) fun chain _ =>
        bind_translate (seek_cmpRaw _ _ _) fun r _ => ?_
      cases r <;> rfl

theorem find_ofMap (val : KPtr α) :
    (ofMap log w).find val = (w.find val).map (Option.map ofNode) := by
  refine bind_translate_same fun h _ => bind_translate (searchBoth_ofMap log w true h val)
    fun r _ => ?_
  cases r <;> rfl

theorem unlinkBy_ofMap (val : KPtr α) :
    (ofMap log w).unlinkBy (hashOf (ofOpts w.guard.opts) val) (cmpRaw (ofOpts w.guard.opts) val) =
      (w.unlink val).map (Prod.map (Option.map ofNode) (ofMap log)) := by
  refine bind_translate (settle_ofMap log w) fun w' hw' => ?_
  rw [← settle_ofOpts w w' hw']
  refine bind_translate_same fun h _ => bind_translate (searchBoth_ofMap log w' true h val)
    fun r _ => ?_
  rcases r with _ | ⟨second, before, x, behind⟩
  · rfl
  · simp only [Option.map_some, ofPlace, Prod.map_apply, id_eq, ofMap_ht, ← List.map_append]
    refine bind_translate (setSlot_ofHt _ _ _) fun ht _ => ?_
    rw [Option.map_some, Prod.map_apply, ← ofMap_setHt]
    rfl

/-! ## Indices that are maps -/

/-- The value that a node holds. -/
def cell (node : KindexNode α) : Option (Cell α) := node.val.ptr.deref

theorem linked_ofMap : (ofMap log w).linked = (Kmap.nodes w.guard).map ofNode := by
  rw [linked, List.flatMap_cons, List.flatMap_singleton, Kmap.nodes, List.map_append,
    ← stored_ofHt, ← stored_ofHt]
  rfl

variable {w : World α}

/-- **The index is a map that is ready.** -/
def Mirrors (w : World α) : Prop :=
  ∃ m : Kmap.World α Unit, w.guard = Kindex.ofMap m.guard ∧ m.Ready

/-- Nothing has been destroyed in the map, and the log is that of the index. -/
theorem Mirrors.exists_map (M : Mirrors w) :
    ∃ m : Kmap.World α Unit, w = ofMap w.log m ∧ m.Ready ∧ m.freed = [] := by
  rcases M with ⟨m, hguard, R⟩
  refine ⟨⟨m.guard, [], [], w.kerrno⟩, ?_, ⟨R.lawful, R.good, R.cap_zero, R.first⟩, rfl⟩
  rw [ofMap, ← hguard, destroyed, List.flatMap_nil, List.append_nil]

theorem mirrors_ofMap {log : List (Dtor α)} {m : Kmap.World α Unit} (R : m.Ready) :
    Mirrors (ofMap log m) := ⟨m, rfl, R⟩

theorem mirrors_create {opts : KindexOpts α} (L : Kmap.Lawful (mapOpts opts)) :
    Mirrors (create opts) := by
  classical
  exact ⟨Kmap.World.create (mapOpts opts), rfl, (Kmap.World.inv_create L).ready⟩

theorem Mirrors.settle (M : Mirrors w) :
    ∃ m : Kmap.World α Unit, w.settle = some (ofMap w.log m) ∧ m.Ready ∧ m.freed = [] ∧
      ofOpts m.guard.opts = w.guard.opts := by
  rcases M.exists_map with ⟨m, hw, R, hfreed⟩
  rcases Kmap.World.mapRehash_spec R 1 with ⟨g, hg, hopts, R', -, -⟩
  refine ⟨{ m with guard := g }, ?_, R', hfreed, ?_⟩
  · have hsettle := settle_ofMap w.log m
    rwa [← hw, Kmap.World.settle_eq, hg] at hsettle
  · rw [hw, ofMap_opts, ← hopts]

/-- **Unlinking by value.**  The node with the value is taken out, if there is one, and
nothing is destroyed. -/
theorem Mirrors.unlinkBy (M : Mirrors w) (c : Cell α) :
    ∃ r w', w.unlinkBy (hashOf w.guard.opts (.user c)) (cmpRaw w.guard.opts (.user c)) =
        some (r, w') ∧ Mirrors w' ∧ w'.log = w.log ∧ w'.guard.opts = w.guard.opts ∧
      (r = none → ∀ x ∈ w.linked, cell x ≠ some c) ∧
      ∀ x, r = some x → cell x = some c ∧ w.linked.Perm (x :: w'.linked) := by
  rcases M.exists_map with ⟨m, hw, R, hfreed⟩
  rcases Kmap.World.unlink_spec R c with ⟨r, m', hm, hopts, R', hnone, hsome⟩
  have hunlink := unlinkBy_ofMap w.log m (.user c)
  rw [← hw, ← ofMap_opts w.log, ← hw, hm] at hunlink
  have hlinked := linked_ofMap w.log m
  rw [← hw] at hlinked
  refine ⟨r.map ofNode, ofMap w.log m', hunlink, mirrors_ofMap R', ?_, ?_, ?_, ?_⟩
  · rw [ofMap, Kmap.World.unlink_freed R hm, hfreed]
    exact List.append_nil _
  · rw [hw, ofMap_opts, ofMap_opts, hopts]
  · intro hr x hx
    rw [Option.map_eq_none_iff] at hr
    rw [hlinked] at hx
    rcases List.mem_map.mp hx with ⟨y, hy, rfl⟩
    exact (hnone hr).2 y hy
  · intro x hr
    rcases Option.map_eq_some_iff.mp hr with ⟨y, hy, rfl⟩
    rcases hsome y hy with ⟨hc, hperm⟩
    refine ⟨hc, ?_⟩
    rw [hlinked, linked_ofMap]
    exact hperm.map ofNode

/-- What is read from a table is linked in. -/
theorem mem_linked {second : Bool} {i : ℕ} {chain : List (KindexNode α)}
    (h : bucket (w.ht second) i = some chain) {x : KindexNode α} (hx : x ∈ chain) :
    x ∈ w.linked := by
  rcases bucket_eq_some h with ⟨t, ht, hi, hget⟩
  refine List.mem_flatMap.mpr ⟨w.ht second, ?_, ?_⟩
  · cases second <;> simp [World.ht]
  · rw [ht, Option.elim_some, List.mem_flatMap]
    exact ⟨i, by simpa using hi, by rw [hget]; exact hx⟩

/-- Comparisons that agree on what is equal find the same place. -/
theorem searchBoth_congr {cmp cmp' : KindexNode α → Option ℤ} (stop : Bool) (hash : ℕ)
    (h : ∀ x ∈ w.linked, ∃ y z, cmp x = some y ∧ cmp' x = some z ∧ (y = 0 ↔ z = 0)) :
    w.searchBoth stop hash cmp = w.searchBoth stop hash cmp' := by
  have hseek : ∀ second i chain, bucket (w.ht second) i = some chain →
      seek cmp chain = seek cmp' chain := by
    intro second i chain hchain
    exact seek_congr fun x hx => h x (mem_linked hchain hx)
  rw [searchBoth, searchBoth]
  refine if_congr Iff.rfl rfl (Option.bind_congr fun chain hchain => ?_)
  rw [hseek false _ chain hchain]
  refine Option.bind_congr fun r _ => ?_
  cases r with
  | some r => rfl
  | none =>
      refine if_congr Iff.rfl rfl (Option.bind_congr fun chain hchain => ?_)
      rw [hseek true _ chain hchain]

/-- Every node of the map holds a value. -/
theorem Mirrors.exists_cell (M : Mirrors w) {x : KindexNode α} (hx : x ∈ w.linked) :
    ∃ d, cell x = some d := by
  rcases M.exists_map with ⟨m, hw, R, -⟩
  rw [hw, linked_ofMap] at hx
  rcases List.mem_map.mp hx with ⟨y, hy, rfl⟩
  exact R.exists_cell hy

/-- **Unlinking by node** is unlinking by the value of the node. -/
theorem Mirrors.unlinkRaw_eq (M : Mirrors w) {node : KindexNode α} {c : Cell α}
    (hc : cell node = some c) :
    w.unlinkRaw node =
      w.unlinkBy (hashOf w.guard.opts (.user c)) (cmpRaw w.guard.opts (.user c)) := by
  rcases M.settle with ⟨m, hsettle, R, -, hopts⟩
  have L := R.lawful
  have hhash : hashNode w.guard.opts node = hashOf w.guard.opts (.user c) := by
    have hget : kmathValGet node.val (ofOpts m.guard.opts).valType = node.val.ptr :=
      kmathValGet_of_isPointer L.pointer _
    rw [← hopts, hashNode, hget]
    exact congrArg (Option.map _) hc
  rw [unlinkRaw, hhash, World.unlinkBy, World.unlinkBy, hsettle]
  refine Option.bind_congr fun w1 hw1 => Option.bind_congr fun h _ => ?_
  cases hw1
  rw [searchBoth_congr true h]
  intro x hx
  rcases (mirrors_ofMap R).exists_cell hx with ⟨d, hd⟩
  refine ⟨m.guard.opts.keyCmp c d, m.guard.opts.keyCmp d c, ?_, ?_, ?_⟩
  · rw [← hopts]
    exact kmathValCmp_of_isPointer L.pointer hc hd _
  · rw [← hopts]
    exact kmathValCmpRaw_of_isPointer L.pointer hd rfl _
  · rw [L.cmp_zero, L.cmp_zero, eq_comm]

/-- An insertion of the value would see it if it were in the index: it is not, or no move is
under way or about to start. -/
def Sees (w : World α) (c : Cell α) : Prop :=
  (w.isRehashing || w.htNeedExpand) = true → ∀ x ∈ w.linked, cell x ≠ some c

/-- The expansion asks for a number of buckets that `kylin_index_resize` may be given. -/
def expands (w : World α) : Bool :=
  w.isRehashing || !w.htNeedExpand || w.guard.ht0.used * 2 ≤ 2 ^ 31

theorem not_lagging [DecidableEq α] {log : List (Dtor α)} {m : Kmap.World α Unit} {c : Cell α}
    (h : (ofMap log m).Sees c) : m.lagging c = false := by
  rw [← Bool.not_eq_true]
  intro hlag
  rw [Kmap.World.lagging, Bool.and_eq_true] at hlag
  rcases hlag with ⟨hmoves, hany⟩
  cases ht : m.guard.ht0.table with
  | none => simp [ht] at hany
  | some t =>
      rw [ht, Option.elim_some, List.any_eq_true] at hany
      rcases hany with ⟨i, hi, hany⟩
      rw [Bool.and_eq_true, List.any_eq_true] at hany
      rcases hany.1 with ⟨x, hx, hcx⟩
      refine h hmoves (ofNode x) ?_ (of_decide_eq_true hcx)
      rw [linked_ofMap]
      refine List.mem_map_of_mem (List.mem_append_left _ ?_)
      rw [Kmap.stored_of_table ht]
      exact mem_contents.mpr ⟨i, by simpa using hi, hx⟩

/-- **Inserting a node.** -/
theorem Mirrors.insertRaw (M : Mirrors w) {node : KindexNode α} {c : Cell α}
    (hc : cell node = some c) (hsees : w.Sees c) (hexp : w.expands = true) :
    ∃ x w', w.insertRaw true node = some (some x, w') ∧ Mirrors w' ∧
      w'.guard.opts = w.guard.opts := by
  classical
  rcases M.exists_map with ⟨m, hw, R, -⟩
  have hlag : m.lagging c = false := by
    rw [hw] at hsees
    exact not_lagging hsees
  have hexp' : m.expands = true := by
    rw [hw] at hexp
    exact hexp
  generalize hx : (⟨node.addr, node.val, .word 0, .others, 0⟩ : KmapNode α Unit) = x
  have hcx : Kmap.cell x = some c := by
    rw [← hx]
    exact hc
  rcases Kmap.World.insertRaw_spec R hcx hlag hexp' with ⟨y, m', hm, hopts, R', -⟩
  have hraw := insertRaw_ofMap w.log m true x
  rw [← hw, hm] at hraw
  refine ⟨ofNode y, ofMap w.log m', ?_, mirrors_ofMap R', ?_⟩
  · rw [← hx] at hraw
    exact hraw
  · rw [hw, ofMap_opts, ofMap_opts, hopts]

/-- **Resizing.** -/
theorem Mirrors.resize (M : Mirrors w) {count : ℕ} (hcount : 2 ≤ count ∧ count ≤ 2 ^ 31) :
    ∃ code w', w.resize true count = some (code, w') ∧ Mirrors w' ∧
      w'.guard.opts = w.guard.opts := by
  rcases M.exists_map with ⟨m, hw, R, -⟩
  rcases Kmap.World.resize_spec R count fun _ => hcount with ⟨code, m', hm, hopts, R', -⟩
  have hresize := resize_ofMap w.log m true count
  rw [← hw, hm] at hresize
  exact ⟨code, ofMap w.log m', hresize, mirrors_ofMap R', by rw [hw, ofMap_opts, ofMap_opts, hopts]⟩

/-- **Replacing.**  The node with the value gets a new pointer to it. -/
theorem Mirrors.replace (M : Mirrors w) (c : Cell α) :
    ∃ r w', w.replace (.user c) = some (r, w') ∧ Mirrors w' ∧ w'.guard.opts = w.guard.opts := by
  rcases M.settle with ⟨m, hsettle, R, -, hopts⟩
  rcases Kmap.World.searchBoth_spec R false c with ⟨r, hr, hsome, -⟩
  have hsearch := searchBoth_ofMap w.log m false (m.guard.opts.hash c).toNat (.user c)
  rw [hr] at hsearch
  have hhash : hashOf (ofOpts m.guard.opts) (.user c) = some (m.guard.opts.hash c).toNat := rfl
  rcases r with _ | ⟨second, before, x, behind⟩
  · refine ⟨none, ofMap w.log m, ?_, mirrors_ofMap R, hopts⟩
    rw [Option.map_some, Option.map_none] at hsearch
    simp [World.replace, hsettle, hhash, hsearch]
  · rcases hsome second before x behind rfl with ⟨tb, hn, hchain, hcx⟩
    rcases kmathValCtor_of_isPointer R.lawful.pointer c m.guard.opts.keyCtor with ⟨p, hp, hpc⟩
    have hctor : kmathValCtor (.user c) (ofOpts m.guard.opts).valType
        (ofOpts m.guard.opts).valCtor = some (.v p) := hp
    have hcnew : Kmap.cell ({ x with key := .v p } : KmapNode α Unit) = some c := hpc
    rcases R.substitute hn hchain hcx hcnew with ⟨ht, rest, hset, hR, -, -⟩
    have hslot := setSlot_ofHt (m.ht second) ((m.guard.opts.hash c).toNat &&& (m.ht second).mask)
      (before ++ { x with key := .v p } :: behind)
    rw [hset, List.map_append, List.map_cons] at hslot
    have hmask : (ofHt (m.ht second)).mask = (m.ht second).mask := rfl
    refine ⟨some ⟨x.addr, .v p⟩, { ofMap w.log (m.setHt second ht) with
      log := (ofMap w.log m).log ++ (kmathValDtor x.key m.guard.opts.keyType).map .val },
      ?_, ⟨m.setHt second ht, rfl, hR⟩, ?_⟩
    · rw [Option.map_some, Option.map_some] at hsearch
      simp only [World.replace, hsettle, ofMap_opts, ofMap_ht, Option.bind_eq_bind,
        Option.bind_some, hhash, hsearch, ofPlace, Prod.map_apply, id_eq, hctor, hmask]
      rw [ofNode] at hslot
      rw [ofNode, hslot]
      simp [ofOpts]
    · cases second <;> exact hopts

/-! ## Removal -/

section Remove
variable {w' : World α} {c : Cell α} {x : KindexNode α}

theorem unlink_of_none (h : w.unlinkBy (hashOf w.guard.opts (.user c))
      (cmpRaw w.guard.opts (.user c)) = some (none, w')) :
    w.unlink (.user c) = some (.null, w') := by
  rw [unlink, h]
  rfl

theorem unlink_of_some (hptr : w'.guard.opts.valType.IsPointer)
    (h : w.unlinkBy (hashOf w.guard.opts (.user c))
      (cmpRaw w.guard.opts (.user c)) = some (some x, w')) :
    w.unlink (.user c) = some (x.val.ptr, { w' with log := w'.log ++ [.node x.addr] }) := by
  rw [unlink, h, ← kmathValGet_of_isPointer hptr]
  rfl

theorem remove_of_none (h : w.unlinkBy (hashOf w.guard.opts (.user c))
      (cmpRaw w.guard.opts (.user c)) = some (none, w')) :
    w.remove (.user c) = some (.nodata, w') := by
  rw [remove, unlink_of_none h]
  rfl

/-- What `kylin_index_remove` destroys: the node, inside `kylin_index_unlink`, and then the
memory of the value as if it were a node, with its first word as the value of that node. -/
theorem remove_of_some (hptr : w'.guard.opts.valType.IsPointer) (hx : cell x = some c)
    (h : w.unlinkBy (hashOf w.guard.opts (.user c))
      (cmpRaw w.guard.opts (.user c)) = some (some x, w')) :
    w.remove (.user c) = some (.ok, { w' with
      log := w'.log ++ [.node x.addr, .valAt x.val.ptr, .nodeAt x.val.ptr] }) := by
  have hint : ¬ w'.guard.opts.valType.IsInt := by
    intro hint
    revert hptr hint
    cases w'.guard.opts.valType <;> decide
  rw [remove, unlink_of_some hptr h]
  cases hp : x.val.ptr with
  | null => simp [cell, hp, KPtr.deref] at hx
  | user d => simp [hint]
  | copy d => simp [hint]
  | raw b => simp [cell, hp, KPtr.deref] at hx

end Remove

theorem Mirrors.pointer (M : Mirrors w) : w.guard.opts.valType.IsPointer := by
  rcases M with ⟨m, hguard, R⟩
  rw [hguard]
  exact R.lawful.pointer

theorem Mirrors.remove (M : Mirrors w) (c : Cell α) :
    ∃ code w', w.remove (.user c) = some (code, w') ∧ Mirrors w' ∧
      w'.guard.opts = w.guard.opts := by
  rcases M.unlinkBy c with ⟨r, w', hr, M', -, hopts, -, hsome⟩
  cases r with
  | none => exact ⟨.nodata, w', remove_of_none hr, M', hopts⟩
  | some x => exact ⟨.ok, _, remove_of_some M'.pointer (hsome x rfl).1 hr, M', hopts⟩

theorem Mirrors.unlink (M : Mirrors w) (c : Cell α) :
    ∃ p w', w.unlink (.user c) = some (p, w') ∧ Mirrors w' ∧ w'.guard.opts = w.guard.opts := by
  rcases M.unlinkBy c with ⟨r, w', hr, M', -, hopts, -⟩
  cases r with
  | none => exact ⟨.null, w', unlink_of_none hr, M', hopts⟩
  | some x => exact ⟨_, _, unlink_of_some M'.pointer hr, M', hopts⟩

theorem Mirrors.unlinkRaw (M : Mirrors w) {node : KindexNode α} {c : Cell α}
    (hc : cell node = some c) :
    ∃ r w', w.unlinkRaw node = some (r, w') ∧ Mirrors w' ∧ w'.guard.opts = w.guard.opts := by
  rw [M.unlinkRaw_eq hc]
  rcases M.unlinkBy c with ⟨r, w', hr, M', -, hopts, -⟩
  exact ⟨r, w', hr, M', hopts⟩

theorem Mirrors.removeRaw (M : Mirrors w) {node : KindexNode α} {c : Cell α}
    (hc : cell node = some c) :
    ∃ code w', w.removeRaw node = some (code, w') ∧ Mirrors w' ∧
      w'.guard.opts = w.guard.opts := by
  rcases M.unlinkRaw hc with ⟨r, w', hr, M', hopts⟩
  cases r with
  | none => exact ⟨.nodata, w', by simp [World.removeRaw, hr], M', hopts⟩
  | some x => exact ⟨.ok, { w' with log := w'.log ++ destroyNode w'.guard.opts x },
      by simp [World.removeRaw, hr], M', hopts⟩

theorem Mirrors.insert (M : Mirrors w) {c : Cell α} (addr : ℕ) (hsees : w.Sees c)
    (hexp : w.expands = true) :
    ∃ p w', w.insert (some addr) true (.user c) = some (p, w') ∧ Mirrors w' ∧
      w'.guard.opts = w.guard.opts := by
  rcases kmathValCtor_of_isPointer M.pointer c w.guard.opts.valCtor with ⟨p, hp, hpc⟩
  have hc : cell (⟨addr, .v p⟩ : KindexNode α) = some c := hpc
  rcases M.insertRaw hc hsees hexp with ⟨x, w', hraw, M', hopts⟩
  exact ⟨kmathValGet x.val w'.guard.opts.valType, w', by simp [World.insert, hp, hraw], M', hopts⟩

theorem Mirrors.find (M : Mirrors w) (c : Cell α) : ∃ r, w.find (.user c) = some r := by
  rcases M.exists_map with ⟨m, hw, R, -⟩
  rcases Kmap.World.find_spec R c with ⟨r, hr, -⟩
  have hfind := find_ofMap w.log m (.user c)
  rw [← hw, hr] at hfind
  exact ⟨_, hfind⟩

/-! ## Runs -/

/-- The calls under which an index stays a map: an insertion sees whether its value is there
and does not expand past the counts a caller may ask for, and a node that is handed over
holds a value.  Clearing leaves the tables pointing to nodes that are freed. -/
def Sound (w : World α) : Call α → Prop
  | .insert val _ => w.Sees val ∧ w.expands = true
  | .insertRaw node => (∃ c ∈ cell node, w.Sees c) ∧ w.expands = true
  | .removeRaw node | .unlinkRaw node => (cell node).isSome
  | .resize count => 2 ≤ count ∧ count ≤ 2 ^ 31
  | .clear => False
  | .remove _ | .unlink _ | .replace _ | .find _ => True

instance [DecidableEq α] (w : World α) (c : Cell α) : Decidable (w.Sees c) :=
  inferInstanceAs (Decidable (_ = true → ∀ x ∈ w.linked, cell x ≠ some c))

instance [DecidableEq α] (w : World α) (call : Call α) : Decidable (w.Sound call) :=
  match call with
  | .insert .. => inferInstanceAs (Decidable (Sees _ _ ∧ _ = true))
  | .insertRaw node => inferInstanceAs (Decidable ((∃ c ∈ cell node, w.Sees c) ∧ _ = true))
  | .removeRaw _ | .unlinkRaw _ => inferInstanceAs (Decidable (_ = true))
  | .resize _ => inferInstanceAs (Decidable (_ ≤ _ ∧ _ ≤ _))
  | .clear => .isFalse id
  | .remove _ | .unlink _ | .replace _ | .find _ => .isTrue trivial

/-- **One call.**  It returns, and the index stays a map. -/
theorem Mirrors.step (M : Mirrors w) {call : Call α} (hok : w.Sound call) :
    ∃ r w', w.step call = some (r, w') ∧ Mirrors w' ∧ w'.guard.opts = w.guard.opts := by
  cases call with
  | insert val addr =>
      rcases M.insert addr hok.1 hok.2 with ⟨p, w', h, M'⟩
      exact ⟨_, w', by rw [World.step, h]; rfl, M'⟩
  | insertRaw node =>
      rcases hok with ⟨⟨c, hc, hsees⟩, hexp⟩
      rcases M.insertRaw hc hsees hexp with ⟨x, w', h, M'⟩
      exact ⟨_, w', by rw [World.step, h]; rfl, M'⟩
  | remove val =>
      rcases M.remove val with ⟨code, w', h, M'⟩
      exact ⟨_, w', by rw [World.step, h]; rfl, M'⟩
  | removeRaw node =>
      rcases Option.isSome_iff_exists.mp hok with ⟨c, hc⟩
      rcases M.removeRaw hc with ⟨code, w', h, M'⟩
      exact ⟨_, w', by rw [World.step, h]; rfl, M'⟩
  | unlink val =>
      rcases M.unlink val with ⟨p, w', h, M'⟩
      exact ⟨_, w', by rw [World.step, h]; rfl, M'⟩
  | unlinkRaw node =>
      rcases Option.isSome_iff_exists.mp hok with ⟨c, hc⟩
      rcases M.unlinkRaw hc with ⟨r, w', h, M'⟩
      exact ⟨_, w', by rw [World.step, h]; rfl, M'⟩
  | replace val =>
      rcases M.replace val with ⟨r, w', h, M'⟩
      exact ⟨_, w', by rw [World.step, h]; rfl, M'⟩
  | find val =>
      rcases M.find val with ⟨r, h⟩
      exact ⟨_, w, by rw [World.step, h]; rfl, M, rfl⟩
  | resize count =>
      rcases M.resize hok with ⟨code, w', h, M'⟩
      exact ⟨_, w', by rw [World.step, h]; rfl, M'⟩
  | clear => exact hok.elim

theorem numberOpts_lawful : Kmap.Lawful (mapOpts numberOpts) where
  pointer := by decide
  cmp_zero := Kmap.World.numberOpts_lawful.cmp_zero

/-- **Every run of sound calls stays with a map.** -/
theorem mirrors_of_run {opts : KindexOpts α} (L : Kmap.Lawful (mapOpts opts))
    {tr : List (Step (World α) (Call α) (Answer α))} (h : Run step Sound (create opts) tr w) :
    Mirrors w := by
  refine h.invariant (I := Mirrors) (mirrors_create L) ?_
  intro w call r w' M hok hstep
  rcases M.step hok with ⟨r', w'', hstep', M', -⟩
  rw [hstep'] at hstep
  cases hstep
  exact M'

end World

end Kindex

end Kylin
