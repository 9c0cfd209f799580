import Kylin.Lib.Ensures
import Kylin.Lib.Migration
import Kylin.Math.IndexMap

/-!
# Counting while rehashing

`_map_rehash` and `_index_rehash` look for the next bucket to move as long as `ht[0].used`
is not zero, and do not look where the table ends.  So `used` has to be exact in every
state in which they are called, whatever the callbacks and the key type are.

It is exact as long as every node of a bucket that is moved arrives.  A node that compares
equal to one of the bucket it goes to is destroyed instead, and `used` still counts it: when
everything else has been moved, the search runs off the table.

The two functions are the same `Lib.Migration`, over chains in the map and over table
entries, which may also be stale, in the index.  A map is counted as the index that it is.

## Main definitions

* `Kmap.Counted`, `Kindex.Counted` — the counts are exact.
* `Kmap.Undropped`, `Kindex.Undropped` — the bucket that is moved next arrives whole.
* `Kmap.ScansInside`, `Kindex.ScansInside` — the search for the next bucket ends inside
  the table.

## Main results

* `scansInside_of_run` — in runs that drop no node the search ends inside the table.
* `not_scansInside_dropped` — in a run that drops one it does not.
-/

namespace Kylin

open Lib

/-! ## The index -/

namespace Kindex
variable {α : Type}

/-- The nodes that an entry of a table leads to. -/
def slotCount : KindexSlot α → ℕ
  | .chain nodes => nodes.length
  | .freed => 0

/-- What is counted of a table. -/
def tally (ht : KindexHt α) : Tally (KindexSlot α) := ⟨ht.table, ht.cap, ht.used⟩

/-- What is counted of an index. -/
def migration (m : Kindex α) : Migration (KindexSlot α) := ⟨tally m.ht0, tally m.ht1, m.rehashidx⟩

/-- The counts of an index are exact. -/
def Counted (m : Kindex α) : Prop := (migration m).Exact slotCount

/-- **The search for the next bucket ends inside the table**: there is an entry that is not
`NULL` at or behind `rehashidx` and inside the table, and the first of them is where the search
stops, if an `int32_t` can count the buckets. -/
def ScansInside (m : Kindex α) : Prop :=
  ∀ idx, m.rehashidx = some idx → m.ht0.used ≠ 0 → ∃ t i, m.ht0.table = some t ∧
    t.size = m.ht0.cap ∧ idx ≤ i ∧ i < m.ht0.cap ∧ (t.get i).isNull = false ∧
    (∀ j, idx ≤ j → j < i → (t.get j).isNull = true) ∧
    (m.ht0.cap < 2 ^ 31 → World.scan t (t.size + 1) idx = some i)

theorem slotCount_of_isNull {slot : KindexSlot α} (h : slot.isNull = true) :
    slotCount slot = 0 := by
  cases slot with
  | chain nodes => simpa [KindexSlot.isNull, slotCount] using h
  | freed => rfl

theorem Counted.scansInside {m : Kindex α} (H : Counted m) : ScansInside m := by
  intro idx hidx hused
  have hempty : ∀ slot : KindexSlot α, (!slot.isNull) = false → slotCount slot = 0 :=
    fun slot hslot => slotCount_of_isNull (by simpa using hslot)
  rcases H.firstAt hempty (2 ^ 31) hidx hused with ⟨t, i, ht, hsize, F, hprobe⟩
  refine ⟨t, i, ht, hsize, F.le, F.lt.trans_eq hsize, by simpa using F.here, fun k hk hki => ?_,
    hprobe⟩
  simpa using F.skip k hk hki

/-! ### Buckets -/

section Bucket
variable {ht ht' : KindexHt α} {i : ℕ} {chain : List (KindexNode α)} {slot : KindexSlot α}

theorem setSlot_eq_some (h : setSlot ht i slot = some ht') :
    ∃ t, ht.table = some t ∧ i < t.size ∧
      ht' = { ht with table := some { t with get := Function.update t.get i slot } } := by
  rcases Option.bind_eq_some_iff.mp h with ⟨t, ht, hstore⟩
  rw [Buffer.store] at hstore
  split at hstore
  · exact ⟨t, ht, ‹_›, (Option.some.inj hstore).symm⟩
  · cases hstore

/-- The nodes in a bucket; there are none outside the table. -/
def nodesAt (ht : KindexHt α) (i : ℕ) : List (KindexNode α) := (bucket ht i).getD []

theorem nodesAt_setSlot (h : setSlot ht i (.chain chain) = some ht') :
    nodesAt ht' = Function.update (nodesAt ht) i chain := by
  rcases setSlot_eq_some h with ⟨t, htable, hi, rfl⟩
  funext j
  by_cases hji : j = i
  · subst hji
    simp [nodesAt, bucket, Buffer.load, hi, KindexSlot.follow]
  · simp [nodesAt, bucket, htable, Buffer.load, Function.update_of_ne hji]

end Bucket

/-! ### Moving a bucket -/

/-- The bucket of `ht[1]` that a node goes to. -/
def place (m : Kindex α) (node : KindexNode α) : Option ℕ :=
  (hashNode m.opts node).map fun hash => hash &&& m.ht1.mask

/-- The values of two nodes compare equal. -/
def Same (m : Kindex α) (node cmp : KindexNode α) : Prop := cmpNode m.opts node cmp = some 0

instance (m : Kindex α) : DecidableRel (Same m) := fun _ _ => inferInstanceAs (Decidable (_ = _))

/-- The nodes can be moved one after the other, and no one is dropped. -/
def Movable (m : Kindex α) (nodes : List (KindexNode α)) : Prop :=
  Apart (place m) (Same m) (nodesAt m.ht1) nodes

instance (m : Kindex α) (nodes : List (KindexNode α)) : Decidable (Movable m nodes) :=
  inferInstanceAs (Decidable (Apart _ _ _ _))

/-- The chain that is moved next, if any: the first at or behind `rehashidx`. -/
def moving (m : Kindex α) : Option (List (KindexNode α)) :=
  m.ht0.table.bind fun t => m.rehashidx.bind fun idx =>
    (firstFrom (fun slot => !slot.isNull) t idx).bind KindexSlot.follow

/-- **The next bucket arrives whole.** -/
def Undropped (m : Kindex α) : Prop := ∀ chain ∈ moving m, Movable m chain

instance (m : Kindex α) : Decidable (Undropped m) :=
  inferInstanceAs (Decidable (∀ chain ∈ moving m, Movable m chain))

namespace World
variable {w w' : World α}

/-- A node that meets none with its value is moved. -/
theorem moveNode_counted {x : KindexNode α} {xs : List (KindexNode α)}
    (H : (tally w.guard.ht1).Exact slotCount) (hmov : Movable w.guard (x :: xs)) :
    Ensures (w.moveNode x) fun w' => ∃ ht1, w' = { w with guard := { w.guard with
        ht0 := { w.guard.ht0 with used := w.guard.ht0.used - 1 }, ht1 := ht1 } } ∧
      (tally ht1).Exact slotCount ∧ Movable w'.guard xs := by
  intro w' h
  rcases Option.bind_eq_some_iff.mp h with ⟨hash, hhash, h⟩
  rcases Option.bind_eq_some_iff.mp h with ⟨chain, hchain, h⟩
  rcases Option.bind_eq_some_iff.mp h with ⟨r, hwalk, h⟩
  have hplace : place w.guard x = some (hash &&& w.guard.ht1.mask) := by rw [place, hhash]; rfl
  have hdest : nodesAt w.guard.ht1 (hash &&& w.guard.ht1.mask) = chain := by
    rw [nodesAt, hchain]
    rfl
  have hnone : r = none := by
    refine seek_eq_none hwalk fun y hy => ?_
    rw [← hdest] at hy
    exact hmov.head hplace y hy
  subst hnone
  rcases Option.bind_eq_some_iff.mp h with ⟨ht1, hset, h⟩
  cases h
  have hnodes := nodesAt_setSlot hset
  rcases setSlot_eq_some hset with ⟨t, ht, hi, rfl⟩
  rcases bucket_eq_some hchain with ⟨t', ht', -, hget⟩
  cases ht.symm.trans ht'
  refine ⟨_, rfl, H.store ht hi ?_, ?_⟩
  · rw [hget]
    simp only [tally, slotCount, List.length_cons]
    omega
  · have htail := hmov.tail hplace
    rw [hdest, ← hnodes] at htail
    exact htail

/-- A chain that meets none of its values is moved as a whole. -/
theorem moveChain_counted {chain : List (KindexNode α)} (H : (tally w.guard.ht1).Exact slotCount)
    (hmov : Movable w.guard chain) :
    Ensures (chain.foldlM moveNode w) fun w' => ∃ ht1, w' = { w with guard := { w.guard with
        ht0 := { w.guard.ht0 with used := w.guard.ht0.used - chain.length }, ht1 := ht1 } } ∧
      (tally ht1).Exact slotCount := by
  -- `k` nodes have been moved, and the nodes `xs` are left
  have hloop := Ensures.foldlM_count (f := moveNode) (b := w) (k := 0) (I := fun k xs w' =>
    ∃ ht1, w' = { w with guard := { w.guard with
        ht0 := { w.guard.ht0 with used := w.guard.ht0.used - k }, ht1 := ht1 } } ∧
      (tally ht1).Exact slotCount ∧ Movable w'.guard xs)
    ⟨w.guard.ht1, rfl, H, hmov⟩ ?_
  · rw [Nat.zero_add] at hloop
    refine hloop.mono fun w' h => ?_
    rcases h with ⟨ht1, rfl, H1, -⟩
    exact ⟨ht1, rfl, H1⟩
  · intro k w1 x xs h
    rcases h with ⟨ht1, rfl, H1, hmov1⟩
    refine (moveNode_counted H1 hmov1).mono fun w2 h2 => ?_
    rcases h2 with ⟨ht1', rfl, H2, hmov2⟩
    exact ⟨ht1', rfl, H2, hmov2⟩

/-- One turn of `_index_rehash`. -/
theorem rehashTurn_counted (H : Counted w.guard) (hun : Undropped w.guard) :
    Ensures w.rehashTurn fun w' => Counted w'.guard := by
  intro w' h
  rcases Option.bind_eq_some_iff.mp h with ⟨t, ht, h⟩
  rcases Option.bind_eq_some_iff.mp h with ⟨idx, hidx, h⟩
  rcases Option.bind_eq_some_iff.mp h with ⟨i, hscan, h⟩
  rcases Option.bind_eq_some_iff.mp h with ⟨slot, hload, h⟩
  rcases Option.bind_eq_some_iff.mp h with ⟨chain, hfollow, h⟩
  rcases Option.bind_eq_some_iff.mp h with ⟨w1, hmove, h⟩
  rcases Option.bind_eq_some_iff.mp h with ⟨ht0, hset, h⟩
  have F := probe_firstAt hscan
  rw [Buffer.load_of_lt F.lt, Option.some.injEq] at hload
  have hmov : Movable w.guard chain := by
    refine hun _ ?_
    rw [moving, ht, hidx, Option.bind_some, Option.bind_some, F.firstFrom_eq, hload]
    exact hfollow
  have hslot : t.get i = .chain chain := by
    rw [hload]
    cases slot with
    | chain nodes => rw [Option.some.inj hfollow]
    | freed => cases hfollow
  rcases moveChain_counted H.new hmov w1 hmove with ⟨ht1, rfl, H1⟩
  rcases setSlot_eq_some hset with ⟨t', ht', -, rfl⟩
  cases ht.symm.trans ht'
  split at h
  · cases h
    have hcarry := H.carry ht F.lt hidx (fun j hj hji => slotCount_of_isNull ?_)
      (c := .chain []) rfl H1
    · rw [hslot] at hcarry
      exact hcarry
    · simpa using F.skip j hj hji
  · cases h

/-- The step with which every modification starts. -/
theorem settle_counted (H : Counted w.guard) (hun : Undropped w.guard) :
    Ensures w.settle fun w' => Counted w'.guard := by
  have hloop : Ensures (rehashLoop 1 w) fun w' => Counted w'.guard := by
    rw [rehashLoop]
    refine Ensures.ite (Ensures.some H) ?_
    exact (rehashTurn_counted H hun).bind fun w1 H1 => Ensures.some H1
  rw [settle, indexRehash]
  refine Ensures.ite (Ensures.ite (hloop.bind fun w1 H1 => ?_) (Ensures.some H)) (Ensures.some H)
  exact Ensures.ite (Ensures.some (H1.swap 0)) (Ensures.some H1)

/-! ### The operations -/

/-- Exchanging a bucket of the index. -/
theorem counted_setHt (H : Counted w.guard) {second : Bool} {i n : ℕ}
    {chain chain' : List (KindexNode α)} {ht : KindexHt α}
    (hold : bucket (w.ht second) i = some chain)
    (hset : setSlot (w.ht second) i (.chain chain') = some ht)
    (hn : chain.length ≤ ht.used → n + chain.length = ht.used + chain'.length)
    (hbelow : second = false → w.isRehashing → chain = [] → chain' = []) :
    Counted (w.setHt second { ht with used := n }).guard := by
  rcases bucket_eq_some hold with ⟨t, htable, hi, hget⟩
  rcases setSlot_eq_some hset with ⟨t', htable', -, rfl⟩
  cases htable.symm.trans htable'
  have hlen : slotCount (t.get i) = chain.length := by rw [hget]; rfl
  rw [← hlen] at hn
  cases second with
  | false =>
      refine H.storeOld htable hi (hn (H.old.le_used htable hi)) fun hre hzero => ?_
      rw [hbelow rfl hre (List.length_eq_zero_iff.mp (hlen.symm.trans hzero))]
      rfl
  | true => exact H.storeNew htable hi (hn (H.new.le_used htable hi))

/-- What the search of both tables finds is in a bucket. -/
theorem searchBoth_found {stop second : Bool} {hash : ℕ} {cmp : KindexNode α → Option ℤ}
    {before behind : List (KindexNode α)} {x : KindexNode α}
    (h : w.searchBoth stop hash cmp = some (some (second, before, x, behind))) :
    bucket (w.ht second) (hash &&& (w.ht second).mask) = some (before ++ x :: behind) := by
  rw [searchBoth] at h
  split at h
  · cases h
  rcases Option.bind_eq_some_iff.mp h with ⟨chain, hchain, h⟩
  rcases Option.bind_eq_some_iff.mp h with ⟨r, hr, h⟩
  rcases r with _ | r
  · dsimp only at h
    split at h
    · cases h
    rcases Option.bind_eq_some_iff.mp h with ⟨chain, hchain, h⟩
    rcases Option.bind_eq_some_iff.mp h with ⟨r, hr, h⟩
    rcases r with _ | r
    · cases h
    · cases h
      rw [← (seek_eq_some hr).1]
      exact hchain
  · cases h
    rw [← (seek_eq_some hr).1]
    exact hchain

theorem unlinkBy_counted (H : Counted w.guard) (hun : Undropped w.guard) (hash : Option ℕ)
    (cmp : KindexNode α → Option ℤ) :
    Ensures (w.unlinkBy hash cmp) fun p => Counted p.2.guard := by
  refine (settle_counted H hun).bind fun w1 H1 => Ensures.any.bind fun hash _ => ?_
  intro p h
  rcases Option.bind_eq_some_iff.mp h with ⟨r, hr, h⟩
  rcases r with _ | ⟨second, before, x, behind⟩
  · cases h
    exact H1
  · rcases Option.bind_eq_some_iff.mp h with ⟨ht, hset, h⟩
    cases h
    refine counted_setHt H1 (searchBoth_found hr) hset ?_ (by simp)
    simp only [List.length_append, List.length_cons]
    omega

theorem unlink_counted (H : Counted w.guard) (hun : Undropped w.guard) (val : KPtr α) :
    Ensures (w.unlink val) fun p => Counted p.2.guard := by
  refine (unlinkBy_counted H hun _ _).bind fun p Hp => ?_
  rcases p with ⟨_ | x, w1⟩
  · exact Ensures.some Hp
  · exact Ensures.some Hp

theorem remove_counted (H : Counted w.guard) (hun : Undropped w.guard) (val : KPtr α) :
    Ensures (w.remove val) fun p => Counted p.2.guard := by
  refine (unlink_counted H hun val).bind fun p Hp => ?_
  rcases p with ⟨_ | _ | _ | _, w1⟩
  · exact Ensures.some Hp
  · exact Ensures.some Hp
  · exact Ensures.some Hp
  · exact Ensures.some Hp

theorem removeRaw_counted (H : Counted w.guard) (hun : Undropped w.guard) (cmp : KindexNode α) :
    Ensures (w.removeRaw cmp) fun p => Counted p.2.guard := by
  refine (unlinkBy_counted H hun _ _).bind fun p Hp => ?_
  rcases p with ⟨_ | x, w1⟩
  · exact Ensures.some Hp
  · exact Ensures.some Hp

theorem replace_counted (H : Counted w.guard) (hun : Undropped w.guard) (val : KPtr α) :
    Ensures (w.replace val) fun p => Counted p.2.guard := by
  refine (settle_counted H hun).bind fun w1 H1 => Ensures.any.bind fun hash _ => ?_
  intro p h
  rcases Option.bind_eq_some_iff.mp h with ⟨r, hr, h⟩
  rcases r with _ | ⟨second, before, x, behind⟩
  · cases h
    exact H1
  · rcases Option.bind_eq_some_iff.mp h with ⟨v, -, h⟩
    rcases Option.bind_eq_some_iff.mp h with ⟨ht, hset, h⟩
    cases h
    exact counted_setHt (n := ht.used) H1 (searchBoth_found hr) hset (by simp) (by simp)

theorem resize_counted (H : Counted w.guard) (count : ℕ) :
    Ensures (w.resize true count) fun p => Counted p.2.guard := by
  rw [resize]
  split
  · exact Ensures.some H
  rename_i hre
  have hidx : w.guard.rehashidx = none := by simpa [isRehashing] using hre
  refine Ensures.any.bind fun realCount _ => Ensures.ite (Ensures.some H) ?_
  have hnew : (tally (⟨some ⟨realCount, fun _ => .chain []⟩, realCount, realCount - 1, 0⟩ :
      KindexHt α)).Exact slotCount := Tally.exact_fresh (c := KindexSlot.chain []) rfl realCount
  refine Ensures.ite (Ensures.some ?_) (Ensures.some (H.start hnew))
  have hold := H.replaceOld hnew
  rw [← hidx] at hold
  exact hold

theorem expand_counted (H : Counted w.guard) :
    Ensures (w.expand true) fun w' => Counted w'.guard := by
  rw [expand]
  refine Ensures.ite ?_ (Ensures.some H)
  exact Ensures.map (f := Prod.snd) (resize_counted H _)

theorem insertInto_counted (H : Counted w.guard) (node : KindexNode α) :
    Ensures (w.insertInto node) fun p => Counted p.2.guard := by
  intro p h
  rw [insertInto] at h
  split at h
  · cases h
    exact H
  rcases Option.bind_eq_some_iff.mp h with ⟨hash, -, h⟩
  rcases Option.bind_eq_some_iff.mp h with ⟨chain, hchain, h⟩
  rcases Option.bind_eq_some_iff.mp h with ⟨r, -, h⟩
  rcases r with _ | ⟨before, x, behind⟩
  · rcases Option.bind_eq_some_iff.mp h with ⟨ht, hset, h⟩
    cases h
    refine counted_setHt H hchain hset ?_ ?_
    · intro _
      rw [List.length_cons]
      omega
    · intro hno hre
      rw [hno] at hre
      cases hre
  · cases h
    exact H

theorem insertRaw_counted (H : Counted w.guard) (hun : ∀ w1 ∈ w.expand true, Undropped w1.guard)
    (node : KindexNode α) : Ensures (w.insertRaw true node) fun p => Counted p.2.guard := by
  have hexpand : Ensures (w.expand true) fun w1 => Counted w1.guard ∧ Undropped w1.guard :=
    fun w1 h1 => ⟨expand_counted H w1 h1, hun w1 h1⟩
  refine hexpand.bind fun w1 H1 => ?_
  exact (settle_counted H1.1 H1.2).bind fun w2 H2 => insertInto_counted H2 _

theorem insert_counted (H : Counted w.guard) (hun : ∀ w1 ∈ w.expand true, Undropped w1.guard)
    (addr : ℕ) (val : KPtr α) :
    Ensures (w.insert (some addr) true val) fun p => Counted p.2.guard := by
  refine Ensures.any.bind fun v _ => (insertRaw_counted H hun _).bind fun p Hp => ?_
  rcases p with ⟨_ | node, w1⟩
  · exact Ensures.ite (Ensures.some Hp) Ensures.none
  · exact Ensures.some Hp

/-- Clearing a bucket takes its nodes off the count. -/
theorem htClear_counted {opts : KindexOpts α} {ht : KindexHt α} {log : List (Dtor α)}
    (H : (tally ht).Exact slotCount) :
    Ensures (htClear opts ht log) fun p => (tally p.1).Exact slotCount := by
  refine Ensures.ite (Ensures.some H) ?_
  refine Ensures.foldlM (I := fun _ (p : KindexHt α × List (Dtor α)) =>
    (tally p.1).Exact slotCount) H fun p i _ Hp => ?_
  refine Ensures.ite (Ensures.some Hp) ?_
  intro p' h
  rcases Option.bind_eq_some_iff.mp h with ⟨chain, hchain, h⟩
  split at h
  · cases h
    exact Hp
  rcases Option.bind_eq_some_iff.mp h with ⟨ht', hset, h⟩
  cases h
  rcases bucket_eq_some hchain with ⟨t, htable, hi, hget⟩
  rcases setSlot_eq_some hset with ⟨t', htable', -, rfl⟩
  cases htable.symm.trans htable'
  have hle := Hp.le_used htable hi
  refine Hp.store htable hi ?_
  rw [hget] at hle ⊢
  exact Nat.sub_add_cancel hle

theorem clear_counted (H : Counted w.guard) : Ensures w.clear fun w' => Counted w'.guard := by
  refine (htClear_counted H.old).bind fun p0 H0 => (htClear_counted H.new).bind fun p1 H1 => ?_
  exact Ensures.some ⟨H0, H1, by simp [migration]⟩

/-- The calls that drop no node. -/
def Keeping (w : World α) (call : Call α) : Prop :=
  w.Admitted call ∧
    match call with
    | .insert .. | .insertRaw _ => ∀ w1 ∈ w.expand true, Undropped w1.guard
    | .remove _ | .removeRaw _ | .unlink _ | .unlinkRaw _ | .replace _ => Undropped w.guard
    | .find _ | .resize _ | .clear => True

instance (w : World α) (call : Call α) : Decidable (w.Keeping call) :=
  match call with
  | .insert .. | .insertRaw _ => inferInstanceAs (Decidable (_ ∧ ∀ w1 ∈ w.expand true, _))
  | .remove _ | .removeRaw _ | .unlink _ | .unlinkRaw _ | .replace _ =>
      inferInstanceAs (Decidable (_ ∧ Undropped _))
  | .find _ | .resize _ | .clear => inferInstanceAs (Decidable (_ ∧ True))

/-- **One call** that drops no node keeps the counts exact. -/
theorem step_counted (H : Counted w.guard) {call : Call α} (hok : w.Keeping call) :
    Ensures (w.step call) fun p => Counted p.2.guard := by
  cases call with
  | insert val addr => exact Ensures.map (insert_counted H hok.2 addr _)
  | insertRaw node => exact Ensures.map (insertRaw_counted H hok.2 node)
  | remove val => exact Ensures.map (remove_counted H hok.2 _)
  | removeRaw node => exact Ensures.map (removeRaw_counted H hok.2 node)
  | unlink val => exact Ensures.map (unlink_counted H hok.2 _)
  | unlinkRaw node => exact Ensures.map (unlinkBy_counted H hok.2 _ _)
  | replace val => exact Ensures.map (replace_counted H hok.2 _)
  | find val => exact Ensures.map fun _ _ => H
  | resize count => exact Ensures.map (resize_counted H count)
  | clear => exact Ensures.map (clear_counted H)

theorem counted_create (opts : KindexOpts α) : Counted (create opts : World α).guard :=
  ⟨Tally.exact_none 0, Tally.exact_none 0, by simp [migration, create]⟩

end World

end Kindex

/-! ## The map -/

namespace Kmap
variable {K V : Type}

/-- What is counted of a table. -/
def tally (ht : KmapHt K V) : Tally (List (KmapNode K V)) := ⟨ht.table, ht.cap, ht.used⟩

/-- What is counted of a map. -/
def migration (m : Kmap K V) : Migration (List (KmapNode K V)) :=
  ⟨tally m.ht0, tally m.ht1, m.rehashidx⟩

/-- The counts of a map are exact. -/
def Counted (m : Kmap K V) : Prop := (migration m).Exact List.length

/-- **The search for the next bucket ends inside the table**, as in the index. -/
def ScansInside (m : Kmap K V) : Prop :=
  ∀ idx, m.rehashidx = some idx → m.ht0.used ≠ 0 → ∃ t i, m.ht0.table = some t ∧
    t.size = m.ht0.cap ∧ idx ≤ i ∧ i < m.ht0.cap ∧ t.get i ≠ [] ∧
    (∀ j, idx ≤ j → j < i → t.get j = []) ∧
    (m.ht0.cap < 2 ^ 31 → World.scan t (t.size + 1) idx = some i)

theorem Counted.scansInside {m : Kmap K V} (H : Counted m) : ScansInside m := by
  intro idx hidx hused
  have hempty : ∀ chain : List (KmapNode K V), (!chain.isEmpty) = false → chain.length = 0 :=
    fun chain hchain => by simpa using hchain
  rcases H.firstAt hempty (2 ^ 31) hidx hused with ⟨t, i, ht, hsize, F, hprobe⟩
  refine ⟨t, i, ht, hsize, F.le, F.lt.trans_eq hsize, by simpa using F.here, fun k hk hki => ?_,
    hprobe⟩
  simpa using F.skip k hk hki

/-- The nodes in a bucket; there are none outside the table. -/
def nodesAt (ht : KmapHt K V) (i : ℕ) : List (KmapNode K V) := (bucket ht i).getD []

/-- The bucket of `ht[1]` that a node goes to. -/
def place (m : Kmap K V) (node : KmapNode K V) : Option ℕ :=
  (hashNode m.opts node).map fun hash => hash &&& m.ht1.mask

/-- The keys of two nodes compare equal. -/
def Same (m : Kmap K V) (node cmp : KmapNode K V) : Prop := cmpNode m.opts node cmp = some 0

instance (m : Kmap K V) : DecidableRel (Same m) := fun _ _ => inferInstanceAs (Decidable (_ = _))

/-- The nodes can be moved one after the other, and no one is dropped. -/
def Movable (m : Kmap K V) (nodes : List (KmapNode K V)) : Prop :=
  Apart (place m) (Same m) (nodesAt m.ht1) nodes

instance (m : Kmap K V) (nodes : List (KmapNode K V)) : Decidable (Movable m nodes) :=
  inferInstanceAs (Decidable (Apart _ _ _ _))

/-- The chain that is moved next, if any: the first at or behind `rehashidx`. -/
def moving (m : Kmap K V) : Option (List (KmapNode K V)) :=
  m.ht0.table.bind fun t => m.rehashidx.bind fun idx =>
    firstFrom (fun chain => !chain.isEmpty) t idx

/-- **The next bucket arrives whole.** -/
def Undropped (m : Kmap K V) : Prop := ∀ chain ∈ moving m, Movable m chain

instance (m : Kmap K V) : Decidable (Undropped m) :=
  inferInstanceAs (Decidable (∀ chain ∈ moving m, Movable m chain))

end Kmap

/-! ### The index of a map -/

namespace Kindex
variable {K V : Type} {m : Kmap K V}

/-- A map is counted as its index. -/
theorem counted_ofMap : Counted (ofMap m) ↔ Kmap.Counted m := by
  have hcount : slotCount ∘ (ofChain : List (KmapNode K V) → KindexSlot K) = List.length := by
    funext chain
    exact List.length_map ofNode
  rw [Kmap.Counted, ← hcount]
  exact Migration.exact_map ofChain (Kmap.migration m)

theorem nodesAt_ofHt (ht : KmapHt K V) :
    nodesAt (ofHt ht) = fun i => (Kmap.nodesAt ht i).map ofNode := by
  funext i
  rw [nodesAt, Kmap.nodesAt, bucket_ofHt]
  cases Kmap.bucket ht i <;> rfl

theorem moving_ofMap : moving (ofMap m) = (Kmap.moving m).map (List.map ofNode) := by
  refine bind_translate rfl fun t _ => bind_translate_same fun idx _ => ?_
  have hnull : (fun slot : KindexSlot K => !slot.isNull) ∘ ofChain =
      fun chain : List (KmapNode K V) => !chain.isEmpty := by
    funext chain
    cases chain <;> rfl
  rw [firstFrom_map, hnull]
  cases firstFrom _ t idx <;> rfl

theorem movable_ofMap {nodes : List (KmapNode K V)} :
    Movable (ofMap m) (nodes.map ofNode) ↔ Kmap.Movable m nodes := by
  have hdest : nodesAt (ofMap m).ht1 = fun i => (Kmap.nodesAt m.ht1 i).map ofNode :=
    nodesAt_ofHt m.ht1
  rw [Movable, hdest]
  exact apart_map ofNode _ nodes

theorem undropped_ofMap (h : Kmap.Undropped m) : Undropped (ofMap m) := by
  intro chain hchain
  rw [moving_ofMap] at hchain
  rcases Option.map_eq_some_iff.mp hchain with ⟨nodes, hnodes, rfl⟩
  exact movable_ofMap.mpr (h nodes hnodes)

end Kindex

namespace Kmap.World
variable {K V : Type} {w : World K V}

open Kindex (counted_ofMap undropped_ofMap)

theorem settle_counted (H : Counted w.guard) (hun : Undropped w.guard) :
    Ensures w.settle fun w' => Counted w'.guard := by
  have h := Kindex.World.settle_counted (w := .ofMap [] w) (counted_ofMap.mpr H)
    (undropped_ofMap hun)
  rw [Kindex.World.settle_ofMap] at h
  exact h.of_map.mono fun _ => counted_ofMap.mp

theorem unlink_counted (H : Counted w.guard) (hun : Undropped w.guard) (key : KPtr K) :
    Ensures (w.unlink key) fun p => Counted p.2.guard := by
  have h := Kindex.World.unlinkBy_counted (w := .ofMap [] w) (counted_ofMap.mpr H)
    (undropped_ofMap hun) (Kindex.hashOf (Kindex.ofOpts w.guard.opts) key)
    (Kindex.cmpRaw (Kindex.ofOpts w.guard.opts) key)
  rw [Kindex.World.unlinkBy_ofMap] at h
  exact h.of_map.mono fun _ => counted_ofMap.mp

theorem remove_counted (H : Counted w.guard) (hun : Undropped w.guard) (key : KPtr K) :
    Ensures (w.remove key) fun p => Counted p.2.guard := by
  refine (unlink_counted H hun key).bind fun p Hp => ?_
  rcases p with ⟨_ | x, w1⟩
  · exact Ensures.some Hp
  · exact Ensures.some Hp

theorem resize_counted (H : Counted w.guard) (count : ℕ) :
    Ensures (w.resize true count) fun p => Counted p.2.guard := by
  have h := Kindex.World.resize_counted (w := .ofMap [] w) (counted_ofMap.mpr H) count
  rw [Kindex.World.resize_ofMap] at h
  exact h.of_map.mono fun _ => counted_ofMap.mp

theorem expand_counted (H : Counted w.guard) :
    Ensures (w.expand true) fun w' => Counted w'.guard := by
  have h := Kindex.World.expand_counted (w := .ofMap [] w) (counted_ofMap.mpr H)
  rw [Kindex.World.expand_ofMap] at h
  exact h.of_map.mono fun _ => counted_ofMap.mp

theorem insertInto_counted (H : Counted w.guard) (node : KmapNode K V) :
    Ensures (w.insertInto node) fun p => Counted p.2.guard := by
  have h := Kindex.World.insertInto_counted (w := .ofMap [] w) (counted_ofMap.mpr H)
    (Kindex.ofNode node)
  rw [Kindex.World.insertInto_ofMap] at h
  exact h.of_map.mono fun _ => counted_ofMap.mp

/-- Exchanging a bucket of the map for one that is as long. -/
theorem counted_setHt (H : Counted w.guard) {second : Bool} {i : ℕ}
    {chain chain' : List (KmapNode K V)} {ht : KmapHt K V}
    (hold : bucket (w.ht second) i = some chain)
    (hset : setBucket (w.ht second) i chain' = some ht) (hlen : chain.length = chain'.length) :
    Counted (w.setHt second ht).guard := by
  have hold' : Kindex.bucket ((Kindex.World.ofMap [] w).ht second) i =
      some (chain.map Kindex.ofNode) := by
    rw [Kindex.World.ofMap_ht, Kindex.bucket_ofHt, hold, Option.map_some]
  have hset' : Kindex.setSlot ((Kindex.World.ofMap [] w).ht second) i
      (.chain (chain'.map Kindex.ofNode)) = some (Kindex.ofHt ht) := by
    rw [Kindex.World.ofMap_ht, Kindex.setSlot_ofHt, hset, Option.map_some]
  have h := Kindex.World.counted_setHt (n := ht.used) (counted_ofMap.mpr H) hold' hset'
    (fun _ => by rw [List.length_map, List.length_map, hlen]; rfl)
    (fun _ _ hnil => by simpa [← List.length_eq_zero_iff, hlen] using hnil)
  rw [← counted_ofMap]
  cases second <;> exact h

/-- Replacing is not the same in an index, but it looks in the same place. -/
theorem replace_counted (H : Counted w.guard) (hun : Undropped w.guard) (key : KPtr K)
    (val : KPtr V) (valType : Kobj) (size : ℕ) :
    Ensures (w.replace key val valType size) fun p => Counted p.2.guard := by
  refine (settle_counted H hun).bind fun w1 H1 => Ensures.any.bind fun hash _ => ?_
  intro p h
  rcases Option.bind_eq_some_iff.mp h with ⟨r, hr, h⟩
  rcases r with _ | ⟨second, before, x, behind⟩
  · cases h
    exact H1
  · rcases Option.bind_eq_some_iff.mp h with ⟨v, -, h⟩
    rcases Option.bind_eq_some_iff.mp h with ⟨ht, hset, h⟩
    cases h
    have hfound := Kindex.World.searchBoth_ofMap [] w1 false hash key
    rw [hr] at hfound
    have hold := Kindex.World.searchBoth_found hfound
    rw [id_eq, Kindex.World.ofMap_ht, Kindex.bucket_ofHt] at hold
    rcases Option.map_eq_some_iff.mp hold with ⟨chain, hchain, hmap⟩
    refine counted_setHt H1 hchain hset ?_
    rw [← List.length_map Kindex.ofNode, hmap]
    simp

theorem insert_counted (H : Counted w.guard) (hun : ∀ w1 ∈ w.expand true, Undropped w1.guard)
    (addr : ℕ) (key : KPtr K) (val : KPtr V) (valType : Kobj) (size : ℕ) :
    Ensures (w.insert (some addr) true key val valType size) fun p => Counted p.2.guard := by
  refine Ensures.any.bind fun k _ => Ensures.any.bind fun v _ => ?_
  have hexpand : Ensures (w.expand true) fun w1 => Counted w1.guard ∧ Undropped w1.guard :=
    fun w1 h1 => ⟨expand_counted H w1 h1, hun w1 h1⟩
  refine hexpand.bind fun w1 H1 => ?_
  exact (settle_counted H1.1 H1.2).bind fun w2 H2 => insertInto_counted H2 _

/-- The calls that drop no node. -/
def Keeping (w : World K V) (call : Call K V) : Prop :=
  Admitted call ∧
    match call with
    | .insert .. => ∀ w1 ∈ w.expand true, Undropped w1.guard
    | .remove _ | .replace .. => Undropped w.guard
    | .find _ | .resize _ => True

instance (w : World K V) (call : Call K V) : Decidable (w.Keeping call) :=
  match call with
  | .insert .. => inferInstanceAs (Decidable (Admitted _ ∧ ∀ w1 ∈ w.expand true, _))
  | .remove _ | .replace .. => inferInstanceAs (Decidable (Admitted _ ∧ Undropped _))
  | .find _ | .resize _ => inferInstanceAs (Decidable (Admitted _ ∧ True))

/-- **One call** that drops no node keeps the counts exact. -/
theorem step_counted (H : Counted w.guard) {call : Call K V} (hok : w.Keeping call) :
    Ensures (w.step call) fun p => Counted p.2.guard := by
  cases call with
  | insert key val addr =>
      exact (insert_counted H hok.2 addr _ _ _ _).bind fun p Hp => Ensures.some Hp
  | remove key => exact (remove_counted H hok.2 _).bind fun p Hp => Ensures.some Hp
  | replace key val => exact (replace_counted H hok.2 _ _ _ _).bind fun p Hp => Ensures.some Hp
  | find key => exact Ensures.any.bind fun r _ => Ensures.some H
  | resize count => exact (resize_counted H count).bind fun p Hp => Ensures.some Hp

theorem counted_create (opts : KmapOpts K) : Counted (create opts : World K V).guard :=
  ⟨Tally.exact_none 0, Tally.exact_none 0, by simp [migration, create]⟩

end Kmap.World

/-! ## Runs -/

/-- `_map_rehash` stays inside the table where a call may make it: in the state of the call,
or after the expansion of an insertion. -/
def Kmap.World.RehashesInside {K V : Type} (w : Kmap.World K V) : Prop :=
  ScansInside w.guard ∧ ∀ w1 ∈ w.expand true, ScansInside w1.guard

/-- `_index_rehash` stays inside the table. -/
def Kindex.World.RehashesInside {α : Type} (w : Kindex.World α) : Prop :=
  ScansInside w.guard ∧ ∀ w1 ∈ w.expand true, ScansInside w1.guard

/-- **Rehashing does not run off the table** in any run, of a map or of an index, that drops
no node. -/
theorem scansInside_of_run {K V α : Type} (mapOpts : KmapOpts K) (indexOpts : KindexOpts α) :
    (∀ tr (w : Kmap.World K V),
      Run Kmap.World.step Kmap.World.Keeping (Kmap.World.create mapOpts) tr w →
        w.RehashesInside) ∧
    ∀ tr (w : Kindex.World α),
      Run Kindex.World.step Kindex.World.Keeping (Kindex.World.create indexOpts) tr w →
        w.RehashesInside := by
  constructor
  · intro tr w h
    have H : Kmap.Counted w.guard := by
      refine h.invariant (I := fun w => Kmap.Counted w.guard) (Kmap.World.counted_create _) ?_
      intro w call r w' H hok hstep
      exact Kmap.World.step_counted H hok _ hstep
    exact ⟨H.scansInside, fun w1 h1 => (Kmap.World.expand_counted H w1 h1).scansInside⟩
  · intro tr w h
    have H : Kindex.Counted w.guard := by
      refine h.invariant (I := fun w => Kindex.Counted w.guard) (Kindex.World.counted_create _) ?_
      intro w call r w' H hok hstep
      exact Kindex.World.step_counted H hok _ hstep
    exact ⟨H.scansInside, fun w1 h1 => (Kindex.World.expand_counted H w1 h1).scansInside⟩

open Kmap.World in
/-- A map and an index with three elements, in the middle of a move. -/
theorem scansInside_of_run_moving :
    (∃ tr w, Run step Kmap.World.Keeping (create numberOpts : Kmap.World ℕ ℕ) tr w ∧
      w.guard.rehashidx = some 1 ∧ w.guard.ht0.used = 2 ∧ w.RehashesInside) ∧
    ∃ tr w, Run Kindex.World.step Kindex.World.Keeping
        (Kindex.World.create Kindex.numberOpts) tr w ∧
      w.guard.rehashidx = some 1 ∧ w.guard.ht0.used = 2 ∧ w.RehashesInside := by
  constructor
  · have hrun : ∃ tr w, Run step Kmap.World.Keeping (create numberOpts : Kmap.World ℕ ℕ) tr w ∧
        w.guard.rehashidx = some 1 ∧ w.guard.ht0.used = 2 :=
      exists_run_of_eval
        [.insert (.obj 1) (numberArg 10) 0, .insert (.obj 2) (numberArg 20) 1,
          .insert (.obj 3) (numberArg 30) 2, .resize 8, .remove (.obj 5)] (by decide +kernel)
    rcases hrun with ⟨tr, w, h, hidx, hused⟩
    exact ⟨tr, w, h, hidx, hused, (scansInside_of_run numberOpts Kindex.numberOpts).1 tr w h⟩
  · have hrun : ∃ tr w, Run Kindex.World.step Kindex.World.Keeping
          (Kindex.World.create Kindex.numberOpts) tr w ∧
        w.guard.rehashidx = some 1 ∧ w.guard.ht0.used = 2 :=
      exists_run_of_eval
        [.insert (.obj 1) 0, .insert (.obj 2) 1, .insert (.obj 3) 2, .resize 8,
          .unlink (.obj 5)] (by decide +kernel)
    rcases hrun with ⟨tr, w, h, hidx, hused⟩
    exact ⟨tr, w, h, hidx, hused,
      (scansInside_of_run (V := ℕ) numberOpts Kindex.numberOpts).2 tr w h⟩

open Kmap.World in
/-- Two elements, a resize, the first element again while it has not been moved, and a call
that drops it: then `ht[0]` is empty and counts one node. -/
theorem not_scansInside_dropped :
    (∃ tr w, Run step (fun _ call => Admitted call) (create numberOpts : Kmap.World ℕ ℕ) tr w ∧
      ¬ w.RehashesInside) ∧
    ∃ tr w, Run Kindex.World.step Kindex.World.Admitted
        (Kindex.World.create Kindex.numberOpts) tr w ∧ ¬ w.RehashesInside := by
  constructor
  · have hrun : ∃ tr w,
        Run step (fun _ call => Admitted call) (create numberOpts : Kmap.World ℕ ℕ) tr w ∧
        w.guard.rehashidx = some 2 ∧ w.guard.ht0.cap = 2 ∧ w.guard.ht0.used = 1 :=
      exists_run_of_eval
        [.insert (.obj 1) (numberArg 10) 0, .insert (.obj 2) (numberArg 20) 1, .resize 8,
          .insert (.obj 1) (numberArg 11) 2, .remove (.obj 5)] (by decide +kernel)
    rcases hrun with ⟨tr, w, h, hidx, hcap, hused⟩
    refine ⟨tr, w, h, fun H => ?_⟩
    rcases H.1 2 hidx (by rw [hused]; decide) with ⟨t, i, -, -, hle, hlt, -⟩
    rw [hcap] at hlt
    omega
  · have hrun : ∃ tr w, Run Kindex.World.step Kindex.World.Admitted
          (Kindex.World.create Kindex.numberOpts) tr w ∧
        w.guard.rehashidx = some 2 ∧ w.guard.ht0.cap = 2 ∧ w.guard.ht0.used = 1 :=
      exists_run_of_eval
        [.insert (.obj 1) 0, .insert (.obj 2) 1, .resize 8, .insert (.obj 1) 2,
          .unlink (.obj 5)] (by decide +kernel)
    rcases hrun with ⟨tr, w, h, hidx, hcap, hused⟩
    refine ⟨tr, w, h, fun H => ?_⟩
    rcases H.1 2 hidx (by rw [hused]; decide) with ⟨t, i, -, -, hle, hlt, -⟩
    rw [hcap] at hlt
    omega

end Kylin
