import Kylin.Lib.Cursor
import Kylin.Math.IndexMap

/-!
# Iterating over a map and an index

`kylin_map_first`, `kylin_map_last`, `kylin_map_next` and `kylin_map_prev`, and the same four of
the index, which are the same text.  The steps from node to node are right whatever is being
moved: they cross from a chain to the next and from one table to the other.  What is not is
where they start.  `first` looks into `ht[0]` only and `last`, during a move, into `ht[1]` only,
though one of them may be empty while the other is not: `ht[1]` is when a move has just begun,
and `ht[0]` when its last node was removed.

## Main definitions

* `Kmap.tables`, `Kindex.tables` — the two tables as they are walked over.
* `first`, `last`, `next`, `prev` — the functions, for the map and for the index.
* `Iterates` — the iteration is complete, in both directions.
* `Balanced` — during a move both tables hold nodes, or none does.

## Main results

* `iterates_iff` — in every state of every run the iteration is complete exactly if the state
  is balanced.
* `not_iterates_resized` — it is not after a resize.
-/

namespace Kylin

open Lib

/-! ## The map -/

namespace Kmap
variable {K V : Type}

/-- A table as it is walked over. -/
def chains (ht : KmapHt K V) : Option (ChainTable (KmapNode K V)) :=
  ht.table.map fun t => ⟨t.load, ht.cap, ht.mask⟩

/-- The two tables as they are walked over. -/
def tables (m : Kmap K V) : TwoTables (KmapNode K V) :=
  ⟨chains m.ht0, chains m.ht1, m.rehashidx.isSome, hashNode m.opts, cmpNode m.opts⟩

section Table
variable {opts : KmapOpts K} {ht : KmapHt K V}

theorem HtGood.chain_eq (H : HtGood opts ht) {t : Buffer (List (KmapNode K V))}
    (hn : ht.table = some t) {i : ℕ} (hi : i < ht.cap) :
    (⟨t.load, ht.cap, ht.mask⟩ : ChainTable (KmapNode K V)).chain i = t.get i := by
  dsimp only [ChainTable.chain]
  rw [Buffer.load_of_lt (by rwa [H.size_eq t hn]), Option.getD_some]

theorem HtGood.nodesOf_chains (H : HtGood opts ht) : TwoTables.nodesOf (chains ht) = stored ht := by
  cases hn : ht.table with
  | none => simp [chains, stored, hn, TwoTables.nodesOf]
  | some t =>
      rw [chains, hn, stored_of_table hn, contents, H.size_eq t hn, List.range_eq_range']
      refine List.flatMap_congr fun i hi => H.chain_eq hn ?_
      simpa using hi

theorem HtGood.proper (L : Lawful opts) (H : HtGood opts ht) {u : ChainTable (KmapNode K V)}
    (hu : chains ht = some u) : u.Proper (hashNode opts) := by
  rcases Option.map_eq_some_iff.mp hu with ⟨t, hn, rfl⟩
  refine ⟨fun i hi => ?_, fun h => ?_, fun i hi x hx => ?_⟩
  · dsimp only
    rw [Buffer.load_of_lt (by rwa [H.size_eq t hn])]
    rfl
  · have hlt := H.index_lt hn h
    rwa [H.size_eq t hn] at hlt
  · rw [H.chain_eq hn hi] at hx
    rcases H.placed t hn i (by rwa [H.size_eq t hn]) x hx with ⟨c, hc, hmask⟩
    exact ⟨_, hashNode_eq L hc, hmask⟩

end Table

namespace World
variable {w : World K V}

/-- `kylin_map_first`. -/
def first (w : World K V) : Option (List (KmapNode K V) × World K V) :=
  if w.guard.ht0.table.isNone then some ([], { w with kerrno := .noent })
  else (tables w.guard).first.map fun p => (p, w)

/-- `kylin_map_last`. -/
def last (w : World K V) : Option (List (KmapNode K V) × World K V) :=
  if (w.ht w.isRehashing).table.isNone then some ([], { w with kerrno := .noent })
  else (tables w.guard).last.map fun p => (p, w)

/-- `kylin_map_next`. -/
def next (w : World K V) : List (KmapNode K V) → Option (List (KmapNode K V)) :=
  (tables w.guard).next

/-- `kylin_map_prev`. -/
def prev (w : World K V) : List (KmapNode K V) → Option (List (KmapNode K V)) :=
  (tables w.guard).prev

/-- **The iteration is complete.**  From the first node on, every node is met once before
`NULL`, and from the last node back the same nodes in the reverse order. -/
def Iterates (w : World K V) : Prop :=
  ∃ xs, xs.Perm (nodes w.guard) ∧ (∃ p w', w.first = some (p, w') ∧ Visits w.next p xs) ∧
    ∃ p w', w.last = some (p, w') ∧ Visits w.prev p xs.reverse

/-- During a move both tables hold nodes, or none does. -/
def Balanced (w : World K V) : Prop :=
  w.isRehashing = true → (stored w.guard.ht0 = [] ↔ stored w.guard.ht1 = [])

theorem exists_first {P : List (KmapNode K V) → Prop} :
    (∃ p w', w.first = some (p, w') ∧ P p) ↔ ∃ p, (tables w.guard).first = some p ∧ P p := by
  apply exists_start
  intro hnull
  simp [TwoTables.first, TwoTables.head, tables, chains, Option.isNone_iff_eq_none.mp hnull]

theorem exists_last {P : List (KmapNode K V) → Prop} :
    (∃ p w', w.last = some (p, w') ∧ P p) ↔ ∃ p, (tables w.guard).last = some p ∧ P p := by
  have hback : (tables w.guard).last = TwoTables.back (chains (w.ht w.isRehashing)) := by
    rw [TwoTables.last, World.ht, apply_ite chains]
    rfl
  apply exists_start
  intro hnull
  simp [hback, TwoTables.back, chains, Option.isNone_iff_eq_none.mp hnull]

/-- Between calls the tables can be walked over. -/
theorem Ready.proper (R : Ready w) :
    (tables w.guard).Proper ∧ (tables w.guard).nodes = nodes w.guard := by
  have hnodes : (tables w.guard).nodes = nodes w.guard := by
    rw [TwoTables.nodes, tables, R.good.ht0.nodesOf_chains, R.good.ht1.nodesOf_chains]
    rfl
  refine ⟨⟨fun t ht => ?_, fun t ht => ?_, ?_, ?_, ?_⟩, hnodes⟩
  · exact R.good.ht0.proper R.lawful ht
  · exact R.good.ht1.proper R.lawful ht
  · rw [hnodes]
    exact .of_map cell R.good.distinct
  · rw [hnodes]
    intro x hx y hy
    rcases R.exists_cell hx with ⟨c, hc⟩
    rcases R.exists_cell hy with ⟨d, hd⟩
    refine ⟨_, cmpNode_eq R.lawful hc hd, ?_⟩
    rw [R.lawful.cmp_zero]
    constructor
    · intro hcd
      exact List.inj_on_of_nodup_map R.good.distinct hx hy (by rw [hc, hd, hcd])
    · rintro rfl
      rw [hc] at hd
      exact Option.some.inj hd
  · intro hidle
    have hsecond : w.guard.ht1.table.isSome = false := R.good.second.trans hidle
    simpa [tables, chains] using hsecond

/-- **When the iteration over a map is complete.** -/
theorem Ready.iterates_iff_balanced (R : Ready w) : w.Iterates ↔ w.Balanced := by
  rcases R.proper with ⟨P, hnodes⟩
  have hwalks : w.Iterates ↔ (tables w.guard).Walks := by
    rw [TwoTables.Walks, hnodes]
    exact exists_congr fun xs => and_congr Iff.rfl (and_congr exists_first exists_last)
  rw [hwalks, P.walks_iff, TwoTables.Balanced, tables, R.good.ht0.nodesOf_chains,
    R.good.ht1.nodesOf_chains]
  rfl

end World

end Kmap

/-! ## The index -/

namespace Kindex
variable {α : Type}

/-- A table as it is walked over.  A pointer to a freed node counts as a fault. -/
def chains (ht : KindexHt α) : Option (ChainTable (KindexNode α)) :=
  ht.table.map fun t => ⟨fun i => (t.load i).bind KindexSlot.follow, ht.cap, ht.mask⟩

/-- The two tables as they are walked over. -/
def tables (m : Kindex α) : TwoTables (KindexNode α) :=
  ⟨chains m.ht0, chains m.ht1, m.rehashidx.isSome, hashNode m.opts, cmpNode m.opts⟩

theorem chains_ofHt (ht : KmapHt α Unit) :
    chains (ofHt ht) = (Kmap.chains ht).map (ChainTable.map ofNode) := by
  rw [chains, Kmap.chains, ofHt]
  cases ht.table with
  | none => rfl
  | some t =>
      simp only [Option.map_some, ChainTable.map, Buffer.load_map]
      congr
      funext i
      cases t.load i <;> rfl

namespace World
variable {w : World α}

/-- `kylin_index_first`. -/
def first (w : World α) : Option (List (KindexNode α) × World α) :=
  if w.guard.ht0.table.isNone then some ([], { w with kerrno := .noent })
  else (tables w.guard).first.map fun p => (p, w)

/-- `kylin_index_last`. -/
def last (w : World α) : Option (List (KindexNode α) × World α) :=
  if (w.ht w.isRehashing).table.isNone then some ([], { w with kerrno := .noent })
  else (tables w.guard).last.map fun p => (p, w)

/-- `kylin_index_next`. -/
def next (w : World α) : List (KindexNode α) → Option (List (KindexNode α)) :=
  (tables w.guard).next

/-- `kylin_index_prev`. -/
def prev (w : World α) : List (KindexNode α) → Option (List (KindexNode α)) :=
  (tables w.guard).prev

/-- **The iteration is complete**, in both directions. -/
def Iterates (w : World α) : Prop :=
  ∃ xs, xs.Perm w.linked ∧ (∃ p w', w.first = some (p, w') ∧ Visits w.next p xs) ∧
    ∃ p w', w.last = some (p, w') ∧ Visits w.prev p xs.reverse

/-- During a move both tables hold nodes, or none does. -/
def Balanced (w : World α) : Prop :=
  w.isRehashing = true → (stored w.guard.ht0 = [] ↔ stored w.guard.ht1 = [])

theorem exists_first {P : List (KindexNode α) → Prop} :
    (∃ p w', w.first = some (p, w') ∧ P p) ↔ ∃ p, (tables w.guard).first = some p ∧ P p := by
  apply exists_start
  intro hnull
  simp [TwoTables.first, TwoTables.head, tables, chains, Option.isNone_iff_eq_none.mp hnull]

theorem exists_last {P : List (KindexNode α) → Prop} :
    (∃ p w', w.last = some (p, w') ∧ P p) ↔ ∃ p, (tables w.guard).last = some p ∧ P p := by
  have hback : (tables w.guard).last = TwoTables.back (chains (w.ht w.isRehashing)) := by
    rw [TwoTables.last, World.ht, apply_ite chains]
    rfl
  apply exists_start
  intro hnull
  simp [hback, TwoTables.back, chains, Option.isNone_iff_eq_none.mp hnull]

/-- The nodes of a map that is ready are told apart by what an index keeps of them. -/
theorem ofNode_inj {m : Kmap.World α Unit} (R : m.Ready) :
    ∀ x ∈ Kmap.nodes m.guard, ∀ y ∈ Kmap.nodes m.guard, ofNode x = ofNode y → x = y := by
  intro x hx y hy hxy
  refine List.inj_on_of_nodup_map R.good.distinct hx hy ?_
  rw [Kmap.cell, Kmap.cell, show x.key = y.key from congrArg KindexNode.val hxy]

/-- **When the iteration over an index is complete.** -/
theorem Mirrors.iterates_iff_balanced (M : Mirrors w) : w.Iterates ↔ w.Balanced := by
  rcases M.exists_map with ⟨m, hw, R, -⟩
  rcases R.proper with ⟨P, hnodes⟩
  have hlinked : w.linked = (Kmap.nodes m.guard).map ofNode := by rw [hw, linked_ofMap]
  have hfst : (tables w.guard).fst = (Kmap.tables m.guard).fst.map (ChainTable.map ofNode) := by
    rw [hw]
    exact chains_ofHt m.guard.ht0
  have hsnd : (tables w.guard).snd = (Kmap.tables m.guard).snd.map (ChainTable.map ofNode) := by
    rw [hw]
    exact chains_ofHt m.guard.ht1
  have P' : (tables w.guard).Proper := by
    refine P.map hfst hsnd ?_ ?_ ?_ (hnodes ▸ ofNode_inj R)
    · rw [hw]
      rfl
    · intro x
      rw [hw]
      rfl
    · intro x y
      rw [hw]
      rfl
  have hnodes' : (tables w.guard).nodes = w.linked := by
    rw [TwoTables.nodes, hfst, hsnd, TwoTables.nodesOf_map, TwoTables.nodesOf_map,
      ← List.map_append, ← TwoTables.nodes, hnodes, hlinked]
  have hwalks : w.Iterates ↔ (tables w.guard).Walks := by
    rw [TwoTables.Walks, hnodes']
    exact exists_congr fun xs => and_congr Iff.rfl (and_congr exists_first exists_last)
  have hbal : (tables w.guard).Balanced ↔ w.Balanced := by
    rw [TwoTables.Balanced, hfst, hsnd, TwoTables.nodesOf_map, TwoTables.nodesOf_map,
      Kmap.tables, R.good.ht0.nodesOf_chains, R.good.ht1.nodesOf_chains, ← stored_ofHt,
      ← stored_ofHt, ← ofMap_ht0 w.log, ← ofMap_ht1 w.log, ← hw]
    rfl
  rw [hwalks, P'.walks_iff, hbal]

end World

end Kindex

/-! ## Runs -/

/-- **When iteration is complete**, in every state that sound calls lead to, for a map and for
an index: exactly if no move is under way, or both tables hold nodes, or none does. -/
theorem iterates_iff {K V α : Type} [DecidableEq K] {mapOpts : KmapOpts K}
    {indexOpts : KindexOpts α} (LM : Kmap.Lawful mapOpts)
    (LI : Kmap.Lawful (Kindex.mapOpts indexOpts)) :
    (∀ tr (w : Kmap.World K V),
      Run Kmap.World.step Kmap.World.Sound (Kmap.World.create mapOpts) tr w →
        (w.Iterates ↔ w.Balanced)) ∧
    ∀ tr (w : Kindex.World α),
      Run Kindex.World.step Kindex.World.Sound (Kindex.World.create indexOpts) tr w →
        (w.Iterates ↔ w.Balanced) := by
  constructor
  · intro tr w h
    rcases Kmap.World.inv_of_run LM h with ⟨t, -, H, -⟩
    exact H.ready.iterates_iff_balanced
  · intro tr w h
    exact (Kindex.World.mirrors_of_run LI h).iterates_iff_balanced

open Kmap.World in
/-- A map and an index with three elements, in the middle of a move: iteration crosses from
one table to the other. -/
theorem iterates_iff_moving :
    (∃ tr w, Run step Sound (create numberOpts : Kmap.World ℕ ℕ) tr w ∧
      w.isRehashing = true ∧ w.count = 3 ∧ w.Iterates) ∧
    ∃ tr w, Run Kindex.World.step Kindex.World.Sound (Kindex.World.create Kindex.numberOpts) tr w ∧
      w.isRehashing = true ∧ w.count = 3 ∧ w.Iterates := by
  have hiff := iterates_iff (V := ℕ) numberOpts_lawful Kindex.World.numberOpts_lawful
  constructor
  · have hrun : ∃ tr w, Run step Sound (create numberOpts : Kmap.World ℕ ℕ) tr w ∧
        w.isRehashing = true ∧ w.count = 3 ∧ (Kmap.stored w.guard.ht0).length = 2 ∧
        (Kmap.stored w.guard.ht1).length = 1 :=
      exists_run_of_eval
        [.insert (.obj 1) (numberArg 10) 0, .insert (.obj 2) (numberArg 20) 1,
          .insert (.obj 3) (numberArg 30) 2, .resize 8, .remove (.obj 5)] (by decide +kernel)
    rcases hrun with ⟨tr, w, h, hre, hcount, h0, h1⟩
    refine ⟨tr, w, h, hre, hcount, (hiff.1 tr w h).mpr fun _ => ?_⟩
    rw [← List.length_eq_zero_iff, ← List.length_eq_zero_iff, h0, h1]
    decide
  · have hrun : ∃ tr w, Run Kindex.World.step Kindex.World.Sound
          (Kindex.World.create Kindex.numberOpts) tr w ∧
        w.isRehashing = true ∧ w.count = 3 ∧ (Kindex.stored w.guard.ht0).length = 2 ∧
        (Kindex.stored w.guard.ht1).length = 1 :=
      exists_run_of_eval
        [.insert (.obj 1) 0, .insert (.obj 2) 1, .insert (.obj 3) 2, .resize 8,
          .remove (.obj 5)] (by decide +kernel)
    rcases hrun with ⟨tr, w, h, hre, hcount, h0, h1⟩
    refine ⟨tr, w, h, hre, hcount, (hiff.2 tr w h).mpr fun _ => ?_⟩
    rw [← List.length_eq_zero_iff, ← List.length_eq_zero_iff, h0, h1]
    decide

open Kmap.World in
/-- An element and a resize: the iteration back starts in the table that is still empty. -/
theorem not_iterates_resized :
    (∃ tr w, Run step Sound (create numberOpts : Kmap.World ℕ ℕ) tr w ∧ w.count = 1 ∧
      (∃ w', w.last = some ([], w')) ∧ ¬ w.Iterates) ∧
    ∃ tr w, Run Kindex.World.step Kindex.World.Sound (Kindex.World.create Kindex.numberOpts) tr w ∧
      w.count = 1 ∧ (∃ w', w.last = some ([], w')) ∧ ¬ w.Iterates := by
  constructor
  · have hrun : ∃ tr w, Run step Sound (create numberOpts : Kmap.World ℕ ℕ) tr w ∧
        w.count = 1 ∧ (Kmap.nodes w.guard).length = 1 ∧
        (w.last.map fun q => q.1.length) = some 0 :=
      exists_run_of_eval [.insert (.obj 1) (numberArg 10) 0, .resize 8] (by decide +kernel)
    rcases hrun with ⟨tr, w, h, hcount, hlen, hlast⟩
    rcases Option.map_eq_some_iff.mp hlast with ⟨⟨p, w'⟩, hlast, hp⟩
    cases List.length_eq_zero_iff.mp hp
    refine ⟨tr, w, h, hcount, ⟨w', hlast⟩, ?_⟩
    rintro ⟨xs, hperm, -, p, w'', hp, hvisits⟩
    rw [hlast] at hp
    cases hp
    rw [List.reverse_eq_nil_iff.mp hvisits.eq_nil] at hperm
    rw [← hperm.length_eq] at hlen
    cases hlen
  · have hrun : ∃ tr w, Run Kindex.World.step Kindex.World.Sound
          (Kindex.World.create Kindex.numberOpts) tr w ∧
        w.count = 1 ∧ w.linked.length = 1 ∧ (w.last.map fun q => q.1.length) = some 0 :=
      exists_run_of_eval [.insert (.obj 1) 0, .resize 8] (by decide +kernel)
    rcases hrun with ⟨tr, w, h, hcount, hlen, hlast⟩
    rcases Option.map_eq_some_iff.mp hlast with ⟨⟨p, w'⟩, hlast, hp⟩
    cases List.length_eq_zero_iff.mp hp
    refine ⟨tr, w, h, hcount, ⟨w', hlast⟩, ?_⟩
    rintro ⟨xs, hperm, -, p, w'', hp, hvisits⟩
    rw [hlast] at hp
    cases hp
    rw [List.reverse_eq_nil_iff.mp hvisits.eq_nil] at hperm
    rw [← hperm.length_eq] at hlen
    cases hlen

end Kylin
