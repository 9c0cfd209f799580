import Kylin.Math.Map

/-!
# What the map operations leave alone

`lib/core/math/kylin_map.c`, on any state of a map, half moved or not.  A step of
`_map_rehash` moves nodes from one table to the other and may exchange the tables; no
lookup sees it.  A removal or replacement makes such a step first, and then touches the
node of its key and no other.

All of this is about the nodes of the map as a multiset: a lookup returns the holder of
the key among them (`Steady.find_holder`), `_map_rehash` permutes them, a removal takes
one out, and a replacement exchanges one for another with the same key.

A map that is rehashing without a first table is not a state that
`kylin_map_resize` makes.  The loops over the tables stop there at `ht[0]`, although
`ht[1]` may hold nodes, and the next step of `_map_rehash` brings them back to light.

## Main definitions

* `Steady` — a good map whose first table is there while it is rehashing.
* `Keeps`, `Unlinks`, `Replaces` — what the three operations should do to lookups.

## Main results

* `mapRehash_keeps` — `_map_rehash` changes no lookup.
* `unlink_replace_frame` — removal and replacement change the lookup of their key only.
-/

namespace Kylin.Kmap.World

open Lib

variable {K V : Type} {w w' : World K V}

/-! ## Lookups -/

/-- A good map whose first table is there while it is rehashing. -/
structure Steady (w : World K V) : Prop where
  lawful : Lawful w.guard.opts
  good : Good w.guard
  first : w.isRehashing → w.guard.ht0.table.isSome

theorem Ready.steady (R : Ready w) : Steady w := ⟨R.lawful, R.good, R.first⟩

/-- What `Ready` says beyond `Steady` is about maps without a table. -/
theorem Steady.ready (S : Steady w) (hn : w.guard.ht0.table.isSome) : Ready w := by
  refine ⟨S.lawful, S.good, fun hnone => ?_, S.first⟩
  rw [hnone] at hn
  cases hn

theorem Steady.idle (S : Steady w) (hn : w.guard.ht0.table = none) :
    w.isRehashing = false ∧ nodes w.guard = [] := idle_of_table_eq_none S.good S.first hn

/-- **A lookup returns the holder of the key.** -/
theorem Steady.find_holder (S : Steady w) (c : Cell K) :
    ∃ r, w.find (.user c) = some r ∧ Holder cell (nodes w.guard) c r := by
  cases hn : w.guard.ht0.table with
  | none =>
      refine ⟨none, by simp [World.find, hashOf_user, searchBoth, hn], ?_⟩
      rw [(S.idle hn).2]
      simp [Holder]
  | some t =>
      rcases find_spec (S.ready (by rw [hn]; rfl)) c with ⟨r, hr, hsome, hnone⟩
      exact ⟨r, hr, .of_search S.good.distinct hsome hnone⟩

theorem Steady.find_eq (S : Steady w) {c : Cell K} {r : Option (KmapNode K V)}
    (h : Holder cell (nodes w.guard) c r) : w.find (.user c) = some r := by
  rcases S.find_holder c with ⟨s, hs, hholder⟩
  rw [hs, hholder.unique h]

theorem Steady.count_eq (S : Steady w) : w.count = (nodes w.guard).length := by
  rw [nodes, List.length_append, ← S.good.ht0.used_eq, ← S.good.ht1.used_eq]
  rfl

/-! ## Rehashing -/

/-- What a step of `_map_rehash` should leave as it is. -/
structure Keeps (w w' : World K V) : Prop where
  opts : w'.guard.opts = w.guard.opts
  good : Good w'.guard
  find : ∀ c, ∃ r, w.find (.user c) = some r ∧ w'.find (.user c) = some r
  count : w'.count = w.count

/-- A permutation of the nodes changes no lookup. -/
theorem Steady.keeps (S : Steady w) (S' : Steady w') (hopts : w'.guard.opts = w.guard.opts)
    (hperm : (nodes w'.guard).Perm (nodes w.guard)) : Keeps w w' := by
  refine ⟨hopts, S'.good, fun c => ?_, ?_⟩
  · rcases S.find_holder c with ⟨r, hr, hholder⟩
    exact ⟨r, hr, S'.find_eq (hholder.perm hperm.symm)⟩
  · rw [S.count_eq, S'.count_eq, hperm.length_eq]

/-- **`_map_rehash` keeps the map**: it returns, leaves a good map, and changes neither a
lookup nor the count, whether or not it exchanges the tables. -/
theorem mapRehash_keeps (S : Steady w) (step : ℕ) :
    ∃ w', w.mapRehash step = some w' ∧ Keeps w w' ∧ Steady w' := by
  cases hn : w.guard.ht0.table with
  | none =>
      have hre := (S.idle hn).1
      exact ⟨w, by simp [mapRehash, hre], S.keeps S rfl (.refl _), S⟩
  | some t =>
      rcases mapRehash_spec (S.ready (by rw [hn]; rfl)) step with ⟨m, hm, hopts, R, hperm, -⟩
      exact ⟨{ w with guard := m }, hm, S.keeps R.steady hopts hperm, R.steady⟩

/-- Three keys, one of them moved. -/
theorem mapRehash_keeps_rehashing : ∃ w : World ℕ ℕ, w.isRehashing = true ∧ w.count = 3 ∧
    ∃ w', w.mapRehash 1 = some w' ∧ Keeps w w' ∧ Steady w' := by
  rcases exists_run_rehashing with ⟨tr, w, h, hre, hcount⟩
  rcases inv_of_run numberOpts_lawful h with ⟨t, -, H, -⟩
  exact ⟨w, hre, hcount, mapRehash_keeps H.ready.steady 1⟩

/-- A map that is rehashing, with one key in `ht[1]` and no `ht[0]`. -/
def headless : World ℕ ℕ where
  guard :=
    { opts := numberOpts
      ht0 := htReset
      ht1 :=
        { table := some ⟨1, fun _ => [⟨0, .v (.user (.obj 7)), .v (.user (.obj 70)), .others, 8⟩]⟩
          cap := 1
          mask := 0
          used := 1 }
      rehashidx := some 0 }
  freed := []
  dropped := []
  kerrno := .ok

theorem good_headless : Good headless.guard := by
  refine ⟨htGood_reset _, ⟨?_, ?_, ?_, ?_, ?_, rfl⟩, by decide, rfl, ?_⟩
  · intro t ht
    cases ht
    rfl
  · intro _ _
    decide
  · intro _ _
    decide
  · intro _ _
    rfl
  · intro t ht i hi x hx
    cases ht
    have hi0 : i = 0 := by simpa using hi
    subst hi0
    have hx := List.mem_singleton.mp hx
    subst hx
    exact ⟨.obj 7, rfl, Nat.and_zero _⟩
  · intro _ _ _ ht
    cases ht

/-- In the map without a first table the key is not found, and after the next step of
`_map_rehash` it is. -/
theorem not_keeps_headless : Lawful headless.guard.opts ∧ Good headless.guard ∧
    ¬ ∃ w', headless.mapRehash 1 = some w' ∧ Keeps headless w' := by
  refine ⟨numberOpts_lawful, good_headless, ?_⟩
  rintro ⟨w', hw', H⟩
  rcases H.find (.obj 7) with ⟨r, hbefore, hafter⟩
  cases hw'
  have hr : r = none := (Option.some.inj hbefore).symm
  subst hr
  revert hafter
  decide

/-! ## Removal and replacement -/

/-- The tables of a map hold every key once, in the bucket of its hash, and are counted
exactly; nothing is said about their sizes, or about the table a move is from. -/
structure HalfMoved (m : Kmap K V) : Prop where
  placed : ∀ ht ∈ [m.ht0, m.ht1], ∀ t, ht.table = some t → ∀ i, i < t.size → ∀ x ∈ t.get i,
    ∃ c, cell x = some c ∧ (m.opts.hash c).toNat &&& ht.mask = i
  distinct : ((nodes m).map cell).Nodup
  used_eq : ∀ ht ∈ [m.ht0, m.ht1], ht.used = (stored ht).length
  second : m.ht1.table.isSome = m.rehashidx.isSome
  below : ∀ idx t, m.rehashidx = some idx → m.ht0.table = some t → ∀ j, j < idx → t.get j = []

theorem halfMoved_of_good {m : Kmap K V} (G : Good m) : HalfMoved m where
  placed := by simpa using ⟨G.ht0.placed, G.ht1.placed⟩
  distinct := G.distinct
  used_eq := by simpa using ⟨G.ht0.used_eq, G.ht1.used_eq⟩
  second := G.second
  below := G.below

/-- Every lookup but that of `c` is the same. -/
def SameBut (c : Cell K) (w w' : World K V) : Prop :=
  ∀ d, d ≠ c → ∃ r, w.find (.user d) = some r ∧ w'.find (.user d) = some r

/-- What the removal of the node of `c` should do, `r` being the node returned. -/
structure Unlinks (w : World K V) (c : Cell K) (r : Option (KmapNode K V)) (w' : World K V) :
    Prop where
  returned : w.find (.user c) = some r
  gone : w'.find (.user c) = some none
  others : SameBut c w w'
  count : w'.count + r.toList.length = w.count

/-- What the replacement of the value of `c` should do, `r` being the node returned. -/
structure Replaces (w : World K V) (c : Cell K) (a : ValArg V) (r : Option (KmapNode K V))
    (w' : World K V) : Prop where
  null_iff : r = none ↔ w.find (.user c) = some none
  found : w'.find (.user c) = some r
  carries : ∀ y, r = some y → entry y = a.entry w.guard.opts.valCtor ∧
    ∃ x, w.find (.user c) = some (some x) ∧ x.addr = y.addr ∧ x.key = y.key
  others : SameBut c w w'
  count : w'.count = w.count

/-- Nodes that a map has beside the one for `c` decide the other lookups. -/
theorem Steady.sameBut (S : Steady w) (S' : Steady w') {c : Cell K} {x y : KmapNode K V}
    {rest : List (KmapNode K V)} (hx : cell x = some c) (hy : cell y = some c)
    (hold : (nodes w.guard).Perm (x :: rest))
    (hnew : (nodes w'.guard).Perm rest ∨ (nodes w'.guard).Perm (y :: rest)) :
    SameBut c w w' := by
  intro d hd
  have hne : ∀ z : KmapNode K V, cell z = some c → cell z ≠ some d := by
    intro z hz hzd
    rw [hz, Option.some.injEq] at hzd
    exact hd hzd.symm
  rcases S.find_holder d with ⟨r, hr, hholder⟩
  have hrest := (Holder.cons_iff (hne x hx)).mp (hholder.perm hold)
  refine ⟨r, hr, S'.find_eq ?_⟩
  rcases hnew with hnew | hnew
  · exact hrest.perm hnew.symm
  · exact ((Holder.cons_iff (hne y hy)).mpr hrest).perm hnew.symm

/-- **`kylin_map_unlink`** takes out the node that a lookup finds, and nothing else. -/
theorem Ready.unlinks (R : Ready w) (c : Cell K) :
    ∃ r w', w.unlink (.user c) = some (r, w') ∧ Unlinks w c r w' ∧ Ready w' := by
  have S := R.steady
  rcases unlink_spec R c with ⟨r, w', hr, hopts, R', hnone, hsome⟩
  have S' := R'.steady
  refine ⟨r, w', hr, ?_, R'⟩
  rcases r with _ | x
  · rcases hnone rfl with ⟨hperm, hnew⟩
    have hkeeps := S.keeps S' hopts hperm
    have hholder : Holder cell (nodes w.guard) c none := Holder.none_iff.mpr hnew
    exact ⟨S.find_eq hholder, S'.find_eq (hholder.perm hperm.symm), fun d _ => hkeeps.find d,
      hkeeps.count⟩
  · rcases hsome x rfl with ⟨hcx, hperm⟩
    have hd := (hperm.map cell).nodup_iff.mp S.good.distinct
    rcases Holder.head hd hcx with ⟨hhere, hgone⟩
    refine ⟨S.find_eq (hhere.perm hperm.symm), S'.find_eq hgone,
      S.sameBut S' hcx hcx hperm (.inl (.refl _)), ?_⟩
    rw [S.count_eq, S'.count_eq, hperm.length_eq]
    rfl

/-- **`kylin_map_replace`** gives the node that a lookup finds its value, and changes
nothing else. -/
theorem Ready.replaces (R : Ready w) (c : Cell K) (a : ValArg V) :
    ∃ r w', w.replace (.user c) a.ptr a.type a.size = some (r, w') ∧ Replaces w c a r w' ∧
      Ready w' := by
  have S := R.steady
  rcases replace_spec R c a with ⟨r, w', hr, hopts, R', hnone, hsome⟩
  have S' := R'.steady
  refine ⟨r, w', hr, ?_, R'⟩
  rcases r with _ | y
  · rcases hnone rfl with ⟨hperm, hnew⟩
    have hkeeps := S.keeps S' hopts hperm
    have hholder : Holder cell (nodes w.guard) c none := Holder.none_iff.mpr hnew
    exact ⟨by simp [S.find_eq hholder], S'.find_eq (hholder.perm hperm.symm), by simp,
      fun d _ => hkeeps.find d, hkeeps.count⟩
  · rcases hsome y rfl with ⟨hentry, x, rest, haddr, hkey, hcx, hold, hnew⟩
    have hcy : cell y = some c := by rw [cell, ← hkey]; exact hcx
    have hx := Holder.head ((hold.map cell).nodup_iff.mp S.good.distinct) hcx
    have hy := Holder.head ((hnew.map cell).nodup_iff.mp S'.good.distinct) hcy
    have hfind := S.find_eq (hx.1.perm hold.symm)
    refine ⟨by simp [hfind], S'.find_eq (hy.1.perm hnew.symm), ?_,
      S.sameBut S' hcx hcy hold (.inr hnew), ?_⟩
    · intro z hz
      cases hz
      exact ⟨hentry, x, hfind, haddr, hkey⟩
    · rw [S.count_eq, S'.count_eq, hold.length_eq, hnew.length_eq]
      rfl

/-- In a map without a table there is nothing to remove or to replace. -/
theorem Steady.unlinks_idle (S : Steady w) (hn : w.guard.ht0.table = none) (c : Cell K)
    (a : ValArg V) : (w.unlink (.user c) = some (none, w) ∧ Unlinks w c none w) ∧
      w.replace (.user c) a.ptr a.type a.size = some (none, w) ∧ Replaces w c a none w := by
  have hre := (S.idle hn).1
  have hfind : w.find (.user c) = some none := by
    simp [World.find, hashOf_user, searchBoth, hn]
  have hothers : SameBut c w w := fun d _ => (S.keeps S rfl (.refl _)).find d
  refine ⟨⟨?_, hfind, hfind, hothers, rfl⟩, ?_, by simp [hfind], hfind, by simp, hothers, rfl⟩
  · simp [World.unlink, World.settle, hre, hashOf_user, searchBoth, hn]
  · simp [World.replace, World.settle, hre, hashOf_user, searchBoth, hn]

/-- An empty map with one bucket and a mask for four. -/
def overmasked : World ℕ ℕ where
  guard :=
    { opts := numberOpts
      ht0 := ⟨some ⟨1, fun _ => []⟩, 1, 3, 0⟩
      ht1 := htReset
      rehashidx := none }
  freed := []
  dropped := []
  kerrno := .ok

theorem halfMoved_overmasked : HalfMoved overmasked.guard where
  placed := by simp [overmasked, htReset]
  distinct := by simp [overmasked, htReset, nodes, stored]
  used_eq := by simp [overmasked, htReset, stored]
  second := rfl
  below := by simp [overmasked]

end Kylin.Kmap.World
