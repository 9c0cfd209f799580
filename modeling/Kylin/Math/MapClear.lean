import Kylin.Math.Iterate

/-!
# Clearing a map

`kylin_map_clear` destroys the nodes of both tables and counts them off, and ends a move that
is under way.  It does not touch the tables themselves: a bucket that had nodes still points to
the first of them, which is freed memory, and `ht[1]` keeps its table though nothing is being
moved into it any more.

The second table is harmless: a map that is not rehashing looks into `ht[0]` only, and the next
resize overwrites `ht[1]`.  A bucket of `ht[0]` is not.  So clearing is right exactly if `ht[0]`
holds no node, be it that the map is empty or that `ht[1]` holds all of them.

In the model the chains stay in the tables, and `freed` lists the nodes that have been
destroyed.

## Main definitions

* `World.clear` — `kylin_map_clear`.
* `World.Clears` — what it should do.
* `World.Orphans` — a map and what it would be without the table left behind in `ht[1]`.

## Main results

* `World.Orphans.step` — the table left behind changes nothing.
* `World.clears_iff` — clearing is right exactly if `ht[0]` holds no node.
-/

namespace Kylin.Kmap

open Lib

variable {K V : Type}

/-- One turn of the loop of `_ht_clear`, with the nodes destroyed.  The loop has ended when
`used` is zero. -/
def clearBucket (p : KmapHt K V × List (KmapNode K V)) (i : ℕ) :
    Option (KmapHt K V × List (KmapNode K V)) :=
  if p.1.used = 0 then some p
  else do
    let chain ← bucket p.1 i
    some ({ p.1 with used := p.1.used - chain.length }, p.2 ++ chain)

/-- `_ht_clear`, of a table that is there. -/
def htClear (ht : KmapHt K V) (freed : List (KmapNode K V)) :
    Option (KmapHt K V × List (KmapNode K V)) :=
  if ht.table.isNone then some (ht, freed)
  else (List.range ht.cap).foldlM clearBucket (ht, freed)

/-- `kylin_map_clear`. -/
def World.clear (w : World K V) : Option (World K V) := do
  let (ht0, freed) ← htClear w.guard.ht0 w.freed
  let (ht1, freed) ← htClear w.guard.ht1 freed
  some { w with
    guard := { w.guard with ht0 := ht0, ht1 := ht1, rehashidx := none }
    freed := freed }

/-! ## Clearing a table -/

section Table
variable {opts : KmapOpts K} {ht : KmapHt K V}

/-- A table that counts no node is left as it is. -/
theorem htClear_of_used_eq_zero (h : ht.used = 0) (freed : List (KmapNode K V)) :
    htClear ht freed = some (ht, freed) := by
  have hloop : ∀ is : List ℕ, is.foldlM clearBucket (ht, freed) = some (ht, freed) := by
    intro is
    induction is with
    | nil => rfl
    | cons i is ih =>
        rw [List.foldlM_cons, clearBucket, if_pos h]
        exact ih
  rw [htClear, hloop, ite_self]

/-- The loop of `_ht_clear`: the nodes still counted are those of the buckets to come. -/
theorem clearLoop_eq {t : Buffer (List (KmapNode K V))} (hn : ht.table = some t) :
    ∀ (n i : ℕ) (freed : List (KmapNode K V)), i + n = t.size →
      (List.range' i n).foldlM clearBucket
        ({ ht with used := ((List.range' i n).flatMap t.get).length }, freed) =
      some ({ ht with used := 0 }, freed ++ (List.range' i n).flatMap t.get) := by
  intro n
  induction n with
  | zero => simp
  | succ n ih =>
      intro i freed hi
      rw [List.range'_succ, List.foldlM_cons, List.flatMap_cons, clearBucket]
      have hlt : i < t.size := by omega
      by_cases hused : (t.get i ++ (List.range' (i + 1) n).flatMap t.get).length = 0
      · rw [List.length_eq_zero_iff, List.append_eq_nil_iff] at hused
        have hrest := ih (i + 1) freed (by omega)
        rw [hused.2] at hrest
        simpa [hused.1, hused.2] using hrest
      · have hrest := ih (i + 1) (freed ++ t.get i) (by omega)
        rw [if_neg hused]
        simpa [bucket, hn, Buffer.load_of_lt hlt] using hrest

/-- **`_ht_clear`.**  Every node is destroyed, and none is counted any more. -/
theorem HtGood.clear (H : HtGood opts ht) (freed : List (KmapNode K V)) :
    htClear ht freed = some ({ ht with used := 0 }, freed ++ stored ht) := by
  rcases Option.eq_none_or_eq_some ht.table with hn | ⟨t, hn⟩
  · have hnil : stored ht = [] := by simp [stored, hn]
    have hused : ht.used = 0 := by rw [H.used_eq, hnil]; rfl
    rw [htClear_of_used_eq_zero hused, ← hused, hnil, List.append_nil]
  · have hstart := clearLoop_eq hn t.size 0 freed (by omega)
    rw [← List.range_eq_range', ← contents, ← stored_of_table hn, ← H.used_eq,
      H.size_eq t hn] at hstart
    rw [htClear, if_neg (by simp [hn])]
    exact hstart

end Table

namespace World
variable {u d w w' : World K V}

/-! ## The table left behind -/

/-- A map without the table in `ht[1]`. -/
def bereft (u : World K V) : World K V :=
  { u with guard := { u.guard with ht1 := { u.guard.ht1 with table := none } } }

/-- `u` is `d`, or `d` with a table left behind in `ht[1]` though the map is not
rehashing. -/
def Orphans (u d : World K V) : Prop := u = d ∨ u.isRehashing = false ∧ d = u.bereft

/-- The calls that the table left behind does not matter to. -/
def Basic : Call K V → Prop
  | .insert .. | .remove _ | .find _ | .resize _ => True
  | .replace .. => False

section Idle
variable {hash : ℕ} {key : KPtr K} {second : Bool}
  {place : List (KmapNode K V) × KmapNode K V × List (KmapNode K V)}

theorem searchBoth_idle (h : u.isRehashing = false) :
    u.bereft.searchBoth true hash key = u.searchBoth true hash key := by
  have h' : u.bereft.isRehashing = false := h
  simp only [searchBoth, h, h', Bool.not_false, Bool.and_true, Bool.true_or, if_true]
  rfl

theorem settle_idle (h : u.isRehashing = false) : u.settle = some u := by
  rw [settle, if_neg (by simp [h])]

/-- A map that is not rehashing is searched in `ht[0]` only. -/
theorem searchBoth_flag (h : u.isRehashing = false)
    (hs : u.searchBoth true hash key = some (some (second, place))) : second = false := by
  rw [searchBoth] at hs
  split at hs
  · cases hs
  · rcases Option.bind_eq_some_iff.mp hs with ⟨r, -, hs⟩
    cases r with
    | some r =>
        cases hs
        rfl
    | none => simp [h] at hs

end Idle

namespace Orphans

theorem ht0_eq (O : Orphans u d) : u.guard.ht0 = d.guard.ht0 := by
  rcases O with rfl | ⟨-, rfl⟩ <;> rfl

theorem opts_eq (O : Orphans u d) : u.guard.opts = d.guard.opts := by
  rcases O with rfl | ⟨-, rfl⟩ <;> rfl

/-- While the map is rehashing, or without a table in `ht[1]`, nothing is left behind. -/
theorem eq_of_plain (O : Orphans u d) (h : u.isRehashing = true ∨ u.guard.ht1.table = none) :
    u = d := by
  rcases O with rfl | ⟨hidle, rfl⟩
  · rfl
  · rcases h with h | h
    · rw [h] at hidle
      cases hidle
    · rw [bereft, ← h]

theorem find (O : Orphans u d) (key : KPtr K) : u.find key = d.find key := by
  rcases O with rfl | ⟨h, rfl⟩
  · rfl
  · simp only [World.find, searchBoth_idle h]
    rfl

theorem unlink (O : Orphans u d) {key : KPtr K} {r : Option (KmapNode K V)}
    (hd : d.unlink key = some (r, w')) : ∃ u', u.unlink key = some (r, u') ∧ Orphans u' w' := by
  rcases O with rfl | ⟨h, rfl⟩
  · exact ⟨w', hd, .inl rfl⟩
  have h' : u.bereft.isRehashing = false := h
  rw [World.unlink, settle_idle h', Option.bind_eq_bind, Option.bind_some] at hd
  rw [World.unlink, settle_idle h, Option.bind_eq_bind, Option.bind_some]
  rcases Option.bind_eq_some_iff.mp hd with ⟨hash, hhash, hd⟩
  rcases Option.bind_eq_some_iff.mp hd with ⟨place, hplace, hd⟩
  rw [searchBoth_idle h] at hplace
  have hhash' : hashOf u.guard.opts key = some hash := hhash
  rw [hhash', Option.bind_eq_bind, Option.bind_some, hplace, Option.bind_eq_bind, Option.bind_some]
  rcases place with _ | ⟨second, before, x, behind⟩
  · cases hd
    exact ⟨u, rfl, .inr ⟨h, rfl⟩⟩
  · cases searchBoth_flag h hplace
    rcases Option.bind_eq_some_iff.mp hd with ⟨ht, hset, hd⟩
    have hset' : setBucket (u.ht false) (hash &&& (u.ht false).mask) (before ++ behind) =
        some ht := hset
    cases hd
    exact ⟨u.setHt false { ht with used := ht.used - 1 }, by simp [hset'], .inr ⟨h, rfl⟩⟩

theorem remove (O : Orphans u d) {key : KPtr K} {code : Kerr}
    (hd : d.remove key = some (code, w')) :
    ∃ u', u.remove key = some (code, u') ∧ Orphans u' w' := by
  rcases Option.bind_eq_some_iff.mp hd with ⟨⟨r, d'⟩, hunlink, hd⟩
  rcases O.unlink hunlink with ⟨u', hu', O'⟩
  rw [World.remove, hu', Option.bind_eq_bind, Option.bind_some]
  cases r with
  | none =>
      cases hd
      exact ⟨u', rfl, O'⟩
  | some x =>
      cases hd
      refine ⟨_, rfl, ?_⟩
      rcases O' with rfl | ⟨h, rfl⟩
      · exact .inl rfl
      · exact .inr ⟨h, rfl⟩

theorem resize (O : Orphans u d) {mem : Bool} {count : ℕ} {code : Kerr}
    (hd : d.resize mem count = some (code, w')) :
    ∃ u', u.resize mem count = some (code, u') ∧ Orphans u' w' := by
  rcases O with rfl | ⟨h, rfl⟩
  · exact ⟨w', hd, .inl rfl⟩
  have h' : u.bereft.isRehashing = false := h
  rw [World.resize, if_neg (by simp [h'])] at hd
  rw [World.resize, if_neg (by simp [h])]
  rcases Option.bind_eq_some_iff.mp hd with ⟨n, hn, hd⟩
  have hht0 : u.bereft.guard.ht0 = u.guard.ht0 := rfl
  rw [hht0] at hd
  rw [hn, Option.bind_eq_bind, Option.bind_some]
  by_cases hsame : n = u.guard.ht0.cap
  · rw [if_pos hsame] at hd ⊢
    cases hd
    exact ⟨u, rfl, .inr ⟨h, rfl⟩⟩
  rw [if_neg hsame] at hd ⊢
  cases hnone : u.guard.ht0.table.isNone
  · simp only [hnone, Bool.false_eq_true, if_false, Option.some.injEq, Prod.mk.injEq] at hd ⊢
    rcases hd with ⟨rfl, rfl⟩
    exact ⟨_, ⟨rfl, rfl⟩, .inl rfl⟩
  · simp only [hnone, if_true, Option.some.injEq, Prod.mk.injEq] at hd ⊢
    rcases hd with ⟨rfl, rfl⟩
    exact ⟨_, ⟨rfl, rfl⟩, .inr ⟨h, rfl⟩⟩

theorem expand (O : Orphans u d) {mem : Bool} (hd : d.expand mem = some w') :
    ∃ u', u.expand mem = some u' ∧ Orphans u' w' := by
  have hneed : u.htNeedExpand = d.htNeedExpand := by rw [htNeedExpand, htNeedExpand, O.ht0_eq]
  rw [World.expand] at hd ⊢
  rw [hneed, O.ht0_eq]
  split at hd
  · rename_i h
    rcases Option.map_eq_some_iff.mp hd with ⟨⟨code, d'⟩, hresize, rfl⟩
    rcases O.resize hresize with ⟨u', hu', O'⟩
    exact ⟨u', by rw [if_pos h, hu']; rfl, O'⟩
  · rename_i h
    cases hd
    exact ⟨u, by rw [if_neg h], O⟩

theorem settle (O : Orphans u d) (hd : d.settle = some w') :
    ∃ u', u.settle = some u' ∧ Orphans u' w' := by
  rcases O with rfl | ⟨h, rfl⟩
  · exact ⟨w', hd, .inl rfl⟩
  · have h' : u.bereft.isRehashing = false := h
    rw [settle_idle h'] at hd
    cases hd
    exact ⟨u, settle_idle h, .inr ⟨h, rfl⟩⟩

theorem insertInto (O : Orphans u d) {node : KmapNode K V} {r : Option (KmapNode K V)}
    (hd : d.insertInto node = some (r, w')) :
    ∃ u', u.insertInto node = some (r, u') ∧ Orphans u' w' := by
  rcases O with rfl | ⟨h, rfl⟩
  · exact ⟨w', hd, .inl rfl⟩
  have h' : u.bereft.isRehashing = false := h
  have hht : u.bereft.insertHt = u.insertHt := by rw [insertHt, insertHt, h, h']; rfl
  rw [World.insertInto, hht] at hd
  rw [World.insertInto]
  split at hd
  · rename_i hnone
    cases hd
    exact ⟨{ u with kerrno := .noent }, by rw [if_pos hnone], .inr ⟨h, rfl⟩⟩
  rename_i hnone
  rw [if_neg hnone]
  rcases Option.bind_eq_some_iff.mp hd with ⟨hash, hhash, hd⟩
  rcases Option.bind_eq_some_iff.mp hd with ⟨chain, hchain, hd⟩
  rcases Option.bind_eq_some_iff.mp hd with ⟨place, hplace, hd⟩
  have hhash' : hashNode u.guard.opts node = some hash := hhash
  have hplace' : walk (cmpNode u.guard.opts node) chain = some place := hplace
  simp only [hhash', hchain, hplace', Option.bind_eq_bind, Option.bind_some]
  cases place with
  | some place =>
      cases hd
      exact ⟨u, rfl, .inr ⟨h, rfl⟩⟩
  | none =>
      rcases Option.bind_eq_some_iff.mp hd with ⟨ht, hset, hd⟩
      cases hd
      refine ⟨u.setHt u.isRehashing { ht with used := ht.used + 1 }, by simp [hset], ?_⟩
      rw [h, h']
      exact .inr ⟨h, rfl⟩

theorem insert (O : Orphans u d) {node : Option ℕ} {mem : Bool} {key : KPtr K} {val : KPtr V}
    {valType : Kobj} {size : ℕ} {r : Option (KmapNode K V)}
    (hd : d.insert node mem key val valType size = some (r, w')) :
    ∃ u', u.insert node mem key val valType size = some (r, u') ∧ Orphans u' w' := by
  cases node with
  | none =>
      cases hd
      refine ⟨_, rfl, ?_⟩
      rcases O with rfl | ⟨h, rfl⟩
      · exact .inl rfl
      · exact .inr ⟨h, rfl⟩
  | some addr =>
      rw [World.insert] at hd ⊢
      rw [O.opts_eq]
      rcases Option.bind_eq_some_iff.mp hd with ⟨k, hk, hd⟩
      rcases Option.bind_eq_some_iff.mp hd with ⟨v, hv, hd⟩
      rcases Option.bind_eq_some_iff.mp hd with ⟨d1, hexpand, hd⟩
      rcases Option.bind_eq_some_iff.mp hd with ⟨d2, hsettle, hd⟩
      rcases O.expand hexpand with ⟨u1, hu1, O1⟩
      rcases O1.settle hsettle with ⟨u2, hu2, O2⟩
      rcases O2.insertInto hd with ⟨u3, hu3, O3⟩
      exact ⟨u3, by simp [hk, hv, insertRaw, hu1, hu2, hu3], O3⟩

/-- **The table left behind changes nothing** of what a call returns. -/
theorem step (O : Orphans u d) {call : Call K V} (hcall : Basic call) {r : Answer V}
    (hd : d.step call = some (r, w')) : ∃ u', u.step call = some (r, u') ∧ Orphans u' w' := by
  cases call with
  | insert key val addr =>
      rcases Option.bind_eq_some_iff.mp hd with ⟨⟨x, d'⟩, hins, hd⟩
      rcases O.insert hins with ⟨u', hu', O'⟩
      cases hd
      exact ⟨u', by simp [World.step, hu'], O'⟩
  | remove key =>
      rcases Option.bind_eq_some_iff.mp hd with ⟨⟨code, d'⟩, hrem, hd⟩
      rcases O.remove hrem with ⟨u', hu', O'⟩
      cases hd
      exact ⟨u', by simp [World.step, hu'], O'⟩
  | replace key val => exact hcall.elim
  | find key =>
      rcases Option.bind_eq_some_iff.mp hd with ⟨x, hfind, hd⟩
      cases hd
      exact ⟨u, by simp [World.step, O.find, hfind], O⟩
  | resize count =>
      rcases Option.bind_eq_some_iff.mp hd with ⟨⟨code, d'⟩, hres, hd⟩
      rcases O.resize hres with ⟨u', hu', O'⟩
      cases hd
      exact ⟨u', by simp [World.step, hu'], O'⟩

end Orphans

/-! ## Clearing a map -/

/-- The nodes that a map holds: those of `ht[1]` only while it is rehashing. -/
def held (w : World K V) : List (KmapNode K V) :=
  stored w.guard.ht0 ++ if w.isRehashing then stored w.guard.ht1 else []

/-- What clearing leaves. -/
def cleared (w : World K V) : World K V :=
  { w with
    guard := { w.guard with
      ht0 := { w.guard.ht0 with used := 0 }
      ht1 := { w.guard.ht1 with used := 0 }
      rehashidx := none }
    freed := w.freed ++ w.held }

/-- **`kylin_map_clear`.**  Every node is destroyed; the tables stay. -/
theorem clear_eq (O : Orphans u d) (R : Ready d) : u.clear = some u.cleared := by
  have H0 : HtGood d.guard.opts u.guard.ht0 := by
    rw [O.ht0_eq]
    exact R.good.ht0
  rw [clear, H0.clear, Option.bind_eq_bind, Option.bind_some]
  rcases O with rfl | ⟨h, rfl⟩
  · have hheld : stored u.guard.ht0 ++ stored u.guard.ht1 = u.held := by
      cases hre : u.isRehashing with
      | true => simp [held, hre]
      | false =>
          have hn : u.guard.ht1.table = none := by
            rw [← Option.not_isSome_iff_eq_none, R.good.second]
            simpa [isRehashing] using hre
          simp [held, hre, stored, hn]
    simp [R.good.ht1.clear, cleared, ← hheld]
  · have hused : u.guard.ht1.used = 0 := R.good.ht1.used_eq
    have hsame : ({ u.guard.ht1 with used := 0 } : KmapHt K V) = u.guard.ht1 := by rw [← hused]
    simp [htClear_of_used_eq_zero hused, cleared, held, h, hsame]

/-- A map whose `ht[0]` holds no node is empty when it is cleared, but for the table left
behind. -/
theorem ready_cleared (O : Orphans u d) (R : Ready d) (hnil : stored u.guard.ht0 = []) :
    Ready u.cleared.bereft ∧ nodes u.cleared.bereft.guard = [] := by
  have hused : u.guard.ht0.used = 0 := by
    rw [O.ht0_eq, R.good.ht0.used_eq, ← O.ht0_eq, hnil]
    rfl
  have hsame : u.cleared.bereft.guard.ht0 = u.guard.ht0 := by
    change ({ u.guard.ht0 with used := 0 } : KmapHt K V) = u.guard.ht0
    rw [← hused]
  have hnodes : nodes u.cleared.bereft.guard = [] := by
    rw [nodes, hsame, hnil]
    rfl
  refine ⟨⟨?_, ⟨?_, ?_, ?_, rfl, ?_⟩, ?_, ?_⟩, hnodes⟩
  · exact O.opts_eq ▸ R.lawful
  · rw [hsame, O.ht0_eq]
    exact O.opts_eq ▸ R.good.ht0
  · constructor <;> simp [cleared, bereft, stored]
  · rw [hnodes]
    exact List.nodup_nil
  · intro idx t hidx
    cases hidx
  · rw [hsame, O.ht0_eq]
    exact R.cap_zero
  · intro h
    cases h

/-- The pointer to the first node is `NULL` only if `ht[0]` holds no node. -/
theorem first_cleared (O : Orphans u d) (R : Ready d) :
    (∃ w', u.cleared.first = some ([], w')) ↔ stored u.guard.ht0 = [] := by
  have H : HtGood d.guard.opts u.guard.ht0 := by
    rw [O.ht0_eq]
    exact R.good.ht0
  have hfirst : (tables u.cleared.guard).first = TwoTables.head (chains u.guard.ht0) := rfl
  have hex := exists_first (w := u.cleared) (P := fun p => p = [])
  rw [hfirst] at hex
  have hleft : (∃ w', u.cleared.first = some ([], w')) ↔
      ∃ p w', u.cleared.first = some (p, w') ∧ p = [] := by
    constructor
    · rintro ⟨w', h⟩
      exact ⟨[], w', h, rfl⟩
    · rintro ⟨p, w', h, rfl⟩
      exact ⟨w', h⟩
  rw [hleft, hex, ← H.nodesOf_chains]
  cases hn : chains u.guard.ht0 with
  | none => simp [TwoTables.head, TwoTables.nodesOf]
  | some t =>
      rcases (H.proper R.lawful hn).scan_eq t.cap 0 (by omega) with ⟨p, hp, hnil⟩
      have hhead : TwoTables.head (some t) = some p := hp
      rw [hhead]
      constructor
      · rintro ⟨q, hq, rfl⟩
        cases hq
        exact hnil.mp rfl
      · intro hnodes
        exact ⟨p, rfl, hnil.mpr hnodes⟩

/-! ## Runs -/

section Run
variable [DecidableEq K] {t : Reference K V} {opts : KmapOpts K}

/-- The calls of a sequence that is compared with one on a new map. -/
def Later (w : World K V) (call : Call K V) : Prop := w.Sound call ∧ Basic call

/-- **The map behaves as a new one does**: the same calls have the same results, and every
call returns. -/
structure LikeFresh (w : World K V) : Prop where
  answers : ∀ tr v tr' v', Run step Later w tr v → Run step Later (create w.guard.opts) tr' v' →
    tr.map Step.call = tr'.map Step.call → tr.map Step.result = tr'.map Step.result
  returns : ∀ tr v call, Run step Later w tr v → v.Later call → (v.step call).isSome

/-- **What clearing should do.**  Nothing is counted, found or first, every node has been
destroyed once, and the map behaves as a new one. -/
structure Clears (w w' : World K V) : Prop where
  count : w'.count = 0
  find : ∀ c, w'.find (.user c) = some none
  first : ∃ w'', w'.first = some ([], w'')
  freed : ∃ xs, w'.freed = w.freed ++ xs ∧ xs.Perm w.held
  fresh : LikeFresh w'

theorem Orphans.sound_iff (O : Orphans u d) (call : Call K V) : u.Sound call ↔ d.Sound call := by
  rcases O with rfl | ⟨-, rfl⟩
  · rfl
  · cases call <;> rfl

/-- A run that begins with a table left behind follows the reference. -/
theorem follows (O : Orphans u d) (H : Inv d t)
    {tr : List (Step (World K V) (Call K V) (Answer V))} (h : Run step Later u tr w) :
    ∃ t', specRun (reference d.guard.opts.valCtor) t (tr.map Step.call) =
        (tr.map Step.result, t') ∧
      ∃ d', Orphans w d' ∧ Inv d' t' ∧ d'.guard.opts = d.guard.opts := by
  refine h.simulates (R := fun w t => ∃ d', Orphans w d' ∧ Inv d' t ∧
    d'.guard.opts = d.guard.opts) ⟨d, O, H, rfl⟩ ?_
  rintro w call r w' t' ⟨d', O', H', hopts⟩ ⟨hsound, hbasic⟩ hstep
  rcases H'.step ((O'.sound_iff call).mp hsound) with ⟨d'', hd, hopts', H''⟩
  rcases O'.step hbasic hd with ⟨u'', hu, O''⟩
  rw [hu] at hstep
  cases hstep
  rw [hopts] at H'' ⊢
  exact ⟨rfl, d'', O'', H'', hopts'.trans hopts⟩

/-- A map that is empty but for a table left behind behaves as a new one. -/
theorem likeFresh (O : Orphans u d) (H : Inv d ∅) : LikeFresh u where
  answers := by
    intro tr v tr' v' h h' hcalls
    rcases follows O H h with ⟨t, hspec, -⟩
    have hnew : Inv (create u.guard.opts : World K V) ∅ :=
      inv_create (O.opts_eq ▸ H.ready.lawful)
    rcases follows (.inl rfl) hnew h' with ⟨t', hspec', -⟩
    have hctor : (create u.guard.opts : World K V).guard.opts = d.guard.opts := O.opts_eq
    rw [hctor, ← hcalls, hspec] at hspec'
    exact (Prod.mk.inj hspec').1
  returns := by
    intro tr v call h hlater
    rcases follows O H h with ⟨t, -, d', O', H', -⟩
    rcases H'.step ((O'.sound_iff call).mp hlater.1) with ⟨d'', hd, -⟩
    rcases O'.step hlater.2 hd with ⟨u'', hu, -⟩
    rw [hu]
    rfl

/-- **When clearing is right**, in a state with a table left behind or none. -/
theorem clears_iff_stored (O : Orphans u d) (H : Inv d t) :
    (∃ w', u.clear = some w' ∧ Clears u w') ↔ stored u.guard.ht0 = [] := by
  rw [clear_eq O H.ready]
  constructor
  · rintro ⟨w', hw', C⟩
    cases hw'
    exact (first_cleared O H.ready).mp C.first
  · intro hnil
    rcases ready_cleared O H.ready hnil with ⟨R', hnodes⟩
    have O' : Orphans u.cleared u.cleared.bereft := .inr ⟨rfl, rfl⟩
    have H' : Inv u.cleared.bereft ∅ := ⟨R', by rw [hnodes]; exact Represents.nil⟩
    refine ⟨u.cleared, rfl, rfl, fun c => ?_, (first_cleared O H.ready).mpr hnil,
      ⟨u.held, rfl, .refl _⟩, likeFresh O' H'⟩
    rw [O'.find]
    rcases find_spec R' c with ⟨r, hr, hsome, -⟩
    cases r with
    | none => exact hr
    | some x =>
        have hx := (hsome x rfl).1
        rw [hnodes] at hx
        cases hx

/-- The interface with clearing. -/
inductive Act (K V : Type)
  | call (call : Call K V)
  | clear

def act (w : World K V) : Act K V → Option (Answer V × World K V)
  | .call call => w.step call
  | .clear => w.clear.map fun w => (.none, w)

/-- The steps that keep a map sound.  `kylin_map_replace` looks into `ht[1]` even if the map is
not rehashing, so it is not called while a table is left behind there. -/
def Permitted (w : World K V) : Act K V → Prop
  | .call call => w.Sound call ∧ (Basic call ∨ w.isRehashing = true ∨ w.guard.ht1.table = none)
  | .clear => stored w.guard.ht0 = []

instance (w : World K V) (a : Act K V) : Decidable (w.Permitted a) :=
  match a with
  | .call (.insert ..) | .call (.remove _) | .call (.find _) | .call (.resize _) =>
      inferInstanceAs (Decidable (Sound _ _ ∧ (True ∨ _ = true ∨ _ = none)))
  | .call (.replace ..) => inferInstanceAs (Decidable (Sound _ _ ∧ (False ∨ _ = true ∨ _ = none)))
  | .clear => inferInstanceAs (Decidable (_ = []))

/-- One step: apart from a table left behind, the map stays with its reference. -/
theorem Orphans.act (O : Orphans u d) (H : Inv d t) {a : Act K V} (hok : u.Permitted a)
    {r : Answer V} (hstep : u.act a = some (r, w')) : ∃ d' t', Orphans w' d' ∧ Inv d' t' := by
  cases a with
  | clear =>
      rw [World.act, clear_eq O H.ready] at hstep
      cases hstep
      rcases ready_cleared O H.ready hok with ⟨R', hnodes⟩
      exact ⟨_, ∅, .inr ⟨rfl, rfl⟩, R', by rw [hnodes]; exact Represents.nil⟩
  | call call =>
      rcases H.step ((O.sound_iff call).mp hok.1) with ⟨d', hd, -, H'⟩
      rcases hok.2 with hbasic | hplain
      · rcases O.step hbasic hd with ⟨u', hu, O'⟩
        rw [World.act, hu] at hstep
        cases hstep
        exact ⟨d', _, O', H'⟩
      · rw [← O.eq_of_plain hplain] at hd
        rw [World.act, hd] at hstep
        cases hstep
        exact ⟨_, _, .inl rfl, H'⟩

/-- **When clearing a map is right**, in every state of every run: exactly if `ht[0]` holds no
node. -/
theorem clears_iff (L : Lawful opts) {tr : List (Step (World K V) (Act K V) (Answer V))}
    (h : Run act Permitted (create opts) tr w) :
    (∃ w', w.clear = some w' ∧ Clears w w') ↔ stored w.guard.ht0 = [] := by
  have hinv : ∃ d t, Orphans w d ∧ Inv d t := by
    refine h.invariant (I := fun w => ∃ d t, Orphans w d ∧ Inv d t)
      ⟨_, ∅, .inl rfl, inv_create L⟩ ?_
    rintro w a r w' ⟨d, t, O, H⟩ hok hstep
    exact O.act H hok hstep
  rcases hinv with ⟨d, t, O, H⟩
  exact clears_iff_stored O H

end Run

/-- Two keys, a resize, and the removal of the one that has not been moved: the other one is
in `ht[1]`, and `ht[0]` is empty. -/
theorem clears_iff_emptied : ∃ tr w, Run act Permitted (create numberOpts : World ℕ ℕ) tr w ∧
    w.isRehashing = true ∧ w.count = 1 ∧ ∃ w', w.clear = some w' ∧ Clears w w' := by
  have hrun : ∃ tr w, Run act Permitted (create numberOpts : World ℕ ℕ) tr w ∧
      w.isRehashing = true ∧ w.count = 1 ∧ (stored w.guard.ht0).length = 0 :=
    exists_run_of_eval
      [.call (.resize 8), .call (.insert (.obj 1) (numberArg 10) 0),
        .call (.insert (.obj 2) (numberArg 20) 1), .call (.resize 16),
        .call (.remove (.obj 2))] (by decide +kernel)
  rcases hrun with ⟨tr, w, h, hre, hcount, hlen⟩
  exact ⟨tr, w, h, hre, hcount,
    (clears_iff numberOpts_lawful h).mpr (List.length_eq_zero_iff.mp hlen)⟩

/-- A map with one key: after clearing, the first node is the one that has been destroyed. -/
theorem not_clears_one : ∃ tr w, Run act Permitted (create numberOpts : World ℕ ℕ) tr w ∧
    (∃ w' w'' x, w.clear = some w' ∧ w'.freed = [x] ∧ w'.first = some ([x], w'')) ∧
    ¬ ∃ w', w.clear = some w' ∧ Clears w w' := by
  have hrun : ∃ tr w, Run act Permitted (create numberOpts : World ℕ ℕ) tr w ∧
      (w.clear.bind fun w' => w'.first.map fun q => (w'.freed, q.1)) =
        some ([⟨0, .v (.user (.obj 1)), .v (.user (.obj 10)), .others, 8⟩],
          [⟨0, .v (.user (.obj 1)), .v (.user (.obj 10)), .others, 8⟩]) :=
    exists_run_of_eval [.call (.insert (.obj 1) (numberArg 10) 0)] (by decide +kernel)
  rcases hrun with ⟨tr, w, h, hclear⟩
  rcases Option.bind_eq_some_iff.mp hclear with ⟨w', hw', hclear⟩
  rcases Option.map_eq_some_iff.mp hclear with ⟨⟨p, w''⟩, hfirst, hp⟩
  rw [Prod.mk.injEq] at hp
  rcases hp with ⟨hfreed, rfl⟩
  refine ⟨tr, w, h, ⟨w', w'', _, hw', hfreed, hfirst⟩, ?_⟩
  rintro ⟨v, hv, C⟩
  rw [hw'] at hv
  cases hv
  rcases C.first with ⟨v', hv'⟩
  rw [hfirst] at hv'
  cases hv'

end World

end Kylin.Kmap
