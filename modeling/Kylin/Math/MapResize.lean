import Kylin.Math.Map

/-!
# Resizing a map without memory

`kylin_map_resize` does not look at what `kylin_malloc` gives it for the new table.  When there is
no memory it stores a table of the new size without buckets and returns `KYLIN_ERROR_OK`.

If that becomes `ht[0]`, the map has a size and no table: an insertion sees no need to expand and
reports that there is no table, also when there is memory again.  If it becomes `ht[1]`, a move
has been started that cannot be carried out: the first modification of a map that has nodes
follows the null table.

## Main definitions

* `World.answers` — what a sequence of calls returns.
* `World.ResizesAtomically` — a resize without memory reports it and changes nothing.

## Main results

* `World.resizesAtomically_iff` — a resize without memory is right only where it asks for
  none.
* `World.resize_false_breaks` — what becomes of the map otherwise.
-/

namespace Kylin.Kmap.World

open Lib

variable {K V : Type} {w w' : World K V}

/-- What a sequence of calls returns, with allocations that succeed. -/
def answers (w : World K V) (calls : List (Call K V)) : Option (List (Answer V)) :=
  (runList step w calls).map fun p => p.1.map Step.result

/-- **A resize without memory is not one.**  It does not return `KYLIN_ERROR_OK` and leaves the
map as it is, so that every later sequence of calls returns what it would have returned. -/
def ResizesAtomically (w : World K V) (count : ℕ) : Prop :=
  ∃ code w', w.resize false count = some (code, w') ∧ code ≠ .ok ∧ w'.guard = w.guard ∧
    ∀ calls, w'.answers calls = w.answers calls

/-- What a resize without memory does, if it asks for any. -/
theorem resize_false {count n : ℕ} (hidle : w.isRehashing = false)
    (hn : roundupPowOfTwo count = some n) (hne : n ≠ w.guard.ht0.cap) :
    w.resize false count = some (.ok, if w.guard.ht0.table.isNone
      then { w with guard := { w.guard with ht0 := ⟨none, n, n - 1, 0⟩ } }
      else { w with guard := { w.guard with
        ht1 := ⟨none, n, n - 1, 0⟩, rehashidx := some 0 } }) := by
  cases hnone : w.guard.ht0.table.isNone <;> simp [resize, hidle, hn, hne, hnone]

/-- **When a resize without memory is right**: where it returns before asking for any, because
the map is rehashing or has the size already. -/
theorem resizesAtomically_iff (w : World K V) (count : ℕ) :
    ResizesAtomically w count ↔
      w.isRehashing = true ∨ roundupPowOfTwo count = some w.guard.ht0.cap := by
  cases hre : w.isRehashing with
  | true =>
      refine ⟨fun _ => .inl rfl, fun _ => ⟨.busy, w, ?_, by decide, rfl, fun _ => rfl⟩⟩
      rw [resize, if_pos hre]
  | false =>
      cases hn : roundupPowOfTwo count with
      | none =>
          constructor
          · rintro ⟨code, w', hres, -⟩
            simp [resize, hre, hn] at hres
          · rintro (h | h) <;> cases h
      | some n =>
          by_cases hsame : n = w.guard.ht0.cap
          · refine ⟨fun _ => .inr (by rw [hsame]), fun _ => ⟨.exist, w, ?_, by decide, rfl,
              fun _ => rfl⟩⟩
            simp [resize, hre, hn, hsame]
          · constructor
            · rintro ⟨code, w', hres, hcode, -⟩
              rw [resize_false hre hn hsame] at hres
              cases hres
              exact absurd rfl hcode
            · rintro (h | h)
              · cases h
              · exact absurd (Option.some.inj h) hsame

/-- A new map whose first resize found no memory: it returns `KYLIN_ERROR_OK`, and the
insertion after it, which has memory, fails. -/
theorem not_resizesAtomically_create :
    ((create numberOpts : World ℕ ℕ).resize false 4).map
        (fun p => (p.1, p.2.guard.ht0.cap, p.2.answers [.insert (.obj 1) (numberArg 10) 0])) =
      some (.ok, 2, some [.entry none]) ∧
    ¬ ResizesAtomically (create numberOpts : World ℕ ℕ) 4 := by
  refine ⟨by decide +kernel, ?_⟩
  rintro ⟨code, w', hres, hcode, -⟩
  have hok : ((create numberOpts : World ℕ ℕ).resize false 4).map Prod.fst = some .ok := by
    decide +kernel
  rw [hres] at hok
  exact hcode (Option.some.inj hok)

/-! ## What becomes of the map -/

/-- **A size without a table.**  Every insertion fails, also when there is memory. -/
theorem insert_of_tableless (hidle : w.isRehashing = false) (hn : w.guard.ht0.table = none)
    (hcap : w.guard.ht0.cap ≠ 0) (hused : w.guard.ht0.used = 0)
    (L : Lawful w.guard.opts) (addr : ℕ) (c : Cell K) (a : ValArg V) :
    w.insert (some addr) true (.user c) a.ptr a.type a.size =
      some (none, { w with kerrno := .noent }) := by
  rcases kmathValCtor_of_isPointer L.pointer c w.guard.opts.keyCtor with ⟨p, hp, -⟩
  have hneed : w.htNeedExpand = false := by simp [htNeedExpand, hcap, hused]
  have htable : w.insertHt.table = none := by
    rw [insertHt, hidle]
    exact hn
  simp [World.insert, hp, a.ctor_eq, insertRaw, expand, hneed, settle, hidle, insertInto, htable]

/-- A node cannot be moved into no table. -/
theorem moveNode_of_tableless (h : w.guard.ht1.table = none) (x : KmapNode K V) :
    w.moveNode x = none := by
  have hbucket : ∀ i, bucket w.guard.ht1 i = none := by
    intro i
    simp [bucket, h]
  cases hhash : hashNode w.guard.opts x with
  | none => simp [moveNode, hhash]
  | some n => simp [moveNode, hhash, hbucket]

/-- **A move into no table.**  Every modification of a map that had nodes follows the null
table. -/
theorem settle_of_halfTabled (R : Ready w) (hne : stored w.guard.ht0 ≠ []) (n : ℕ) :
    ({ w with guard := { w.guard with
      ht1 := ⟨none, n, n - 1, 0⟩, rehashidx := some 0 } } : World K V).settle = none := by
  generalize hw' : ({ w with guard := { w.guard with
    ht1 := ⟨none, n, n - 1, 0⟩, rehashidx := some 0 } } : World K V) = w'
  have hht0 : w'.guard.ht0 = w.guard.ht0 := by rw [← hw']
  have hht1 : w'.guard.ht1.table = none := by rw [← hw']
  have hidx : w'.guard.rehashidx = some 0 := by rw [← hw']
  have hused : w'.guard.ht0.used ≠ 0 := by
    rw [hht0, R.good.ht0.used_eq]
    exact fun h => hne (List.length_eq_zero_iff.mp h)
  rcases Option.eq_none_or_eq_some w.guard.ht0.table with hn | ⟨t, hn⟩
  · exact absurd (by simp [stored, hn]) hne
  rw [stored_of_table hn] at hne
  rcases exists_first_chain hne with ⟨i, F⟩
  have hi := F.lt
  have hsize : t.size < 2 ^ 31 := by
    rw [R.good.ht0.size_eq t hn]
    exact R.good.ht0.cap_lt t hn
  have hscan : scan t (t.size + 1) 0 = some i := F.probe_eq (by omega) _ (by omega)
  have hturn : w'.rehashTurn = none := by
    cases hchain : t.get i with
    | nil =>
        have hhere := F.here
        rw [hchain] at hhere
        cases hhere
    | cons x xs =>
        simp [rehashTurn, hht0, hn, hidx, hscan, Buffer.load_of_lt hi, hchain,
          moveNode_of_tableless hht1]
  simp [settle, isRehashing, hidx, mapRehash, rehashLoop, hused, hturn]

/-- **What a resize without memory leads to**, from a map between calls.  It returns
`KYLIN_ERROR_OK`; if the map had no table no insertion works any more, and if it had nodes no
modification returns. -/
theorem resize_false_breaks (R : Ready w) (hidle : w.isRehashing = false) {count n : ℕ}
    (hn : roundupPowOfTwo count = some n) (hne : n ≠ w.guard.ht0.cap) :
    ∃ w', w.resize false count = some (.ok, w') ∧
      (w.guard.ht0.table = none → ∀ addr c (a : ValArg V),
        w'.insert (some addr) true (.user c) a.ptr a.type a.size =
          some (none, { w' with kerrno := .noent })) ∧
      (stored w.guard.ht0 ≠ [] → w'.settle = none) := by
  refine ⟨_, resize_false hidle hn hne, ?_, ?_⟩
  · intro htable addr c a
    have hcap := R.cap_zero htable
    rw [hcap] at hne
    rw [if_pos (by simp [htable])]
    apply insert_of_tableless
    · exact hidle
    · rfl
    · exact hne
    · rfl
    · exact R.lawful
  · intro hstored
    rcases Option.eq_none_or_eq_some w.guard.ht0.table with htable | ⟨t, htable⟩
    · exact absurd (by simp [stored, htable]) hstored
    · have hsettle := settle_of_halfTabled R hstored n
      rw [if_neg (by simp [htable])]
      exact hsettle

end Kylin.Kmap.World
