import Kylin.Lib.Run
import Kylin.Math.BitmapOps

/-!
# Full and empty bitmaps

`kylin_bitmap_create` takes a capacity in bits and allocates whole words, which it does not
clear: `kylin_malloc` does, and an allocator of the caller need not.  The functions on bitmaps
know the number of words only, so that the bits between the capacity and the end of the last
word take part in `kylin_bitmap_is_full` and `kylin_bitmap_is_empty`, with whatever the
allocator or a complement has left there.

## Main definitions

* `create` — `kylin_bitmap_create`.
* `step` — the bitmaps of one capacity, and the functions that change them.
* `Faithful` — what the two predicates are for.

## Main results

* `step_size` — a bitmap keeps its number of words.
* `faithful_iff` — the capacities for which the predicates are right in every run.
-/

namespace Kylin.Kbitmap

open Lib

/-- `kylin_bitmap_create`, where `mem` is what `guard_ctor` or `kylin_malloc` returns, with the
contents its memory has. -/
def create (cap : BitVec 64) (mem : Option (ℕ → BitVec 64)) : Option Kbitmap :=
  let len := (cap + 64 - 1).toNat / 64
  mem.map fun val => ⟨⟨len, val⟩⟩

/-- A call on the bitmaps created so far, which are told by their number. -/
inductive Action
  | create (mem : Option (ℕ → BitVec 64))
  | set (bm : ℕ) (start len : BitVec 32)
  | clear (bm : ℕ) (start len : BitVec 32)
  | complement (dst src : ℕ)

/-- The call, on bitmaps that are all created with the capacity `cap`. -/
def step (cap : BitVec 64) (w : List Kbitmap) : Action → Option (Kerr × List Kbitmap)
  | .create mem =>
      match Kbitmap.create cap mem with
      | none => some (.nomem, w)
      | some bm => some (.ok, w ++ [bm])
  | .set k start len => do
      let bm ← w[k]?
      let (err, bm) ← bm.set start len
      some (err, w.set k bm)
  | .clear k start len => do
      let bm ← w[k]?
      let (err, bm) ← bm.clear start len
      some (err, w.set k bm)
  | .complement k j => do
      let dst ← w[k]?
      let src ← w[j]?
      let (err, dst) ← dst.complement src
      some (err, w.set k dst)

/-- The ranges are inside the capacity. -/
def Inside (cap : BitVec 64) (_ : List Kbitmap) : Action → Prop
  | .set _ start len | .clear _ start len => 0 ≤ len.toInt ∧ start.toNat + len.toInt ≤ cap.toNat
  | .create _ | .complement _ _ => True

/-- A bitmap that was created with a capacity and changed within it. -/
def Reached (cap : BitVec 64) (bm : Kbitmap) : Prop :=
  ∃ tr w, Run (step cap) (Inside cap) [] tr w ∧ bm ∈ w

/-- **What the predicates are for**: they speak of the bits up to the capacity. -/
structure Faithful (cap : BitVec 64) (bm : Kbitmap) : Prop where
  full : ∃ r, isFull bm = some r ∧ (r = true ↔ ∀ i, i < cap.toNat → bm.bitAt i = true)
  empty : ∃ r, isEmpty bm = some r ∧ (r = true ↔ ∀ i, i < cap.toNat → bm.bitAt i = false)

section Sizes
variable {bm dst src : Kbitmap} {err : Kerr}

/-- A complement inverts the words both bitmaps have. -/
theorem complement_spec (hd : 1 ≤ dst.val.size) (hs : 1 ≤ src.val.size)
    (hlimit : min dst.val.size src.val.size < intLimit) :
    ∃ dst', dst.complement src = some (.ok, dst') ∧ dst'.val.size = dst.val.size ∧
      ∀ i, dst'.bit i =
        if i < 64 * min dst.val.size src.val.size then !src.bit i else dst.bit i := by
  have hbody : ∀ i (d : Buffer (BitVec 64)), i < min dst.val.size src.val.size →
      d.size = dst.val.size → (do d.store i (~~~(← src.val.load i))) =
        some { d with get := Function.update d.get i (~~~src.val.get i) } := by
    intro i d hi hsize
    rw [Buffer.load_of_lt (by omega)]
    exact Buffer.store_of_lt (by omega) _
  rcases writeLoop_spec dst.val hlimit hbody with ⟨b', hrun, hsize, hget⟩
  refine ⟨⟨b'⟩, ?_, hsize, fun i => ?_⟩
  · rw [complement, if_neg (by omega), hrun]
    rfl
  · rw [bit, bitOf, hget]
    by_cases hi : i < 64 * min dst.val.size src.val.size
    · rw [if_pos (by omega), if_pos hi, BitVec.getLsbD_not,
        decide_eq_true (Nat.mod_lt i (by decide)), Bool.true_and]
      rfl
    · rw [if_neg (by omega), if_neg hi]
      rfl

theorem complement_size {dst' : Kbitmap} (h : dst.complement src = some (err, dst')) :
    dst'.val.size = dst.val.size := by
  by_cases hnone : dst.val.size < 1 ∨ src.val.size < 1
  · rw [complement, if_pos hnone] at h
    cases h
    rfl
  · by_cases hlimit : min dst.val.size src.val.size < intLimit
    · rcases complement_spec (by omega) (by omega) hlimit with ⟨d, hrun, hsize, -⟩
      rw [hrun] at h
      cases h
      exact hsize
    · rw [complement, if_neg hnone, forLoop_overflow (by decide) (by omega)] at h
      cases h

theorem change_size {op : BitVec 64 → BitVec 64 → BitVec 64} {v : Bool} (hop : Writes op v)
    {start len : BitVec 32} {bm' : Kbitmap} (hlen : 0 ≤ len.toInt)
    (hin : start.toNat + len.toInt ≤ 64 * bm.val.size)
    (h : change op bm start len = some (err, bm')) : bm'.val.size = bm.val.size := by
  by_cases href : bm.Refused start len
  · rw [change, if_pos href] at h
    cases h
    rfl
  · rcases change_spec hop href hlen hin with ⟨b, hrun, hsize, -⟩
    rw [hrun] at h
    cases h
    exact hsize

end Sizes

/-! ## Capacities -/

section Capacity
variable {cap : BitVec 64} {w w' : List Kbitmap} {bm : Kbitmap}

/-- `BITS_TO_WORDS` of the capacity. -/
def words (cap : BitVec 64) : ℕ := (cap + 64 - 1).toNat / 64

/-- A bitmap has room for its capacity, unless the number of words wraps. -/
theorem le_words (h : cap.toNat ≤ 2 ^ 64 - 64) : words cap = (cap.toNat + 63) / 64 := by
  have hsum : (cap + 64 - 1).toNat = cap.toNat + 63 := by bv_omega
  rw [words, hsum]

theorem words_wrapped (h : 2 ^ 64 - 64 < cap.toNat) : words cap = 0 := by
  have hsum : (cap + 64 - 1).toNat < 64 := by bv_omega
  exact Nat.div_eq_of_lt hsum

/-- **One step.**  Every bitmap has the number of words of the capacity. -/
theorem step_size (hcap : cap.toNat ≤ 2 ^ 64 - 64) {a : Action} {err : Kerr}
    (h : ∀ bm ∈ w, bm.val.size = words cap) (ha : Inside cap w a)
    (hstep : step cap w a = some (err, w')) : ∀ bm ∈ w', bm.val.size = words cap := by
  have hroom : cap.toNat ≤ 64 * words cap := by
    rw [le_words hcap]
    omega
  have hset : ∀ {k bm bm'}, w[k]? = some bm → bm'.val.size = bm.val.size →
      ∀ b ∈ w.set k bm', b.val.size = words cap := by
    intro k bm bm' hk hsize b hb
    rcases List.mem_or_eq_of_mem_set hb with hb | rfl
    · exact h b hb
    · exact hsize.trans (h bm (List.mem_of_getElem? hk))
  cases a with
  | create mem =>
      cases mem with
      | none =>
          cases hstep
          exact h
      | some val =>
          cases hstep
          intro b hb
          rcases List.mem_append.mp hb with hb | hb
          · exact h b hb
          · rw [List.mem_singleton.mp hb]
            rfl
  | set k start len =>
      simp only [step, Option.bind_eq_bind, Option.bind_eq_some_iff] at hstep
      rcases hstep with ⟨bm, hk, ⟨e, bm'⟩, hrun, hw⟩
      cases hw
      refine hset hk (change_size writes_or ha.1 ?_ hrun)
      rw [h bm (List.mem_of_getElem? hk)]
      exact ha.2.trans (by exact_mod_cast hroom)
  | clear k start len =>
      simp only [step, Option.bind_eq_bind, Option.bind_eq_some_iff] at hstep
      rcases hstep with ⟨bm, hk, ⟨e, bm'⟩, hrun, hw⟩
      cases hw
      refine hset hk (change_size writes_andNot ha.1 ?_ hrun)
      rw [h bm (List.mem_of_getElem? hk)]
      exact ha.2.trans (by exact_mod_cast hroom)
  | complement k j =>
      simp only [step, Option.bind_eq_bind, Option.bind_eq_some_iff] at hstep
      rcases hstep with ⟨dst, hk, src, -, ⟨e, dst'⟩, hrun, hw⟩
      cases hw
      exact hset hk (complement_size hrun)

theorem size_of_reached (hcap : cap.toNat ≤ 2 ^ 64 - 64) (h : Reached cap bm) :
    bm.val.size = words cap := by
  rcases h with ⟨tr, w, hrun, hmem⟩
  have hinv := hrun.invariant (I := fun w => ∀ bm ∈ w, bm.val.size = words cap)
    (fun bm hbm => absurd hbm List.not_mem_nil)
    fun w a err w' hw ha hstep => step_size hcap hw ha hstep
  exact hinv bm hmem

/-- The allocator decides what a new bitmap holds. -/
theorem reached_create (cap : BitVec 64) (val : ℕ → BitVec 64) :
    Reached cap ⟨⟨words cap, val⟩⟩ := by
  have hstep : step cap [] (.create (some val)) = some (.ok, [⟨⟨words cap, val⟩⟩]) := rfl
  have hin : Inside cap [] (.create (some val)) := trivial
  exact ⟨_, _, .snoc .nil hin hstep, List.mem_singleton_self _⟩

/-- A bitmap without bits behind its capacity. -/
theorem faithful_of_size (hsize : 64 * bm.val.size = cap.toNat) (hlimit : bm.val.size < 2 ^ 31) :
    Faithful cap bm := by
  have hbits : ∀ v, (∀ i, i < cap.toNat → bm.bitAt i = v) ↔
      ∀ i, i < 64 * bm.val.size → bm.bit i = v := by
    intro v
    rw [hsize]
    refine forall_congr' fun i => imp_congr_right fun hi => ?_
    rw [bitAt_of_lt (by omega)]
  constructor
  · rw [hbits]
    by_cases h : ∀ i, i < 64 * bm.val.size → bm.bit i = true
    · exact ⟨true, isFull_eq_true_iff.mpr ⟨hlimit, h⟩, iff_of_true rfl h⟩
    · refine ⟨false, isFull_eq_false_iff.mpr ?_, iff_of_false Bool.false_ne_true h⟩
      rcases not_forall.mp h with ⟨i, hi⟩
      rw [Classical.not_imp] at hi
      exact ⟨i, hi.1, by omega, hi.2⟩
  · rw [hbits]
    by_cases h : ∀ i, i < 64 * bm.val.size → bm.bit i = false
    · exact ⟨true, isEmpty_eq_true_iff.mpr ⟨hlimit, h⟩, iff_of_true rfl h⟩
    · refine ⟨false, isEmpty_eq_false_iff.mpr ?_, iff_of_false Bool.false_ne_true h⟩
      rcases not_forall.mp h with ⟨i, hi⟩
      rw [Classical.not_imp] at hi
      exact ⟨i, hi.1, by omega, hi.2⟩

/-- The bits behind a capacity that does not end with a word, -/
def padding (cap : BitVec 64) (j : ℕ) : BitVec 64 :=
  if j = cap.toNat / 64 then BitVec.allOnes 64 <<< (cap.toNat % 64) else 0#64

/-- left there by the allocator. -/
theorem not_faithful_padding (h : cap.toNat ≤ 2 ^ 64 - 64) (hdvd : ¬ 64 ∣ cap.toNat) :
    ¬ Faithful cap ⟨⟨words cap, padding cap⟩⟩ := by
  have hmod : cap.toNat % 64 ≠ 0 := fun hmod => hdvd (Nat.dvd_of_mod_eq_zero hmod)
  have hwords : words cap = cap.toNat / 64 + 1 := by
    rw [le_words h]
    omega
  have hzero : ∀ i, i < cap.toNat → bitAt ⟨⟨words cap, padding cap⟩⟩ i = false := by
    intro i hi
    rw [bitAt_of_lt (by rw [hwords]; change i < 64 * (_ + 1); omega), bit, bitOf]
    change (padding cap (i / 64)).getLsbD (i % 64) = false
    rw [padding]
    split
    · next hlast =>
        rw [BitVec.getLsbD_shiftLeft, decide_eq_true (p := i % 64 < cap.toNat % 64) (by omega)]
        simp
    · exact BitVec.getLsbD_zero
  rintro ⟨-, r, hr, hiff⟩
  rw [hiff.mpr hzero] at hr
  have hbit := (isEmpty_eq_true_iff.mp hr).2 cap.toNat (by
    change cap.toNat < 64 * words cap
    omega)
  change (padding cap (cap.toNat / 64)).getLsbD (cap.toNat % 64) = false at hbit
  rw [padding, if_pos rfl, BitVec.getLsbD_shiftLeft, Nat.sub_self] at hbit
  have hlt : cap.toNat % 64 < 64 := Nat.mod_lt _ (by decide)
  simp [hlt] at hbit

end Capacity

/-- **The capacities for which full and empty speak of the bits up to the capacity**, in every
bitmap that can be reached. -/
theorem faithful_iff (cap : BitVec 64) (hcap : 1 ≤ cap.toNat) :
    (∀ bm, Reached cap bm → Faithful cap bm) ↔ 64 ∣ cap.toNat ∧ cap.toNat < 2 ^ 37 := by
  constructor
  · intro h
    by_cases hwrap : cap.toNat ≤ 2 ^ 64 - 64
    · have hdvd : 64 ∣ cap.toNat := by
        by_contra hdvd
        exact not_faithful_padding hwrap hdvd (h _ (reached_create cap (padding cap)))
      refine ⟨hdvd, Nat.lt_of_not_le fun hlarge => ?_⟩
      -- the words of an empty bitmap are counted to the end
      rcases (h _ (reached_create cap fun _ => 0)).empty with ⟨r, hr, hiff⟩
      have hzero : ∀ i, bitAt ⟨⟨words cap, fun _ => 0⟩⟩ i = false :=
        forall_bitAt_iff.mpr fun i _ => BitVec.getLsbD_zero
      rw [hiff.mpr fun i _ => hzero i] at hr
      have hlimit : words cap < 2 ^ 31 := (isEmpty_eq_true_iff.mp hr).1
      rw [le_words hwrap] at hlimit
      omega
    · rcases (h _ (reached_create cap fun _ => 0)).full with ⟨r, hr, hiff⟩
      have hnone : words cap = 0 := words_wrapped (by omega)
      have hfull : isFull ⟨⟨words cap, fun _ => 0⟩⟩ = some true := by
        rw [hnone]
        rfl
      rw [hfull] at hr
      cases hr
      have hbit := hiff.mp rfl 0 hcap
      have hend : 64 * words cap ≤ 0 := by rw [hnone]
      rw [bitAt_of_ge hend] at hbit
      cases hbit
  · rintro ⟨hdvd, hlt⟩ bm hbm
    have hsize := size_of_reached (by omega) hbm
    rw [le_words (by omega)] at hsize
    exact faithful_of_size (by omega) (by omega)

/-- A bitmap of one word, in memory that was clear. -/
theorem faithful_iff_word : Reached 64 ⟨⟨1, fun _ => 0⟩⟩ ∧ Faithful 64 ⟨⟨1, fun _ => 0⟩⟩ :=
  have hnew : Reached 64 ⟨⟨1, fun _ => 0⟩⟩ := reached_create 64 fun _ => 0
  ⟨hnew, (faithful_iff 64 (by decide)).mpr (by decide) _ hnew⟩

/-- With a capacity of ten bits, all of them set in memory that was clear. -/
theorem not_faithful_ten : ∃ bm, Reached 10 bm ∧ (∀ i, i < 10 → bm.bitAt i = true) ∧
    isFull bm = some false ∧ ¬ Faithful 10 bm := by
  have hrun : ∃ tr w, Run (step 10) (Inside 10) [] tr w ∧ ∃ bm, w = [bm] ∧
      (∀ i, i < 10 → bm.bitAt i = true) ∧ isFull bm = some false :=
    ⟨_, _, run_of_runList [.create (some fun _ => 0), .set 0 0 10] rfl (by
      intro e he
      rcases List.mem_pair.mp he with rfl | rfl
      · trivial
      · exact ⟨by decide, by decide⟩), _, rfl, by decide, by decide⟩
  rcases hrun with ⟨tr, w, hrun, bm, rfl, hbits, hfull⟩
  refine ⟨bm, ⟨tr, [bm], hrun, List.mem_singleton_self bm⟩, hbits, hfull, ?_⟩
  rintro ⟨⟨r, hr, hiff⟩, -⟩
  rw [hfull] at hr
  cases hr
  exact Bool.false_ne_true (hiff.mpr hbits)

end Kylin.Kbitmap
