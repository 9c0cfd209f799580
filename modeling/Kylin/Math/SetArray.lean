import Kylin.Arch.Word
import Kylin.Lib.BufferLoop
import Kylin.Math.Set

/-!
# Sets in their array

`kset_t` as it is in memory: an array of `cap` unions with the number of those in use.  An
ordered insertion exchanges the new element with every one from its place on and stores the
last behind them; a removal exchanges the element with its neighbours until it is the last.

## Main definitions

* `KsetArray`, `create`, `insert`, `removeByIndex`, `remove`, `first`, `last`, `next` — the set and
  its functions.
* `KsetArray.step` — one call.
* `KsetArray.slots` — the elements.

## Main results

* `insert_cases`, `remove_cases` — what a call can do to the elements.
* `insert_toKset`, `remove_toKset`, `removeByIndex_toKset` — the functions on the array are
  those on lists.
-/

namespace Kylin

open Lib

/-- `kset_t`. -/
structure KsetArray (α : Type) where
  opts : KsetOpts α
  used : ℕ
  val : Buffer (KmathVal α)

namespace KsetArray
variable {α : Type}

/-- `sizeof(kset_t)`. -/
def sizeofKset : ℕ := 88

/-- `kylin_set_create`, with memory; `none` when the size of the block has wrapped, so that
`memcpy` or `memset` writes behind it. -/
def create (opts : KsetOpts α) : Option (KsetArray α) :=
  let slots := 8 * opts.cap % 2 ^ 64 / 8
  if 2 ^ 64 ≤ sizeofKset + 8 * slots then none else some ⟨opts, 0, ⟨slots, fun _ => .zero⟩⟩

/-- What `compare` finds at the address of a union: the integer in it, or for an address that
is read as an object of the set's type whatever this makes. -/
def address (seen : Option (Cell α)) : KmathVal α → Option (Cell α)
  | .word w => some (.int w)
  | .v _ => seen

/-- Whether `compare` puts `x`, of which it sees the address, before the slot `i`. -/
def isBefore (set : KsetArray α) (x : KmathVal α) (seen : Option (Cell α)) (i : ℕ) :
    Option Bool :=
  match set.opts.compare with
  | none => some false
  | some cmp => do
      let a ← address seen x
      let b ← Kset.contents set.opts (← set.val.load i)
      some (decide (cmp a b < 0))

/-- The exchanges of `kylin_set_insert` from the place `i` on, and the store behind them. -/
def shift (set : KsetArray α) (x : KmathVal α) (i : ℕ) : Option (KsetArray α) := do
  let (x, b) ← forLoop intLimit swapTurn (set.used - i) i (x, set.val)
  let b ← b.store set.used x
  some { set with used := set.used + 1, val := b }

/-- `kylin_set_insert`. -/
def insert (set : KsetArray α) (v : KPtr α) (seen : Option (Cell α)) :
    Option (Kerr × KsetArray α) :=
  if set.used = set.opts.cap then some (.inval, set)
  else do
    let x ← kmathValCtor v set.opts.valType set.opts.ctor
    let place ←
      (if set.opts.isOrder then findLoop intLimit (set.isBefore x seen) set.used 0 else some none)
    let set ← set.shift x (place.getD set.used)
    some (.ok, set)

/-- `kylin_set_remove_by_index`.  An `index` from `2 ^ 31` on is negative as an `int`, and greater
than any `size_t` it is compared with. -/
def removeByIndex (set : KsetArray α) (index : ℕ) : Option (Kerr × KsetArray α) :=
  let turns := if index < intLimit then set.used - 1 - index else 0
  if set.used ≤ index then some (.inval, set)
  else do
    let b ← forLoop intLimit bubbleTurn turns index set.val
    some (.ok, { set with used := set.used - 1, val := b })

/-- Whether what `key` points to compares equal to the slot `i`. -/
def isEqual (set : KsetArray α) (key : KPtr α) (i : ℕ) : Option Bool :=
  match set.opts.compare with
  | none => some false
  | some cmp => do
      let a ← key.deref
      let b ← Kset.contents set.opts (← set.val.load i)
      some (decide (cmp a b = 0))

/-- `kylin_set_remove`. -/
def remove (set : KsetArray α) (key : KPtr α) : Option (Kerr × KsetArray α) := do
  match ← findLoop intLimit (set.isEqual key) set.used 0 with
  | none => some (.noent, set)
  | some i => set.removeByIndex i

/-- `kmath_val_get(&guard->val[i], guard->opts.val_type)`. -/
def get (set : KsetArray α) (i : ℕ) : Option (KPtr α) :=
  (set.val.load i).map fun x => kmathValGet x set.opts.valType

/-- `kylin_set_first`. -/
def first (set : KsetArray α) : Option (KPtr α) := set.get 0

/-- `kylin_set_last`. -/
def last (set : KsetArray α) : Option (KPtr α) := set.get (sizeSub set.used 1)

/-- `kylin_set_next`. -/
def next (set : KsetArray α) (key : KPtr α) : Option (KPtr α) := do
  match ← findLoop intLimit (set.isEqual key) set.used 0 with
  | none => some .null
  | some i => if i < set.used - 1 then set.get (i + 1) else some .null

/-- A call; `seen` is what `compare` makes of the address of a pointer. -/
inductive Action (α : Type)
  | insert (v : KPtr α) (seen : Option (Cell α))
  | remove (key : KPtr α)
  | removeByIndex (index : BitVec 32)

/-- The call. -/
def step (set : KsetArray α) : Action α → Option (Kerr × KsetArray α)
  | .insert v seen => set.insert v seen
  | .remove key => set.remove key
  | .removeByIndex index => set.removeByIndex index.toNat

/-- The elements, in the order of the array. -/
def slots (set : KsetArray α) : List (KmathVal α) := slice set.val.get 0 set.used

@[simp] theorem length_slots (set : KsetArray α) : set.slots.length = set.used :=
  length_slice _ _ _

/-! ## One call -/

section Calls
variable {set set' : KsetArray α} {x : KmathVal α}

theorem shiftLoop_spec (x : KmathVal α) {i : ℕ} (hi : i ≤ set.used)
    (hin : set.used ≤ set.val.size) (hlimit : set.used < intLimit ∨ i = set.used) :
    ∃ y b', forLoop intLimit swapTurn (set.used - i) i (x, set.val) = some (y, b') ∧
      b'.size = set.val.size ∧ slice b'.get 0 set.used ++ [y] = set.slots.insertIdx i x ∧
      ∀ m, set.used ≤ m → b'.get m = set.val.get m := by
  have hend : i + (set.used - i) = set.used := by omega
  rcases hlimit with hlimit | rfl
  · have hcount : i + (set.used - i) < intLimit := by omega
    have h := swapLoop_spec i (set.used - i) set.val x hcount (by omega)
    rwa [hend] at h
  · rw [Nat.sub_self]
    refine ⟨x, set.val, rfl, rfl, ?_, fun _ _ => rfl⟩
    rw [← set.length_slots, List.insertIdx_length_self, set.length_slots]
    rfl

/-- There is no room behind the last slot. -/
theorem shift_full {i : ℕ} (hi : i ≤ set.used) (hlimit : set.used < intLimit ∨ i = set.used)
    (hfull : set.used = set.val.size) : set.shift x i = none := by
  rcases shiftLoop_spec x hi hfull.le hlimit with ⟨y, b', hrun, hsize, -⟩
  rw [shift, hrun, Option.bind_eq_bind, Option.bind_some]
  dsimp only
  rw [Buffer.store, if_neg (by omega)]
  rfl

/-- The exchanges of an insertion put the element at its place. -/
theorem shift_spec (x : KmathVal α) {i : ℕ} (hi : i ≤ set.used) (hroom : set.used < set.val.size)
    (hlimit : set.used < intLimit ∨ i = set.used) :
    ∃ set', set.shift x i = some set' ∧ set'.opts = set.opts ∧ set'.used = set.used + 1 ∧
      set'.val.size = set.val.size ∧ set'.slots = set.slots.insertIdx i x ∧
      ∀ m, set.used < m → set'.val.get m = set.val.get m := by
  rcases shiftLoop_spec x hi hroom.le hlimit with ⟨y, b', hrun, hsize, hslice, hrest⟩
  have hin : set.used < b'.size := by omega
  refine ⟨{ set with
    used := set.used + 1
    val := { b' with get := Function.update b'.get set.used y } }, ?_, rfl, rfl, hsize, ?_, ?_⟩
  · rw [shift, hrun, Option.bind_eq_bind, Option.bind_some]
    dsimp only
    rw [Buffer.store_of_lt hin]
    rfl
  · rw [slots]
    dsimp only
    rw [slice_succ, slice_update_of_le _ _ _ _ (by omega), Nat.zero_add, Function.update_self,
      hslice]
  · intro m hm
    dsimp only
    rw [Function.update_of_ne (by omega), hrest m hm.le]

/-- A removal by index erases the element. -/
theorem removeByIndex_spec {index : ℕ} (hindex : index < set.used) (hin : set.used ≤ set.val.size)
    (hlimit : set.used ≤ intLimit) :
    ∃ set', set.removeByIndex index = some (.ok, set') ∧ set'.opts = set.opts ∧
      set'.used + 1 = set.used ∧ set'.val.size = set.val.size ∧
      set'.slots = set.slots.eraseIdx index ∧ set'.val.get set'.used = set.val.get index ∧
      ∀ m, set.used ≤ m → set'.val.get m = set.val.get m := by
  have hend : index + (set.used - 1 - index) = set.used - 1 := by omega
  have hlast : set.used - 1 + 1 = set.used := by omega
  have hcount : index + (set.used - 1 - index) < intLimit := by omega
  have h := bubbleLoop_spec index (set.used - 1 - index) set.val hcount (by omega)
  rw [hend, hlast] at h
  rcases h with ⟨b', hrun, hsize, hslice, hthis, hrest⟩
  refine ⟨{ set with used := set.used - 1, val := b' }, ?_, rfl, hlast, hsize, hslice, hthis,
    fun m hm => hrest m (by omega)⟩
  rw [removeByIndex, if_neg (by omega), if_pos (by omega), hrun]
  rfl

/-- An insertion that returns is refused, or it puts the element somewhere. -/
theorem insert_cases (hin : set.used ≤ set.val.size) {v : KPtr α} {seen : Option (Cell α)}
    {err : Kerr} (h : set.insert v seen = some (err, set')) :
    set.used = set.opts.cap ∧ err = .inval ∧ set' = set ∨
      set.used ≠ set.opts.cap ∧ err = .ok ∧ set'.opts = set.opts ∧ set'.used = set.used + 1 ∧
        set'.val.size = set.val.size ∧ set'.used ≤ set'.val.size ∧
        (∀ m, set.used < m → set'.val.get m = set.val.get m) ∧
        ∃ x i, kmathValCtor v set.opts.valType set.opts.ctor = some x ∧
          i ≤ set.used ∧ set'.slots = set.slots.insertIdx i x := by
  rw [insert] at h
  by_cases hfull : set.used = set.opts.cap
  · rw [if_pos hfull] at h
    cases h
    exact Or.inl ⟨hfull, rfl, rfl⟩
  · rw [if_neg hfull] at h
    simp only [Option.bind_eq_bind, Option.bind_eq_some_iff] at h
    rcases h with ⟨x, hx, place, hplace, set₁, hshift, hset⟩
    cases hset
    -- the place is one of the elements, or behind them
    have hi : place.getD set.used = set.used ∨
        place.getD set.used < set.used ∧ place.getD set.used < intLimit := by
      cases place with
      | none => exact Or.inl rfl
      | some i =>
          rw [ite_eq_iff] at hplace
          rcases hplace with ⟨-, hfind⟩ | ⟨-, hnone⟩
          · rcases (findLoop_eq_some_iff (by decide)).mp hfind with ⟨-, hlt, hlim, -⟩
            exact Or.inr ⟨by rwa [Nat.zero_add] at hlt, hlim⟩
          · cases hnone
    have hle : place.getD set.used ≤ set.used := by omega
    have hlimit : set.used < intLimit ∨ place.getD set.used = set.used := by
      rcases hi with hi | ⟨hlt, hlim⟩
      · exact Or.inr hi
      · by_contra hnot
        rw [shift, forLoop_overflow hlim (by omega)] at hshift
        cases hshift
    have hroom : set.used < set.val.size := by
      by_contra hnot
      rw [shift_full hle hlimit (by omega)] at hshift
      cases hshift
    rcases shift_spec x hle hroom hlimit with ⟨s, hs, ho, hused, hsize, hslots, hrest⟩
    rw [hshift] at hs
    cases hs
    exact Or.inr ⟨hfull, rfl, ho, hused, hsize, by omega, hrest, x, _, hx, hle, hslots⟩

/-- A removal that returns finds nothing, or it erases an element. -/
theorem remove_cases (hin : set.used ≤ set.val.size) {key : KPtr α} {err : Kerr}
    (h : set.remove key = some (err, set')) :
    err = .noent ∧ set' = set ∨
      err = .ok ∧ set'.opts = set.opts ∧ set'.val.size = set.val.size ∧
        set'.used + 1 = set.used ∧ (∀ m, set.used ≤ m → set'.val.get m = set.val.get m) ∧
        ∃ i, i < set.used ∧ set'.slots = set.slots.eraseIdx i ∧
          set'.val.get set'.used = set.val.get i := by
  rw [remove, Option.bind_eq_bind, Option.bind_eq_some_iff] at h
  rcases h with ⟨place, hfind, h⟩
  cases place with
  | none =>
      cases h
      exact Or.inl ⟨rfl, rfl⟩
  | some i =>
      rcases (findLoop_eq_some_iff (by decide)).mp hfind with ⟨-, hlt, hlim, -⟩
      rw [Nat.zero_add] at hlt
      have hlimit : set.used ≤ intLimit := by
        by_contra hnot
        dsimp only at h
        rw [removeByIndex, if_neg (by omega), if_pos hlim, forLoop_overflow hlim (by omega)] at h
        cases h
      rcases removeByIndex_spec hlt hin hlimit
        with ⟨s, hs, ho, hused, hsize, hslots, hthis, hrest⟩
      dsimp only at h
      rw [hs] at h
      cases h
      exact Or.inr ⟨rfl, ho, hsize, hused, hrest, i, hlt, hslots, hthis⟩

end Calls

/-! ## Sets as lists -/

/-- The elements, and what is behind them. -/
def toKset (set : KsetArray α) : Kset α :=
  ⟨set.opts, set.slots, slice set.val.get set.used (set.val.size - set.used)⟩

/-- The array is as large as the capacity, and its slots can be counted. -/
structure Fits (set : KsetArray α) : Prop where
  size_eq : set.val.size = set.opts.cap
  used_le : set.used ≤ set.opts.cap
  cap_lt : set.opts.cap < 2 ^ 31

section Lists
variable {set : KsetArray α} {x : KmathVal α} {seen : Option (Cell α)} {key : KPtr α}

theorem used_toKset (set : KsetArray α) : set.toKset.used = set.used := set.length_slots

/-- The outer loop of an insertion finds the place. -/
theorem place_eq (haddr : address seen x = Kset.address x) (i left : ℕ)
    (hin : i + left ≤ set.val.size) (hlimit : i + left < intLimit) :
    Kset.place set.opts x (slice set.val.get i left) =
      (findLoop intLimit (set.isBefore x seen) left i).map fun r =>
        (slice set.val.get i left).insertIdx (r.getD (i + left) - i) x := by
  induction left generalizing i with
  | zero =>
      change some [x] = some (([] : List (KmathVal α)).insertIdx (i - i) x)
      rw [Nat.sub_self]
      rfl
  | succ left ih =>
      have hrest : (findLoop intLimit (set.isBefore x seen) left (i + 1)).map (fun r =>
            (set.val.get i :: slice set.val.get (i + 1) left).insertIdx
              (r.getD (i + (left + 1)) - i) x) =
          (Kset.place set.opts x (slice set.val.get (i + 1) left)).map (set.val.get i :: ·) := by
        rw [ih (i + 1) (by omega) (by omega), Option.map_map]
        cases hfind : findLoop intLimit (set.isBefore x seen) left (i + 1) with
        | none => rfl
        | some r =>
            -- the place is a later one
            have hlater : i + 1 ≤ r.getD (i + (left + 1)) ∧
                r.getD (i + (left + 1)) = r.getD (i + 1 + left) := by
              cases r with
              | none =>
                  dsimp only [Option.getD_none]
                  omega
              | some k => exact ⟨((findLoop_eq_some_iff (by omega)).mp hfind).1, rfl⟩
            obtain ⟨m, hm⟩ := Nat.exists_eq_add_of_le hlater.1
            have hsub : i + 1 + m - i = m + 1 := by omega
            rw [Option.map_some, Option.map_some, Function.comp_apply, ← hlater.2, hm, hsub,
              List.insertIdx_succ_cons, Nat.add_sub_cancel_left]
      have hload : set.val.load i = some (set.val.get i) := Buffer.load_of_lt (by omega)
      rw [slice_cons, Kset.place, findLoop_succ, isBefore]
      cases hcmp : set.opts.compare with
      | none =>
          rw [Option.bind_some, if_neg Bool.false_ne_true, if_pos (by omega)]
          exact hrest.symm
      | some cmp =>
          rw [hload, haddr]
          dsimp only
          cases Kset.address x with
          | none => rfl
          | some a =>
              cases hc : Kset.contents set.opts (set.val.get i) with
              | none =>
                  simp [hc]
              | some c =>
                  simp only [Option.bind_eq_bind, Option.bind_some, hc]
                  by_cases hlt : cmp a c < 0
                  · rw [if_pos hlt, decide_eq_true hlt, if_pos rfl]
                    simp
                  · rw [if_neg hlt, decide_eq_false hlt, if_neg Bool.false_ne_true,
                      if_pos (by omega)]
                    exact hrest.symm

theorem search_of_none {opts : KsetOpts α} (hcmp : opts.compare = none)
    (l : List (KmathVal α)) : Kset.search opts key l = some none := by
  induction l with
  | nil => rfl
  | cons y l ih => rw [Kset.search, hcmp, ih]

/-- The loop of a removal finds the element. -/
theorem search_eq (i left : ℕ) (hin : i + left ≤ set.val.size) (hlimit : i + left < intLimit) :
    Kset.search set.opts key (slice set.val.get i left) =
      (findLoop intLimit (set.isEqual key) left i).map (Option.map (· - i)) := by
  induction left generalizing i with
  | zero => rfl
  | succ left ih =>
      have hrest : (findLoop intLimit (set.isEqual key) left (i + 1)).map (Option.map (· - i)) =
          (Kset.search set.opts key (slice set.val.get (i + 1) left)).map
            (Option.map (· + 1)) := by
        rw [ih (i + 1) (by omega) (by omega), Option.map_map]
        cases hfind : findLoop intLimit (set.isEqual key) left (i + 1) with
        | none => rfl
        | some r =>
            cases r with
            | none => rfl
            | some k =>
                have hk : i + 1 ≤ k := ((findLoop_eq_some_iff (by omega)).mp hfind).1
                have hsub : k - i = k - (i + 1) + 1 := by omega
                simp [hsub]
      have hload : set.val.load i = some (set.val.get i) := Buffer.load_of_lt (by omega)
      rw [slice_cons, Kset.search, findLoop_succ, isEqual]
      cases hcmp : set.opts.compare with
      | none =>
          rw [search_of_none hcmp] at hrest
          rw [Option.bind_some, if_neg Bool.false_ne_true, if_pos (by omega), hrest]
          exact search_of_none hcmp _
      | some cmp =>
          rw [hload]
          dsimp only
          cases key.deref with
          | none => rfl
          | some a =>
              cases hc : Kset.contents set.opts (set.val.get i) with
              | none => simp [hc]
              | some c =>
                  simp only [Option.bind_eq_bind, Option.bind_some, hc]
                  by_cases heq : cmp a c = 0
                  · rw [if_pos heq, decide_eq_true heq, if_pos rfl]
                    simp
                  · rw [if_neg heq, decide_eq_false heq, if_neg Bool.false_ne_true,
                      if_pos (by omega)]
                    exact hrest.symm

theorem kset_insert_of_ne (set : Kset α) (h : set.used ≠ set.opts.cap) {v : KPtr α}
    (hx : kmathValCtor v set.opts.valType set.opts.ctor = some x) :
    set.insert v =
      (if set.opts.isOrder then Kset.place set.opts x set.val else some (set.val ++ [x])).map
        fun val => (.ok, { set with val := val, rest := set.rest.tail }) := by
  rw [Kset.insert, if_neg h, hx]
  cases set.opts.isOrder with
  | false => rfl
  | true => exact (Option.map_eq_bind ..).symm

/-- **An insertion into the array** is one into the list. -/
theorem insert_toKset (H : set.Fits) (v : KPtr α) (haddr : ∀ x,
    kmathValCtor v set.opts.valType set.opts.ctor = some x → address seen x = Kset.address x) :
    (set.insert v seen).map (fun r => (r.1, r.2.toKset)) = set.toKset.insert v := by
  have hsize := H.size_eq
  have hused := H.used_le
  have hcap : set.opts.cap < intLimit := H.cap_lt
  by_cases hfull : set.used = set.opts.cap
  · rw [insert, if_pos hfull, Kset.insert_full ((used_toKset set).trans hfull)]
    rfl
  · have hne : set.toKset.used ≠ set.toKset.opts.cap := by
      rw [used_toKset]
      exact hfull
    have htail : (slice set.val.get set.used (set.val.size - set.used)).tail =
        slice set.val.get (set.used + 1) (set.val.size - (set.used + 1)) := by
      rw [← List.drop_one, drop_slice _ _ _ (by omega)]
      rfl
    -- the exchanges put the element where the list has it
    have hshift : ∀ x i, i ≤ set.used → (set.shift x i).map toKset = some { set.toKset with
        val := set.slots.insertIdx i x, rest := set.toKset.rest.tail } := by
      intro x i hi
      rcases shift_spec x hi (by omega) (Or.inl (by omega))
        with ⟨s, hs, ho, hu, hsz, hslots, hrest⟩
      rw [hs, Option.map_some, toKset, hslots, ho, hu, hsz, toKset, htail]
      congr 2
      apply slice_congr
      intro j hj
      exact hrest _ (by omega)
    cases hx : kmathValCtor v set.opts.valType set.opts.ctor with
    | none =>
        rw [insert, if_neg hfull, hx, Kset.insert, if_neg hne]
        rw [show kmathValCtor v set.toKset.opts.valType set.toKset.opts.ctor = none from hx]
        rfl
    | some x =>
        have hshift' : ∀ i, i ≤ set.used →
            ((set.shift x i).bind fun s => some (Kerr.ok, s)).map (fun r => (r.1, r.2.toKset)) =
              some (.ok, { set.toKset with
                val := set.slots.insertIdx i x, rest := set.toKset.rest.tail }) := by
          intro i hi
          rcases Option.map_eq_some_iff.mp (hshift x i hi) with ⟨s, hs, hto⟩
          rw [hs, Option.bind_some, Option.map_some, hto]
        rw [insert, if_neg hfull, hx, kset_insert_of_ne _ hne hx, Option.bind_eq_bind,
          Option.bind_some, Option.bind_eq_bind]
        cases horder : set.opts.isOrder with
        | false =>
            have hs := hshift' set.used le_rfl
            rw [← set.length_slots, List.insertIdx_length_self, set.length_slots] at hs
            have horder' : set.toKset.opts.isOrder = false := horder
            rw [horder', if_neg Bool.false_ne_true, if_neg Bool.false_ne_true, Option.bind_some]
            exact hs
        | true =>
            have hin : 0 + set.used ≤ set.val.size := by omega
            have hplace := place_eq (haddr x hx) 0 set.used hin (by omega)
            rw [if_pos (show set.toKset.opts.isOrder = true from horder), if_pos rfl]
            change _ = (Kset.place set.opts x (slice set.val.get 0 set.used)).map _
            rw [hplace]
            cases hfind : findLoop intLimit (set.isBefore x seen) set.used 0 with
            | none => rfl
            | some r =>
                have hle : r.getD set.used ≤ set.used := by
                  cases r with
                  | none => exact le_rfl
                  | some k =>
                      have hlt := ((findLoop_eq_some_iff (by decide)).mp hfind).2.1
                      exact (Nat.zero_add set.used ▸ hlt).le
                rw [Option.bind_some, Option.bind_eq_bind]
                have hs := hshift' _ hle
                rw [hs, Option.map_some, Option.map_some, Nat.zero_add, Nat.sub_zero]
                rfl

theorem removeByIndex_toKset (H : set.Fits) (index : ℕ) :
    (set.removeByIndex index).map (fun r => (r.1, r.2.toKset)) =
      some (set.toKset.removeByIndex index) := by
  have hsize := H.size_eq
  have hused := H.used_le
  have hcap : set.opts.cap < intLimit := H.cap_lt
  by_cases hindex : index < set.used
  · have hget : set.toKset.val[index]? = some (set.val.get index) := by
      change (slice set.val.get 0 set.used)[index]? = _
      rw [List.getElem?_eq_getElem (by rwa [length_slice]), getElem_slice, Nat.zero_add]
    rcases removeByIndex_spec hindex (by omega) (by omega)
      with ⟨s, hs, ho, hu, hsz, hslots, hthis, hrest⟩
    rw [hs, Kset.removeByIndex, hget, Option.map_some]
    dsimp only
    rw [toKset, ho, hslots, hsz]
    have hlen : set.val.size - s.used = set.val.size - set.used + 1 := by omega
    rw [hlen, slice_cons, hthis, hu]
    congr 3
    apply congrArg
    apply slice_congr
    intro j hj
    exact hrest _ (by omega)
  · have hget : set.toKset.val[index]? = none := by
      apply List.getElem?_eq_none
      rw [show set.toKset.val.length = set.used from set.length_slots]
      omega
    rw [removeByIndex, if_pos (by omega), Kset.removeByIndex, hget]
    rfl

theorem remove_toKset (H : set.Fits) (key : KPtr α) :
    (set.remove key).map (fun r => (r.1, r.2.toKset)) = set.toKset.remove key := by
  have hsize := H.size_eq
  have hused := H.used_le
  have hcap : set.opts.cap < intLimit := H.cap_lt
  have hsearch : Kset.search set.toKset.opts key set.toKset.val = _ :=
    search_eq 0 set.used (by omega) (by omega)
  rw [remove, Kset.remove, hsearch]
  cases findLoop intLimit (set.isEqual key) set.used 0 with
  | none => rfl
  | some r =>
      cases r with
      | none => rfl
      | some i => exact removeByIndex_toKset H i

end Lists

/-- Sets of two `int64_t`s in ascending order. -/
def ints : KsetOpts Unit :=
  ⟨true, 2, .int64, some fun a b =>
    match a, b with
    | .int x, .int y => x.toInt - y.toInt
    | _, _ => 0, false⟩

end KsetArray

end Kylin
