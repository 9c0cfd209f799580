import Kylin.Arch.Word
import Kylin.Lib.Refind
import Kylin.Math.Val
import Mathlib.Data.List.InsertIdx

/-!
# Sets

`kset_t` (`lib/core/math/kylin_set.c`) is an array of elements with a capacity.  It is
split here at `used`: `val` are the slots below it and `rest` the others, which keep what
was last stored in them.  An element is looked for with the callback `compare`; nothing
keeps equal elements apart.

`Holds` says what a set of any type stands for, and every operation on an unordered set
has one lemma that says what it does to that list.

## Main definitions

* `KsetOpts`, `Kset` and `create`, `insert`, `remove`, `removeByIndex`, `find`, `foreach`.
* `Kset.Holds` — the contents of a set.

## Main results

* `Holds.insert`, `Holds.search`, `Holds.remove` — the operations on contents.
-/

namespace Kylin

/-- `kset_opts_t`; `ctor` is whether there is a value constructor. -/
structure KsetOpts (α : Type) where
  isOrder : Bool
  cap : ℕ
  valType : Kobj
  compare : Option (Cell α → Cell α → ℤ)
  ctor : Bool

/-- `kset_t`. -/
structure Kset (α : Type) where
  opts : KsetOpts α
  val : List (KmathVal α)
  rest : List (KmathVal α)

namespace Kset

open Lib

variable {α : Type}

/-- `kylin_set_create`. -/
def create (opts : KsetOpts α) : Kset α := ⟨opts, [], List.replicate opts.cap .zero⟩

/-- The field `used`. -/
def used (set : Kset α) : ℕ := set.val.length

/-- `kmath_val_get` on a slot, and what is there. -/
def contents (opts : KsetOpts α) (x : KmathVal α) : Option (Cell α) :=
  (kmathValGet x opts.valType).deref

/-- What the address of a `kmath_val_t` points to: an integer in place.  A union that holds
an address is not an object of the set's type. -/
def address : KmathVal α → Option (Cell α)
  | .word w => some (.int w)
  | .v _ => none

/-- The loop of `kylin_set_insert` for ordered sets: the new element goes before the first
one that is greater, and the others move up. -/
def place (opts : KsetOpts α) (x : KmathVal α) : List (KmathVal α) → Option (List (KmathVal α))
  | [] => some [x]
  | y :: ys =>
      match opts.compare with
      | none => (place opts x ys).map (y :: ·)
      | some cmp => do
          if cmp (← address x) (← contents opts y) < 0 then some (x :: y :: ys)
          else (place opts x ys).map (y :: ·)

/-- `kylin_set_insert`. -/
def insert (set : Kset α) (v : KPtr α) : Option (Kerr × Kset α) :=
  if set.used = set.opts.cap then some (.inval, set)
  else do
    let x ← kmathValCtor v set.opts.valType set.opts.ctor
    let val ← if set.opts.isOrder then place set.opts x set.val else some (set.val ++ [x])
    some (.ok, { set with val := val, rest := set.rest.tail })

/-- The loop of `kylin_set_remove` and `kylin_set_find`: the first slot that compares equal
to what `key` points to. -/
def search (opts : KsetOpts α) (key : KPtr α) : List (KmathVal α) → Option (Option ℕ)
  | [] => some none
  | y :: ys =>
      match opts.compare with
      | none => search opts key ys
      | some cmp => do
          if cmp (← key.deref) (← contents opts y) = 0 then some (some 0)
          else (search opts key ys).map (Option.map (· + 1))

/-- `kylin_set_remove_by_index`: the element moves behind the others. -/
def removeByIndex (set : Kset α) (index : ℕ) : Kerr × Kset α :=
  match set.val[index]? with
  | none => (.inval, set)
  | some x => (.ok, { set with val := set.val.eraseIdx index, rest := x :: set.rest })

/-- `kylin_set_remove`. -/
def remove (set : Kset α) (key : KPtr α) : Option (Kerr × Kset α) := do
  match ← search set.opts key set.val with
  | none => some (.noent, set)
  | some i => some (set.removeByIndex i)

/-- `kylin_set_find`, as the slot that it returns a pointer from. -/
def find (set : Kset α) (key : KPtr α) : Option (Option ℕ) := search set.opts key set.val

/-- `kylin_set_last`; `none` when the slot is not one that is used. -/
def last (set : Kset α) : Option (KPtr α) :=
  set.val[sizeSub set.used 1]?.map fun x => kmathValGet x set.opts.valType

/-- `kylin_set_first`: a slot, whether it is used or not. -/
def first (set : Kset α) : Option (KPtr α) :=
  (set.val ++ set.rest)[0]?.map fun x => kmathValGet x set.opts.valType

/-- `kylin_set_find_by_index`, or `NULL` behind the last element. -/
def element (set : Kset α) (i : ℕ) : KPtr α :=
  (set.val[i]?.map fun x => kmathValGet x set.opts.valType).getD .null

/-- `kylin_set_next`. -/
def next (set : Kset α) (key : KPtr α) : Option (KPtr α) := do
  match ← search set.opts key set.val with
  | none => some .null
  | some i => some (set.element (i + 1))

/-- The turns of `KYLIN_SET_FOREACH` from an element on, as what the elements point to. -/
def turns (set : Kset α) : ℕ → KPtr α → Option (List (Cell α))
  | _, .null => some []
  | 0, _ => none
  | fuel + 1, val => do
      let c ← val.deref
      let cs ← turns set fuel (← set.next val)
      some (c :: cs)

/-- `KYLIN_SET_FOREACH`. -/
def foreach (set : Kset α) (fuel : ℕ) : Option (List (Cell α)) := do
  set.turns fuel (← set.first)

/-- A write to the element in a slot, through the pointer that `kylin_set_find` returned. -/
def write (set : Kset α) (index : ℕ) (c : Cell α) : Kset α :=
  { set with val := set.val.set index (.v (.copy c)) }

/-! ## Contents -/

/-- The contents of the slots that are used. -/
def stored (set : Kset α) : List (Cell α) := set.val.filterMap (contents set.opts)

/-- The set has these contents, slot by slot. -/
def Holds (set : Kset α) (cs : List (Cell α)) : Prop :=
  set.val.map (contents set.opts) = cs.map some

section Contents
variable {set : Kset α} {cs : List (Cell α)} {a : Cell α} {cmp : Cell α → Cell α → ℤ}

theorem holds_create (opts : KsetOpts α) : (create opts).Holds [] := rfl

theorem Holds.stored_eq (h : set.Holds cs) : set.stored = cs := by
  have heq : set.stored = (set.val.map (contents set.opts)).filterMap id := by
    rw [stored, List.filterMap_map]
    rfl
  rw [heq, h, List.filterMap_map]
  exact List.filterMap_some

theorem Holds.used_eq (h : set.Holds cs) : set.used = cs.length := by
  have := congrArg List.length h
  rwa [List.length_map, List.length_map] at this

theorem insert_full {v : KPtr α} (h : set.used = set.opts.cap) :
    set.insert v = some (.inval, set) := by
  rw [insert, if_pos h]

/-- Inserting appends. -/
theorem Holds.insert (h : set.Holds cs) (hroom : cs.length ≠ set.opts.cap)
    (horder : set.opts.isOrder = false) {v : KPtr α} {x : KmathVal α}
    (hctor : kmathValCtor v set.opts.valType set.opts.ctor = some x)
    (hx : contents set.opts x = some a) : ∃ set', set.insert v = some (.ok, set') ∧
      set'.opts = set.opts ∧ set'.Holds (cs ++ [a]) := by
  have heq : set.insert v = some (.ok, { set with
      val := set.val ++ [x]
      rest := set.rest.tail }) := by
    rw [Kset.insert, if_neg (h.used_eq ▸ hroom), hctor]
    simp [horder]
  refine ⟨_, heq, rfl, ?_⟩
  rw [Holds, List.map_append, List.map_append, h]
  simp [hx]

/-- The search finds the first element that compares equal. -/
theorem search_eq {opts : KsetOpts α} (hcmp : opts.compare = some cmp) {key : KPtr α}
    (hkey : key.deref = some a) {xs : List (KmathVal α)}
    (h : xs.map (contents opts) = cs.map some) :
    search opts key xs = some (cs.findIdx? fun c => cmp a c = 0) := by
  induction xs generalizing cs with
  | nil =>
      cases cs with
      | nil => rfl
      | cons c cs => cases h
  | cons x xs ih =>
      cases cs with
      | nil => cases h
      | cons c cs =>
          rw [List.map_cons, List.map_cons, List.cons.injEq] at h
          rw [search, hcmp, List.findIdx?_cons]
          simp only [hkey, h.1, ih h.2, Option.bind_eq_bind, Option.bind_some]
          by_cases hc : cmp a c = 0
          · simp [hc]
          · simp [hc]

theorem Holds.find (h : set.Holds cs) (hcmp : set.opts.compare = some cmp) {key : KPtr α}
    (hkey : key.deref = some a) : set.find key = some (cs.findIdx? fun c => cmp a c = 0) :=
  search_eq hcmp hkey h

/-- Removing erases the first element that compares equal. -/
theorem Holds.remove (h : set.Holds cs) (hcmp : set.opts.compare = some cmp) {key : KPtr α}
    (hkey : key.deref = some a) (hmem : ∃ c ∈ cs, cmp a c = 0) :
    ∃ set', set.remove key = some (.ok, set') ∧ set'.opts = set.opts ∧
      set'.Holds (cs.eraseP fun c => cmp a c = 0) := by
  obtain ⟨i, hi⟩ : ∃ i, (cs.findIdx? fun c => cmp a c = 0) = some i := by
    rw [← Option.isSome_iff_exists, List.findIdx?_isSome]
    simpa using hmem
  have hlen : i < set.val.length := by
    have := h.used_eq
    rw [used] at this
    rw [this]
    exact (List.findIdx?_eq_some_iff_findIdx_eq.mp hi).1
  have heq : set.remove key = some (.ok, { set with
      val := set.val.eraseIdx i
      rest := set.val[i] :: set.rest }) := by
    rw [Kset.remove, search_eq hcmp hkey h, hi]
    simp [removeByIndex, List.getElem?_eq_getElem hlen]
  refine ⟨_, heq, rfl, ?_⟩
  change (set.val.eraseIdx i).map (contents set.opts) = _
  rw [← List.eraseIdx_map, h, List.eraseIdx_map, List.eraseP_eq_eraseIdx, hi]

/-- Removing finds nothing. -/
theorem Holds.remove_none (h : set.Holds cs) (hcmp : set.opts.compare = some cmp) {key : KPtr α}
    (hkey : key.deref = some a) (hno : ∀ c ∈ cs, cmp a c ≠ 0) :
    set.remove key = some (.noent, set) := by
  have hnone : (cs.findIdx? fun c => cmp a c = 0) = none := by
    rw [List.findIdx?_eq_none_iff]
    simpa using hno
  rw [Kset.remove, search_eq hcmp hkey h, hnone]
  rfl

/-- The last element of a set that is not too large to be counted. -/
theorem Holds.last (h : set.Holds cs) (hlen : cs.length < 2 ^ 64) :
    set.last.map KPtr.deref = cs.getLast?.map some := by
  have hused := h.used_eq
  have hget := congrArg (fun l => l[cs.length - 1]?) h
  simp only [List.getElem?_map] at hget
  rw [List.getLast?_eq_getElem?, ← hget, Kset.last, Option.map_map, hused]
  by_cases hpos : 0 < cs.length
  · rw [sizeSub_of_le hpos hlen]
    rfl
  · have hzero : cs.length = 0 := Nat.eq_zero_of_not_pos hpos
    have hnil : set.val = [] := List.eq_nil_of_length_eq_zero (hused.trans hzero)
    rw [hnil, List.getElem?_nil, List.getElem?_nil]
    rfl

/-- A write to a slot. -/
theorem Holds.write (h : set.Holds cs) (htype : set.opts.valType.IsPointer) (i : ℕ) (c : Cell α) :
    (set.write i c).Holds (cs.set i c) := by
  rw [Holds, Kset.write, List.map_set, List.map_set]
  change (set.val.map (contents set.opts)).set i _ = _
  rw [h, contents, kmathValGet_of_isPointer htype]
  rfl

/-- What a slot points to. -/
theorem Holds.deref_element (h : set.Holds cs) (i : ℕ) : (set.element i).deref = cs[i]? := by
  have hget := congrArg (fun l => l[i]?) h
  simp only [List.getElem?_map] at hget
  cases hval : set.val[i]? with
  | none =>
      rw [hval, Option.map_none, eq_comm, Option.map_eq_none_iff] at hget
      rw [element, hval, hget]
      rfl
  | some x =>
      rw [hval, Option.map_some] at hget
      cases hcs : cs[i]? with
      | none =>
          rw [hcs] at hget
          cases hget
      | some c =>
          rw [hcs, Option.map_some, Option.some.injEq] at hget
          rw [element, hval]
          exact hget

theorem Holds.element_eq_null (h : set.Holds cs) {i : ℕ} (hi : cs.length ≤ i) :
    set.element i = .null := by
  have hval : set.val[i]? = none := by
    rw [List.getElem?_eq_none_iff]
    have hused := h.used_eq
    rw [used] at hused
    omega
  rw [element, hval]
  rfl

theorem Holds.element_ne_null (h : set.Holds cs) {i : ℕ} {c : Cell α} (hc : cs[i]? = some c) :
    set.element i ≠ .null := by
  intro hnull
  have hkey := (h.deref_element i).trans hc
  rw [hnull] at hkey
  cases hkey

/-- Of the elements each compares equal to itself and to no other. -/
def TellsApart (cmp : Cell α → Cell α → ℤ) (cs : List (Cell α)) : Prop :=
  ∀ (i j : ℕ) (c d : Cell α), cs[i]? = some c → cs[j]? = some d → (cmp c d = 0 ↔ i = j)

theorem TellsApart.of_key {β κ : Type} {f : β → Cell α} {key : β → κ} {l : List β}
    (hcmp : ∀ a ∈ l, ∀ b ∈ l, cmp (f a) (f b) = 0 ↔ key a = key b) (hnodup : (l.map key).Nodup) :
    TellsApart cmp (l.map f) := by
  intro i j c d hc hd
  rw [List.getElem?_map, Option.map_eq_some_iff] at hc hd
  obtain ⟨a, ha, rfl⟩ := hc
  obtain ⟨b, hb, rfl⟩ := hd
  rw [hcmp a (List.mem_of_getElem? ha) b (List.mem_of_getElem? hb)]
  constructor
  · intro hkey
    have hlt : i < (l.map key).length := by
      rw [List.length_map]
      exact (List.getElem?_eq_some_iff.mp ha).1
    refine (List.getElem?_inj hlt hnodup).mp ?_
    rw [List.getElem?_map, List.getElem?_map, ha, hb]
    exact congrArg some hkey
  · rintro rfl
    rw [Option.some.inj (ha.symm.trans hb)]

/-- The loop goes on behind the first slot that compares equal. -/
theorem Holds.next (h : set.Holds cs) (hcmp : set.opts.compare = some cmp) {i : ℕ} {c : Cell α}
    (hc : cs[i]? = some c) : set.next (set.element i) =
      some (set.element (cs.findIdx (fun d => cmp c d = 0) + 1)) := by
  have hkey : (set.element i).deref = some c := (h.deref_element i).trans hc
  rw [Kset.next, search_eq hcmp hkey h]
  cases hfind : cs.findIdx? fun d => cmp c d = 0 with
  | none =>
      have hidx := List.findIdx_eq_length.mpr fun d hd => List.findIdx?_eq_none_iff.mp hfind d hd
      rw [hidx, h.element_eq_null (Nat.le_succ _)]
      rfl
  | some m =>
      obtain ⟨hm, hd, hbefore⟩ := List.findIdx?_eq_some_iff_getElem.mp hfind
      have hidx : cs.findIdx (fun d => decide (cmp c d = 0)) = m :=
        (List.findIdx_eq hm).mpr ⟨hd, fun j hj => Bool.eq_false_of_not_eq_true (hbefore j hj)⟩
      rw [hidx]
      rfl

/-- The turns are those of a loop that finds its place again. -/
theorem Holds.turns (h : set.Holds cs) (hcmp : set.opts.compare = some cmp) (fuel i : ℕ) :
    set.turns fuel (set.element i) =
      refind (fun c d => decide (cmp c d = 0)) cs fuel cs[i]? := by
  induction fuel generalizing i with
  | zero =>
      cases hc : cs[i]? with
      | none =>
          rw [h.element_eq_null (List.getElem?_eq_none_iff.mp hc)]
          rfl
      | some c =>
          rw [Kset.turns]
          · rfl
          · exact h.element_ne_null hc
  | succ fuel ih =>
      cases hc : cs[i]? with
      | none =>
          rw [h.element_eq_null (List.getElem?_eq_none_iff.mp hc)]
          rfl
      | some c =>
          have hkey : (set.element i).deref = some c := (h.deref_element i).trans hc
          rw [Kset.turns]
          · rw [hkey, h.next hcmp hc, refind, follower_eq_getElem?, ← ih]
            simp only [Option.bind_eq_bind, Option.bind_some]
            cases set.turns fuel (set.element (cs.findIdx (fun d => cmp c d = 0) + 1)) <;> rfl
          · exact h.element_ne_null hc

theorem Holds.first (h : set.Holds cs) (hne : cs ≠ []) : set.first = some (set.element 0) := by
  have hused := h.used_eq
  rw [used] at hused
  have hpos : 0 < set.val.length := by
    rw [hused]
    exact List.length_pos_iff.mpr hne
  rw [Kset.first, element, List.getElem?_append_left hpos, List.getElem?_eq_getElem hpos]
  rfl

/-- The loop is one that finds its place again. -/
theorem Holds.foreach_eq (h : set.Holds cs) (hcmp : set.opts.compare = some cmp) (hne : cs ≠ [])
    (fuel : ℕ) :
    set.foreach fuel = refind (fun c d => decide (cmp c d = 0)) cs fuel cs.head? := by
  rw [Kset.foreach, h.first hne, Option.bind_eq_bind, Option.bind_some, h.turns hcmp,
    List.head?_eq_getElem?]

/-- **The loop comes to every element once and in order.** -/
theorem Holds.foreach (h : set.Holds cs) (hcmp : set.opts.compare = some cmp)
    (htells : TellsApart cmp cs) {fuel : ℕ}
    (hne : cs ≠ []) (hfuel : cs.length ≤ fuel) : set.foreach fuel = some cs := by
  rw [h.foreach_eq hcmp hne]
  refine refind_eq ?_ ?_ hfuel
  · intro c hc
    obtain ⟨i, hi, rfl⟩ := List.getElem_of_mem hc
    have hget := List.getElem?_eq_getElem hi
    exact decide_eq_true ((htells i i _ _ hget hget).mpr rfl)
  · rw [List.pairwise_iff_getElem]
    intro i j hi hj hij
    have hapart := htells j i _ _ (List.getElem?_eq_getElem hj) (List.getElem?_eq_getElem hi)
    exact decide_eq_false fun hzero => Nat.ne_of_gt hij (hapart.mp hzero)

/-- **The loop does not end** if an element compares equal to one before it. -/
theorem Holds.foreach_eq_none (h : set.Holds cs) (hcmp : set.opts.compare = some cmp)
    (hself : ∀ c ∈ cs, cmp c c = 0) {i j : ℕ} (hij : i < j) {c d : Cell α}
    (hi : cs[i]? = some c) (hj : cs[j]? = some d) (hzero : cmp d c = 0) (fuel : ℕ) :
    set.foreach fuel = none := by
  obtain ⟨hlen, rfl⟩ := List.getElem?_eq_some_iff.mp hj
  obtain ⟨_, rfl⟩ := List.getElem?_eq_some_iff.mp hi
  rw [h.foreach_eq hcmp (List.ne_nil_of_length_pos (Nat.zero_lt_of_lt hlen)),
    List.head?_eq_getElem?]
  exact refind_eq_none (fun c hc => decide_eq_true (hself c hc)) hlen hij (decide_eq_true hzero)
    (Nat.zero_le j)

end Contents

end Kset

end Kylin
