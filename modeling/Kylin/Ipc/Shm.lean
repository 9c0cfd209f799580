import Kylin.Lib.Run
import Kylin.Math.Val
import Kylin.Utils.Name

/-!
# The registry of shared memory

`lib/core/ipc/shm` keeps a table of named objects in a file shared by all processes, and
gives out handles on them.  `kylin_shm_open` counts a handle on its object and
`kylin_shm_close` counts it off; `kylin_shm_destroy` also counts one off and deletes the
object if that leaves zero.  But creating an object counts nothing, so there is nothing
to count off: destroying an object without handles makes its count wrap, destroying one
with a single handle deletes it under that handle, and destroying one with more makes
the count too low.  `run_right` says that everything else is right.

The contents of a segment are of a type `Seg` with a zero, for memory that was cleared.

## Main definitions

* `Obj`, `Overview` — the table `shm_ov`.
* `Overview.find`, `Overview.insert`, `Overview.delete` — `object_find`, `object_insert`
  and `object_delete`.
* `World`, `create`, `destroy`, `openShm`, `close` — the interface.
* `Right`, `StepRight` — what the counts should be, and what a call should do.

## Main results

* `step_right_iff` — which calls do what they should.
* `run_right` — the counts are right in every run without a destroyed object.
-/

namespace Kylin.Kshm

open Lib

/-- `kshm_obj_t`. -/
structure Obj where
  name : List Char
  cap : ℕ
  refcnt : ℕ
  deriving DecidableEq

/-- `kshm_overview_t`, less its lock. -/
structure Overview where
  count : ℕ
  obj : ℕ → Obj

/-- `KYLIN_SHM_OBJ_MAX`. -/
def objMax : ℕ := 512

namespace Overview

/-- After `object_init` has made the file. -/
def init : Overview := ⟨0, fun _ => ⟨pad [], 0, 0⟩⟩

/-- `object_find`; a pointer into the table is an index. -/
def find (ov : Overview) (name : List Char) : Option ℕ :=
  (List.range ov.count).find? fun i => (ov.obj i).name = name

/-- `object_insert`. -/
def insert (ov : Overview) (o : Obj) : Kerr × Overview :=
  if objMax - 1 < ov.count then (.nospc, ov)
  else (.ok, ⟨ov.count + 1, Function.update ov.obj ov.count o⟩)

/-- `object_delete`, for an object with that name.  The last slot keeps what it held. -/
def delete (ov : Overview) (name : List Char) : Kerr × Overview :=
  match ov.find name with
  | none => (.noent, ov)
  | some i =>
      (.ok, ⟨ov.count - 1, fun j => if i ≤ j ∧ j + 1 < ov.count then ov.obj (j + 1) else ov.obj j⟩)

/-- Change the count of the object in a slot. -/
def modify (ov : Overview) (i : ℕ) (f : ℕ → ℕ) : Overview :=
  { ov with obj := Function.update ov.obj i { ov.obj i with refcnt := f (ov.obj i).refcnt } }

/-- `refcnt++` on 32 bits. -/
def inc (n : ℕ) : ℕ := (n + 1) % 2 ^ 32

/-- `refcnt--` on 32 bits. -/
def dec (n : ℕ) : ℕ := (n + 2 ^ 32 - 1) % 2 ^ 32

/-- The objects of the table have different names. -/
def Distinct (ov : Overview) : Prop :=
  ∀ i j, i < ov.count → j < ov.count → (ov.obj i).name = (ov.obj j).name → i = j

/-- There is an object with that name. -/
def Registered (ov : Overview) (name : List Char) : Prop :=
  ∃ i < ov.count, (ov.obj i).name = name

section Table
variable {ov : Overview} {name : List Char} {i : ℕ}

theorem find_eq_none_iff : ov.find name = none ↔ ¬ ov.Registered name := by
  simp [find, Registered]

theorem of_find_eq_some (h : ov.find name = some i) : i < ov.count ∧ (ov.obj i).name = name := by
  have hmem := List.mem_of_find?_eq_some h
  have hname := List.find?_some h
  exact ⟨List.mem_range.mp hmem, of_decide_eq_true hname⟩

theorem exists_find_of_registered (h : ov.Registered name) :
    ∃ i, ov.find name = some i ∧ i < ov.count ∧ (ov.obj i).name = name := by
  cases hf : ov.find name with
  | none => exact absurd h (find_eq_none_iff.mp hf)
  | some i => exact ⟨i, rfl, of_find_eq_some hf⟩

@[simp] theorem count_modify (f : ℕ → ℕ) : (ov.modify i f).count = ov.count := rfl

@[simp] theorem name_modify (f : ℕ → ℕ) (j : ℕ) :
    ((ov.modify i f).obj j).name = (ov.obj j).name := by
  by_cases h : j = i
  · simp [modify, h]
  · simp [modify, h]

theorem refcnt_modify (f : ℕ → ℕ) (j : ℕ) : ((ov.modify i f).obj j).refcnt =
    if j = i then f (ov.obj i).refcnt else (ov.obj j).refcnt := by
  by_cases h : j = i
  · simp [modify, h]
  · simp [modify, h]

@[simp] theorem registered_modify (f : ℕ → ℕ) :
    (ov.modify i f).Registered name ↔ ov.Registered name := by
  simp [Registered]

@[simp] theorem distinct_modify (f : ℕ → ℕ) : (ov.modify i f).Distinct ↔ ov.Distinct := by
  simp [Distinct]

theorem insert_ok (o : Obj) (h : ¬ objMax - 1 < ov.count) :
    ov.insert o = (.ok, ⟨ov.count + 1, Function.update ov.obj ov.count o⟩) := by
  rw [insert, if_neg h]

theorem of_insert_ok {o : Obj} {ov' : Overview} (h : ov.insert o = (.ok, ov')) :
    ov' = ⟨ov.count + 1, Function.update ov.obj ov.count o⟩ := by
  rw [insert] at h
  split at h
  · cases h
  · exact (Prod.mk.inj h).2.symm

/-- A slot after an insertion: the new one, or one that was there. -/
theorem insert_cases {o : Obj} {ov' : Overview} (h : ov.insert o = (.ok, ov')) {j : ℕ}
    (hj : j < ov'.count) : j = ov.count ∧ ov'.obj j = o ∨ j < ov.count ∧ ov'.obj j = ov.obj j := by
  obtain rfl := of_insert_ok h
  by_cases hlast : j = ov.count
  · rw [hlast]
    exact .inl ⟨rfl, Function.update_self _ _ _⟩
  · have hlt : j < ov.count + 1 := hj
    exact .inr ⟨by omega, Function.update_of_ne hlast _ _⟩

theorem exists_insert_iff {o : Obj} {ov' : Overview} (h : ov.insert o = (.ok, ov'))
    (P : Obj → Prop) :
    (∃ j < ov'.count, P (ov'.obj j)) ↔ P o ∨ ∃ k < ov.count, P (ov.obj k) := by
  constructor
  · rintro ⟨j, hj, hP⟩
    rcases insert_cases h hj with ⟨-, hobj⟩ | ⟨hj, hobj⟩
    · exact .inl (hobj ▸ hP)
    · exact .inr ⟨j, hj, hobj ▸ hP⟩
  · obtain rfl := of_insert_ok h
    rintro (hP | ⟨k, hk, hP⟩)
    · refine ⟨ov.count, Nat.lt_succ_self _, ?_⟩
      simpa only [Function.update_self] using hP
    · refine ⟨k, Nat.lt_succ_of_lt hk, ?_⟩
      simpa only [Function.update_of_ne (Nat.ne_of_lt hk)] using hP

theorem registered_insert {o : Obj} {ov' : Overview} (h : ov.insert o = (.ok, ov')) :
    ov'.Registered name ↔ o.name = name ∨ ov.Registered name :=
  exists_insert_iff h fun o => o.name = name

theorem distinct_insert {o : Obj} {ov' : Overview} (hd : ov.Distinct)
    (hnot : ¬ ov.Registered o.name) (h : ov.insert o = (.ok, ov')) : ov'.Distinct := by
  intro j k hj hk heq
  rcases insert_cases h hj with ⟨hj, hobj⟩ | ⟨hj, hobj⟩ <;>
    rcases insert_cases h hk with ⟨hk, hobj'⟩ | ⟨hk, hobj'⟩
  · exact hj.trans hk.symm
  · rw [hobj, hobj'] at heq
    exact absurd ⟨k, hk, heq.symm⟩ hnot
  · rw [hobj, hobj'] at heq
    exact absurd ⟨j, hj, heq⟩ hnot
  · rw [hobj, hobj'] at heq
    exact hd j k hj hk heq

/-- What is left after a deletion: every slot but the one deleted. -/
theorem exists_delete_iff (h : ov.find name = some i) (P : Obj → Prop) :
    (∃ j < (ov.delete name).2.count, P ((ov.delete name).2.obj j)) ↔
      ∃ k < ov.count, k ≠ i ∧ P (ov.obj k) := by
  obtain ⟨hi, -⟩ := of_find_eq_some h
  simp only [delete, h]
  constructor
  · rintro ⟨j, hj, hP⟩
    by_cases hij : i ≤ j
    · rw [if_pos ⟨hij, by omega⟩] at hP
      exact ⟨j + 1, by omega, by omega, hP⟩
    · rw [if_neg (by omega)] at hP
      exact ⟨j, by omega, by omega, hP⟩
  · rintro ⟨k, hk, hne, hP⟩
    by_cases hik : i < k
    · refine ⟨k - 1, by omega, ?_⟩
      rw [if_pos (by omega), Nat.sub_add_cancel (by omega)]
      exact hP
    · refine ⟨k, by omega, ?_⟩
      rw [if_neg (by omega)]
      exact hP

theorem registered_delete (hd : ov.Distinct) (h : ov.find name = some i) (other : List Char) :
    (ov.delete name).2.Registered other ↔ other ≠ name ∧ ov.Registered other := by
  obtain ⟨hi, hname⟩ := of_find_eq_some h
  rw [Registered, exists_delete_iff h fun o => o.name = other]
  constructor
  · rintro ⟨k, hk, hne, rfl⟩
    refine ⟨?_, k, hk, rfl⟩
    intro heq
    exact hne (hd k i hk hi (heq.trans hname.symm))
  · rintro ⟨hne, k, hk, rfl⟩
    refine ⟨k, hk, ?_, rfl⟩
    rintro rfl
    exact hne hname

/-- In a table of different names, an object is found where it is. -/
theorem find_name (hd : ov.Distinct) (hi : i < ov.count) :
    ov.find (ov.obj i).name = some i := by
  obtain ⟨k, hfind, hk, hname⟩ := exists_find_of_registered ⟨i, hi, rfl⟩
  rw [hfind, hd k i hk hi hname]

theorem distinct_delete (hd : ov.Distinct) (h : ov.find name = some i) :
    (ov.delete name).2.Distinct := by
  obtain ⟨hi, -⟩ := of_find_eq_some h
  -- the slot that a slot of the new table was copied from
  have hfrom : ∀ j, (ov.delete name).2.obj j =
      ov.obj (if i ≤ j ∧ j + 1 < ov.count then j + 1 else j) := by
    intro j
    simp only [delete, h]
    split <;> rfl
  intro j k hj hk heq
  rw [hfrom, hfrom] at heq
  simp only [delete, h] at hj hk
  have := hd _ _ (by split <;> omega) (by split <;> omega) heq
  split at this <;> split at this <;> omega

end Table

end Overview

/-! ## The interface -/

/-- `kshm_t`: its address and the name of its object. -/
structure Handle where
  shm : ℕ
  name : List Char
  deriving DecidableEq

/-- The table, the contents of the segment files, and the handles of this process that
were opened and not closed. -/
structure World (Seg : Type) where
  ov : Overview
  files : List Char → Option Seg
  handles : List Handle

namespace World
variable {Seg : Type}

/-- After `kylin_shm_init` in a fresh system. -/
def init : World Seg := ⟨.init, fun _ => none, []⟩

/-- `kylin_shm_create`. -/
def create (w : World Seg) (name : List Char) (cap : ℕ) : Kerr × World Seg :=
  if nameLength < name.length then (.inval, w)
  else if (w.ov.find (pad name)).isSome then (.exist, w)
  else
    let (ret, ov) := w.ov.insert ⟨pad name, cap, 0⟩
    (ret, { w with ov := ov })

/-- `kylin_shm_destroy`. -/
def destroy (w : World Seg) (name : List Char) : World Seg :=
  match w.ov.find (pad name) with
  | none => w
  | some i =>
      let ov := w.ov.modify i Overview.dec
      if (ov.obj i).refcnt = 0 then { w with ov := (ov.delete (ov.obj i).name).2 }
      else { w with ov := ov }

/-- `kylin_shm_open`, with `shm` the memory of the handle: make the file, map it, clear
it, and count the handle. -/
def openShm [Zero Seg] (w : World Seg) (name : List Char) (shm : ℕ) : Option ℕ × World Seg :=
  if nameLength < name.length then (none, w)
  else
    match w.ov.find (pad name) with
    | none => (none, w)
    | some i =>
        (some shm,
          { ov := w.ov.modify i Overview.inc
            files := Function.update w.files name (some 0)
            handles := ⟨shm, name⟩ :: w.handles })

/-- `kylin_shm_close`.  It also unlinks the file.  The memory of a handle whose object is
gone is not given back. -/
def close (w : World Seg) (shm : ℕ) : Option (World Seg) :=
  match w.handles.find? fun h => h.shm = shm with
  | none => none
  | some h =>
      let w := { w with handles := w.handles.eraseP fun h => h.shm = shm }
      match w.ov.find (pad h.name) with
      | none => some w
      | some i =>
          some { w with
            ov := w.ov.modify i Overview.dec
            files := Function.update w.files h.name none }

/-- A write to a segment through its mapping. -/
def write (w : World Seg) (name : List Char) (f : Seg → Seg) : World Seg :=
  { w with files := Function.update w.files name ((w.files name).map f) }

/-- The calls. -/
inductive Call
  | create (name : List Char) (cap : ℕ)
  | destroy (name : List Char)
  | openShm (name : List Char) (shm : ℕ)
  | close (shm : ℕ)

/-- The results of calls. -/
inductive Result
  | unit
  | err (ret : Kerr)
  | handle (shm : Option ℕ)

/-- One call. -/
def step [Zero Seg] (w : World Seg) : Call → Option (Result × World Seg)
  | .create name cap => let (ret, w) := w.create name cap; some (.err ret, w)
  | .destroy name => some (.unit, w.destroy name)
  | .openShm name shm => let (ret, w) := w.openShm name shm; some (.handle ret, w)
  | .close shm => (w.close shm).map fun w => (.unit, w)

/-- How many handles on the object are open. -/
def openHandles (w : World Seg) (name : List Char) : ℕ := w.handles.countP fun h => h.name = name

/-- **The counts are right**: names are distinct, and every count is the number of open
handles. -/
def Right (w : World Seg) : Prop :=
  w.ov.Distinct ∧ ∀ i < w.ov.count, ∀ name, Fits name → (w.ov.obj i).name = pad name →
    (w.ov.obj i).refcnt = w.openHandles name

/-- **A call does what it should**: it deletes an object only while no handle on it is
open, and destroying such an object deletes it. -/
def StepRight (e : Step (World Seg) Call Result) : Prop :=
  (∀ name, Fits name → e.before.ov.Registered (pad name) → ¬ e.after.ov.Registered (pad name) →
    e.before.openHandles name = 0) ∧
  ∀ name, e.call = .destroy name → e.before.ov.Registered (pad name) →
    e.before.openHandles name = 0 → ¬ e.after.ov.Registered (pad name)

/-- What callers promise: names that fit, handles that are open, fewer than `2 ^ 32`
handles on an object. -/
def Valid (w : World Seg) : Call → Prop
  | .create name _ | .destroy name => Fits name
  | .openShm name _ => Fits name ∧ w.openHandles name + 1 < 2 ^ 32
  | .close shm => ∃ h ∈ w.handles, h.shm = shm

/-- No object is destroyed. -/
def Spares (w : World Seg) : Call → Prop
  | .destroy name => ¬ w.ov.Registered (pad name)
  | _ => True

/-- The invariant: the counts are right, names fit, and open handles have an object. -/
structure Inv (w : World Seg) : Prop where
  distinct : w.ov.Distinct
  fits : ∀ i < w.ov.count, ∃ name, Fits name ∧ (w.ov.obj i).name = pad name
  counts : ∀ i < w.ov.count, ∀ name, Fits name → (w.ov.obj i).name = pad name →
    (w.ov.obj i).refcnt = w.openHandles name
  live : ∀ h ∈ w.handles, Fits h.name ∧ w.ov.Registered (pad h.name)
  bounded : ∀ name, w.openHandles name < 2 ^ 32

theorem inv_init : Inv (init : World Seg) where
  distinct := fun i _ hi => absurd hi (Nat.not_lt_zero i)
  fits := fun i hi => absurd hi (Nat.not_lt_zero i)
  counts := fun i hi => absurd hi (Nat.not_lt_zero i)
  live := fun _ h => by cases h
  bounded := fun _ => Nat.two_pow_pos 32

section Steps
variable {w w' : World Seg} {name : List Char} {shm i : ℕ}

/-- A call that registers everything that was and destroys nothing. -/
theorem stepRight_of_registered {c : Call} {r : Result} (hc : ∀ name, c ≠ .destroy name)
    (h : ∀ x, w.ov.Registered x → w'.ov.Registered x) : StepRight ⟨w, c, r, w'⟩ :=
  ⟨fun _ _ hb ha => absurd (h _ hb) ha, fun name hcall => absurd hcall (hc name)⟩

theorem Inv.openHandles_eq_zero (h : Inv w) (hnot : ¬ w.ov.Registered (pad name)) :
    w.openHandles name = 0 := by
  rw [openHandles, List.countP_eq_zero]
  intro x hx hname
  rw [decide_eq_true_eq] at hname
  exact hnot (hname ▸ (h.live x hx).2)

/-- A new object without handles. -/
theorem Inv.insert (h : Inv w) (hname : Fits name) (hnot : ¬ w.ov.Registered (pad name))
    (cap : ℕ) {ov : Overview} (hins : w.ov.insert ⟨pad name, cap, 0⟩ = (.ok, ov)) :
    Inv { w with ov := ov } := by
  refine ⟨Overview.distinct_insert h.distinct hnot hins, ?_, ?_, ?_, h.bounded⟩
  · intro j hj
    rcases Overview.insert_cases hins hj with ⟨-, hobj⟩ | ⟨hj, hobj⟩
    · exact ⟨name, hname, by rw [hobj]⟩
    · rw [hobj]
      exact h.fits j hj
  · intro j hj x hx heq
    rcases Overview.insert_cases hins hj with ⟨-, hobj⟩ | ⟨hj, hobj⟩
    · rw [hobj] at heq ⊢
      rw [← (pad_inj hname hx).mp heq]
      exact (h.openHandles_eq_zero hnot).symm
    · rw [hobj] at heq ⊢
      exact h.counts j hj x hx heq
  · intro x hx
    obtain ⟨hfit, hreg⟩ := h.live x hx
    exact ⟨hfit, (Overview.registered_insert hins).mpr (.inr hreg)⟩

theorem Inv.create (h : Inv w) (hname : Fits name) (cap : ℕ) : ∃ ret w',
    w.create name cap = (ret, w') ∧ Inv w' ∧ ∀ x, w.ov.Registered x → w'.ov.Registered x := by
  have hlen : ¬ nameLength < name.length := Nat.not_lt.mpr (Nat.le_of_lt hname.1)
  by_cases hreg : (w.ov.find (pad name)).isSome
  · refine ⟨.exist, w, ?_, h, fun _ => id⟩
    rw [World.create, if_neg hlen, if_pos hreg]
  · have hnot : ¬ w.ov.Registered (pad name) :=
      Overview.find_eq_none_iff.mp (Option.not_isSome_iff_eq_none.mp hreg)
    rw [World.create, if_neg hlen, if_neg hreg]
    cases hins : w.ov.insert ⟨pad name, cap, 0⟩ with
    | mk ret ov =>
        refine ⟨ret, { w with ov := ov }, rfl, ?_⟩
        by_cases hfull : objMax - 1 < w.ov.count
        · rw [Overview.insert, if_pos hfull] at hins
          obtain ⟨-, rfl⟩ := Prod.mk.inj hins
          exact ⟨h, fun _ => id⟩
        · have hret : ret = .ok := by
            rw [Overview.insert, if_neg hfull] at hins
            exact (Prod.mk.inj hins).1.symm
          rw [hret] at hins
          refine ⟨h.insert hname hnot cap hins, ?_⟩
          intro x hx
          exact (Overview.registered_insert hins).mpr (.inr hx)

/-- A handle more or less on the object in slot `i`. -/
theorem Inv.recount (h : Inv w) (hi : i < w.ov.count) (hname : Fits name)
    (hobj : (w.ov.obj i).name = pad name) {f : ℕ → ℕ}
    (hov : w'.ov = w.ov.modify i f)
    (hself : w'.openHandles name = f (w.openHandles name))
    (hother : ∀ x, x ≠ name → w'.openHandles x = w.openHandles x)
    (hlive : ∀ x ∈ w'.handles, Fits x.name ∧ w.ov.Registered (pad x.name))
    (hbound : w'.openHandles name < 2 ^ 32) : Inv w' := by
  refine ⟨?_, ?_, ?_, ?_, ?_⟩
  · rw [hov, Overview.distinct_modify]
    exact h.distinct
  · intro j hj
    rw [hov, Overview.count_modify] at hj
    rw [hov, Overview.name_modify]
    exact h.fits j hj
  · intro j hj x hx hnamej
    rw [hov, Overview.count_modify] at hj
    rw [hov, Overview.name_modify] at hnamej
    rw [hov, Overview.refcnt_modify]
    by_cases hji : j = i
    · have hxn : x = name := by
        rw [hji, hobj] at hnamej
        exact ((pad_inj hname hx).mp hnamej).symm
      rw [if_pos hji, hxn, hself, h.counts i hi name hname hobj]
    · have hxn : x ≠ name := by
        rintro rfl
        exact hji (h.distinct j i hj hi (hnamej.trans hobj.symm))
      rw [if_neg hji, hother x hxn]
      exact h.counts j hj x hx hnamej
  · intro x hx
    rw [hov, Overview.registered_modify]
    exact hlive x hx
  · intro x
    by_cases hxn : x = name
    · rw [hxn]
      exact hbound
    · rw [hother x hxn]
      exact h.bounded x

theorem openHandles_cons (w : World Seg) (a : Handle) (x : List Char) :
    (a :: w.handles).countP (fun h => h.name = x) =
      w.openHandles x + if a.name = x then 1 else 0 := by
  rw [List.countP_cons, openHandles]
  by_cases h : a.name = x
  · simp [h]
  · simp [h]

theorem Inv.openShm [Zero Seg] (h : Inv w) (hname : Fits name)
    (hroom : w.openHandles name + 1 < 2 ^ 32) (shm : ℕ) : ∃ ret w',
    w.openShm name shm = (ret, w') ∧ Inv w' ∧ ∀ x, w.ov.Registered x → w'.ov.Registered x := by
  have hlen : ¬ nameLength < name.length := Nat.not_lt.mpr (Nat.le_of_lt hname.1)
  rw [World.openShm, if_neg hlen]
  cases hfind : w.ov.find (pad name) with
  | none => exact ⟨none, w, rfl, h, fun _ => id⟩
  | some i =>
      obtain ⟨hi, hobj⟩ := Overview.of_find_eq_some hfind
      have hinc : Overview.inc (w.openHandles name) = w.openHandles name + 1 :=
        Nat.mod_eq_of_lt hroom
      refine ⟨_, _, rfl, h.recount (f := Overview.inc) hi hname hobj rfl ?_ ?_ ?_ ?_, ?_⟩
      · rw [openHandles, openHandles_cons, if_pos rfl, hinc]
      · intro x hx
        rw [openHandles, openHandles_cons, if_neg (Ne.symm hx)]
        rfl
      · intro x hx
        rcases List.mem_cons.mp hx with rfl | hx
        · exact ⟨hname, i, hi, hobj⟩
        · exact h.live x hx
      · rw [openHandles, openHandles_cons, if_pos rfl]
        exact hroom
      · intro x hx
        exact (Overview.registered_modify _).mpr hx

theorem perm_cons_eraseP {p : Handle → Bool} {a : Handle} :
    ∀ {l : List Handle}, l.find? p = some a → l.Perm (a :: l.eraseP p) := by
  intro l
  induction l with
  | nil =>
      intro h
      cases h
  | cons b l ih =>
      intro h
      by_cases hb : p b
      · rw [List.find?_cons_of_pos hb] at h
        rw [List.eraseP_cons_of_pos hb, Option.some.inj h]
      · rw [List.find?_cons_of_neg hb] at h
        rw [List.eraseP_cons_of_neg hb]
        exact ((ih h).cons b).trans (List.Perm.swap a b _)

theorem Inv.close (h : Inv w) (hshm : ∃ a ∈ w.handles, a.shm = shm) : ∃ w',
    w.close shm = some w' ∧ Inv w' ∧ ∀ x, w.ov.Registered x → w'.ov.Registered x := by
  obtain ⟨a, ha⟩ : ∃ a, (w.handles.find? fun h => h.shm = shm) = some a := by
    rw [← Option.isSome_iff_exists, List.find?_isSome]
    obtain ⟨a, ha, hshm⟩ := hshm
    exact ⟨a, ha, by simpa using hshm⟩
  obtain ⟨hname, hreg⟩ := h.live a (List.mem_of_find?_eq_some ha)
  obtain ⟨i, hfind, hi, hobj⟩ := Overview.exists_find_of_registered hreg
  have hperm := perm_cons_eraseP ha
  let rest : World Seg := { w with handles := w.handles.eraseP fun h => h.shm = shm }
  have hcount : ∀ x, w.openHandles x = rest.openHandles x + if a.name = x then 1 else 0 := by
    intro x
    rw [openHandles, hperm.countP_eq]
    exact openHandles_cons rest a x
  have hself := hcount a.name
  rw [if_pos rfl] at hself
  have hbound := h.bounded a.name
  refine ⟨{ rest with
      ov := w.ov.modify i Overview.dec
      files := Function.update w.files a.name none }, ?_,
    h.recount (f := Overview.dec) hi hname hobj rfl ?_ ?_ ?_ ?_, ?_⟩
  · rw [World.close, ha]
    simp only [hfind]
    rfl
  · change rest.openHandles a.name = _
    rw [hself, Overview.dec]
    omega
  · intro x hx
    rw [hcount x, if_neg (Ne.symm hx)]
    rfl
  · intro x hx
    exact h.live x (List.eraseP_subset hx)
  · change rest.openHandles a.name < _
    omega
  · intro x hx
    exact (Overview.registered_modify _).mpr hx

theorem Inv.right (h : Inv w) : w.Right := ⟨h.distinct, h.counts⟩

/-- A call that destroys no object. -/
theorem Inv.step [Zero Seg] (h : Inv w) {c : Call} (hv : w.Valid c) (hs : w.Spares c) :
    ∃ r w', w.step c = some (r, w') ∧ Inv w' ∧ StepRight ⟨w, c, r, w'⟩ := by
  cases c with
  | create name cap =>
      obtain ⟨ret, w', heq, h', hreg⟩ := h.create hv cap
      refine ⟨.err ret, w', ?_, h', stepRight_of_registered (fun _ => Call.noConfusion) hreg⟩
      rw [World.step, heq]
  | destroy name =>
      have hfind : w.ov.find (pad name) = none := Overview.find_eq_none_iff.mpr hs
      have heq : w.destroy name = w := by
        rw [World.destroy, hfind]
      refine ⟨.unit, w, ?_, h, ?_, ?_⟩
      · rw [World.step, heq]
      · exact fun _ _ hb ha => absurd hb ha
      · intro name' hcall
        rw [← Call.destroy.inj hcall]
        exact fun hb => absurd hb hs
  | openShm name shm =>
      obtain ⟨ret, w', heq, h', hreg⟩ := h.openShm hv.1 hv.2 shm
      refine ⟨.handle ret, w', ?_, h', stepRight_of_registered (fun _ => Call.noConfusion) hreg⟩
      rw [World.step, heq]
  | close shm =>
      obtain ⟨w', heq, h', hreg⟩ := h.close hv
      refine ⟨.unit, w', ?_, h', stepRight_of_registered (fun _ => Call.noConfusion) hreg⟩
      rw [World.step, heq]
      rfl

/-- **Destroying an object is always wrong**, whatever the number of its handles. -/
theorem Inv.destroy_wrong (h : Inv w) (hname : Fits name) (hreg : w.ov.Registered (pad name))
    (r : Result) : ¬ ((w.destroy name).Right ∧
      StepRight ⟨w, .destroy name, r, w.destroy name⟩) := by
  rintro ⟨hright, hdeleted, hdestroyed⟩
  obtain ⟨i, hfind, hi, hobj⟩ := Overview.exists_find_of_registered hreg
  have hcount := h.counts i hi name hname hobj
  have hbound := h.bounded name
  have hdec : ((w.ov.modify i Overview.dec).obj i).refcnt = Overview.dec (w.openHandles name) := by
    rw [Overview.refcnt_modify, if_pos rfl, hcount]
  by_cases hone : w.openHandles name = 1
  · -- the last handle is still open and the object is gone
    have hzero : ((w.ov.modify i Overview.dec).obj i).refcnt = 0 := by
      rw [hdec, hone]
      decide
    have heq : w.destroy name =
        { w with ov := ((w.ov.modify i Overview.dec).delete (pad name)).2 } := by
      rw [World.destroy, hfind]
      simp only [hzero, if_pos, Overview.name_modify, hobj]
    have hgone : ¬ (w.destroy name).ov.Registered (pad name) := by
      obtain ⟨k, hk, -⟩ := Overview.exists_find_of_registered
        ((Overview.registered_modify (i := i) Overview.dec).mpr hreg)
      rw [heq, Overview.registered_delete ((Overview.distinct_modify _).mpr h.distinct) hk]
      exact fun hcon => hcon.1 rfl
    have hnone : w.openHandles name = 0 := hdeleted name hname hreg hgone
    omega
  · have hne : ¬ ((w.ov.modify i Overview.dec).obj i).refcnt = 0 := by
      rw [hdec, Overview.dec]
      omega
    have heq : w.destroy name = { w with ov := w.ov.modify i Overview.dec } := by
      rw [World.destroy, hfind]
      simp only [if_neg hne]
    rw [heq] at hright hdestroyed
    by_cases hnone : w.openHandles name = 0
    · -- no handle is open and the object stays
      exact hdestroyed name rfl hreg hnone ((Overview.registered_modify _).mpr hreg)
    · -- a handle is counted off that is still open
      have hwrong := hright.2 i hi name hname (by rw [Overview.name_modify]; exact hobj)
      rw [hdec, Overview.dec] at hwrong
      change _ = w.openHandles name at hwrong
      omega

/-- **Which calls do what they should**: those that destroy no object. -/
theorem step_right_iff [Zero Seg] (h : Inv w) {c : Call} (hv : w.Valid c) :
    (∃ r w', w.step c = some (r, w') ∧ w'.Right ∧ StepRight ⟨w, c, r, w'⟩) ↔ w.Spares c := by
  constructor
  · rintro ⟨r, w', hstep, hok⟩
    cases c with
    | destroy name =>
        intro hreg
        obtain ⟨-, rfl⟩ := Prod.mk.inj (Option.some.inj hstep)
        exact h.destroy_wrong hv hreg r hok
    | create name cap => trivial
    | openShm name shm => trivial
    | close shm => trivial
  · intro hs
    obtain ⟨r, w', hstep, h', hright⟩ := h.step hv hs
    exact ⟨r, w', hstep, h'.right, hright⟩

end Steps

/-- **The registry is right** in every run in which no object is destroyed: names are
distinct, counts are the numbers of open handles, and every call does what it should.
And this is exact: from every state of such a run, a call does what it should if and
only if it destroys no object. -/
theorem run_right [Zero Seg] {tr : List (Step (World Seg) Call Result)} {w : World Seg}
    (hrun : Run step (fun w c => w.Valid c ∧ w.Spares c) init tr w) :
    w.Right ∧ (∀ e ∈ tr, StepRight e) ∧
      ∀ c, w.Valid c → ((∃ r w', w.step c = some (r, w') ∧ w'.Right ∧
        StepRight ⟨w, c, r, w'⟩) ↔ w.Spares c) := by
  have hinv : Inv w ∧ ∀ e ∈ tr, StepRight e := by
    refine hrun.invariant_steps inv_init ?_
    intro w c r w' h hc hstep
    obtain ⟨r', w'', hstep', h', hright⟩ := h.step hc.1 hc.2
    rw [hstep] at hstep'
    obtain ⟨rfl, rfl⟩ := Prod.mk.inj (Option.some.inj hstep')
    exact ⟨h', hright⟩
  exact ⟨hinv.1.right, hinv.2, fun c hv => step_right_iff hinv.1 hv⟩

/-- Two handles on one object, of which one is closed again. -/
theorem run_right_handles : ∃ (tr : List (Step (World ℕ) Call Result)) (w : World ℕ),
    Run step (fun w c => w.Valid c ∧ w.Spares c) init tr w ∧ w.openHandles ['a'] = 1 ∧
      (w.ov.obj 0).refcnt = 1 ∧ w.Right := by
  have hrun : Run step (fun w c => w.Valid c ∧ w.Spares c) (init : World ℕ) _ _ :=
    run_of_runList [.create ['a'] 8, .openShm ['a'] 1, .openShm ['a'] 2, .close 1] rfl (by
      simp only [List.forall_mem_cons]
      have hname : Fits ['a'] := by decide
      exact ⟨⟨hname, trivial⟩, ⟨⟨hname, by decide⟩, trivial⟩, ⟨⟨hname, by decide⟩, trivial⟩,
        ⟨⟨_, List.mem_cons_of_mem _ List.mem_cons_self, rfl⟩, trivial⟩, by simp⟩)
  exact ⟨_, _, hrun, rfl, rfl, (run_right hrun).1⟩

/-- An object without handles is destroyed: it stays, and its count has wrapped. -/
theorem destroy_wraps : ∃ (tr : List (Step (World ℕ) Call Result)) (w : World ℕ),
    Run step Valid init tr w ∧ (w.ov.obj 0).refcnt = 2 ^ 32 - 1 ∧ ¬ w.Right ∧
      ∃ e ∈ tr, ¬ StepRight e := by
  have hname : Fits ['a'] := by decide
  refine ⟨_, _, run_of_runList [.create ['a'] 8, .destroy ['a']] rfl (by
    simp only [List.forall_mem_cons]
    exact ⟨hname, hname, by simp⟩), rfl, ?_, ?_⟩
  · intro h
    exact absurd (h.2 0 (by decide) ['a'] hname rfl) (by decide)
  · refine ⟨_, List.mem_cons_of_mem _ List.mem_cons_self, fun h => ?_⟩
    exact h.2 ['a'] rfl ⟨0, by decide, rfl⟩ rfl ⟨0, by decide, rfl⟩

end World

end Kylin.Kshm
