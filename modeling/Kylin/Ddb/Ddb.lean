import Kylin.Ipc.Shm

/-!
# The record of a daemon across its lives

`lib/core/ddb` keeps in a shared segment how often a program was started, and how its
last two lives went.  The segment has a file of its own and the name of its object stays
in the table, so `__shm_init` can tell the first life of a program from the others and
carry the record on.

The record does not survive: `kylin_shm_open` clears the segment it opens.  Every life
starts with the record of a first one, `shmInit_registered`, however the ones before it
ended.

## Main definitions

* `Kddb`, `shmInit`, `shmFini`, `signalProcessNormal` — the record and what is done to it.
* `Life`, `live`, `history` — the lives of a program, one after another.
* `Remembers` — what the record should be after a start.

## Main results

* `history_remembers_iff` — the record is right in the first life only.
-/

namespace Kylin.Ddb

open Kshm

/-- `kddb_status_t`. -/
inductive Status
  | none | running | stopped | core | unknown
  deriving DecidableEq

/-- One entry of `proc`. -/
structure Proc where
  status : Status
  signal : ℕ
  start : ℕ
  stop : ℕ
  deriving DecidableEq

instance : Zero Proc := ⟨⟨.none, 0, 0, 0⟩⟩

/-- `kddb_t`; `current` and `before` are the two entries of `proc`. -/
structure Kddb where
  name : List Char
  runs : ℕ
  current : Proc
  before : Proc
  deriving DecidableEq

instance : Zero Kddb := ⟨⟨pad [], 0, 0, 0⟩⟩

/-- `sizeof(kddb_t)`. -/
def sizeofKddb : ℕ := 120

/-- The name of the segment: `ddb#` and the name of the program, as `snprintf` cuts it. -/
def shmName (pname : List Char) : List Char := ("ddb#".toList ++ pname).take (nameLength - 1)

/-- The entry of a life that has just started. -/
def started (now : ℕ) : Proc := ⟨.running, 0, now, 0⟩

/-- The record of a new object. -/
def firstRun (pname : List Char) (now : ℕ) : Kddb :=
  { name := copyName (pad []) pname, runs := 1, current := started now, before := 0 }

/-- The record of an object that was there. -/
def nextRun (now : ℕ) (d : Kddb) : Kddb :=
  { d with runs := (d.runs + 1) % 2 ^ 16, before := d.current, current := started now }

/-- `__shm_init`, at the time `now` and with `shm` the memory of the handle. -/
def shmInit (w : World Kddb) (pname : List Char) (now shm : ℕ) : Kerr × Option ℕ × World Kddb :=
  let (ret, w) := w.create (shmName pname) sizeofKddb
  if ret ≠ .ok ∧ ret ≠ .exist then (ret, none, w)
  else
    match w.openShm (shmName pname) shm with
    | (none, w) => (.nomem, none, w)
    | (some shm, w) =>
        let f := if ret = .ok then fun _ => firstRun pname now else nextRun now
        (.ok, some shm, w.write (shmName pname) f)

/-- What the ends of a life write to its entry. -/
def ended (status : Status) (now : ℕ) (d : Kddb) : Kddb :=
  { d with current := { d.current with status := status, stop := now } }

/-- `__shm_fini`, up to `kylin_shm_close`. -/
def shmFini (w : World Kddb) (pname : List Char) (now : ℕ) : World Kddb :=
  w.write (shmName pname) (ended .stopped now)

/-- `__signal_process_normal`, after the services. -/
def signalProcessNormal (w : World Kddb) (pname : List Char) (now : ℕ) : World Kddb :=
  w.write (shmName pname) (ended .core now)

/-- How a life ends. -/
inductive Ending
  | fini (now : ℕ)
  | signal (now : ℕ)
  | kill

/-- A life: when it starts, the address of its handle, what happens to the world while it
runs, and how it ends. -/
structure Life where
  start : ℕ
  shm : ℕ
  run : World Kddb → World Kddb
  ending : Ending

/-- The object and the file of the program are there, and `shm` is its handle. -/
structure Kept (pname : List Char) (shm : ℕ) (w : World Kddb) : Prop where
  registered : w.ov.Registered (pad (shmName pname))
  file : ∃ d, w.files (shmName pname) = some d
  handle : (w.handles.find? fun h => h.shm = shm) = some ⟨shm, shmName pname⟩

/-- While the program runs, its object, its file and its handle persist. -/
def Life.Persists (pname : List Char) (l : Life) : Prop :=
  ∀ w, Kept pname l.shm w → Kept pname l.shm (l.run w)

/-- The process starts without handles. -/
def fresh (w : World Kddb) : World Kddb := { w with handles := [] }

/-- The entry that a life leaves, and the world after it. -/
def live (pname : List Char) (w : World Kddb) (l : Life) : Option (Proc × World Kddb) :=
  match shmInit (fresh w) pname l.start l.shm with
  | (.ok, some shm, w) =>
      let w := l.run w
      let left (w : World Kddb) := (w.files (shmName pname)).map Kddb.current
      match l.ending with
      | .fini now => do
          let w := shmFini w pname now
          return (← left w, ← w.close shm)
      | .signal now => do
          let w := signalProcessNormal w pname now
          return (← left w, w)
      | .kill => return (← left w, w)
  | _ => none

/-- Lives one after another: the entry that the last of them left, and the world. -/
def history (pname : List Char) : World Kddb → Option Proc → List Life →
    Option (Option Proc × World Kddb)
  | w, left, [] => some (left, w)
  | w, _, l :: ls => do
      let (left, w) ← live pname w l
      history pname w (some left) ls

/-- **The record is carried on** at the `n`-th start: it counts the starts, keeps the
entry that the life before left, and has a new entry. -/
def Remembers (n : ℕ) (left : Option Proc) (now : ℕ) (d : Kddb) : Prop :=
  d.runs = n ∧ (∀ p, left = some p → d.before = p) ∧ d.current = started now

section Lives
variable {w : World Kddb} {pname : List Char} {now shm : ℕ}

theorem length_shmName : ¬ nameLength < (shmName pname).length := by
  have h : (shmName pname).length ≤ nameLength - 1 := List.length_take_le _ _
  intro hlt
  exact absurd (Nat.lt_of_lt_of_le hlt h) (by decide)

/-- The world that a life starts with. -/
structure Opened (pname : List Char) (shm : ℕ) (handles : List Handle) (d : Kddb)
    (w : World Kddb) : Prop where
  registered : w.ov.Registered (pad (shmName pname))
  file : w.files (shmName pname) = some d
  handles : w.handles = ⟨shm, shmName pname⟩ :: handles

theorem Opened.kept {handles : List Handle} {d : Kddb} (h : Opened pname shm handles d w) :
    Kept pname shm w := by
  refine ⟨h.registered, ⟨d, h.file⟩, ?_⟩
  rw [h.handles]
  exact List.find?_cons_of_pos (by simp)

/-- After the object is found or made, the segment is opened, which clears it. -/
theorem shmInit_of_create {ret : Kerr} {w' : World Kddb} (hret : ret = .ok ∨ ret = .exist)
    (hcreate : w.create (shmName pname) sizeofKddb = (ret, w'))
    (hreg : w'.ov.Registered (pad (shmName pname))) :
    ∃ w'', shmInit w pname now shm = (.ok, some shm, w'') ∧
      Opened pname shm w'.handles (if ret = .ok then firstRun pname now else nextRun now 0)
        w'' := by
  obtain ⟨i, hfind, -⟩ := Overview.exists_find_of_registered hreg
  have hok : ¬ (ret ≠ .ok ∧ ret ≠ .exist) := by
    rintro ⟨hne, hne'⟩
    exact hret.elim hne hne'
  have heq : shmInit w pname now shm = (.ok, some shm,
      World.write ⟨w'.ov.modify i Overview.inc,
        Function.update w'.files (shmName pname) (some 0), ⟨shm, shmName pname⟩ :: w'.handles⟩
        (shmName pname) (if ret = .ok then fun _ => firstRun pname now else nextRun now)) := by
    simp only [shmInit, hcreate, if_neg hok, World.openShm, if_neg length_shmName, hfind]
  refine ⟨_, heq, (Overview.registered_modify _).mpr hreg, ?_, rfl⟩
  simp only [World.write, Function.update_self, Option.map_some]
  split <;> rfl

theorem shmInit_new (hnot : ¬ w.ov.Registered (pad (shmName pname)))
    (hroom : w.ov.count < objMax) : ∃ w', shmInit w pname now shm = (.ok, some shm, w') ∧
      Opened pname shm w.handles (firstRun pname now) w' := by
  have hfull : ¬ objMax - 1 < w.ov.count := Nat.not_lt.mpr (Nat.le_sub_one_of_lt hroom)
  obtain ⟨ov, hins⟩ : ∃ ov, w.ov.insert ⟨pad (shmName pname), sizeofKddb, 0⟩ = (.ok, ov) :=
    ⟨_, Overview.insert_ok _ hfull⟩
  have hcreate : w.create (shmName pname) sizeofKddb = (.ok, { w with ov := ov }) := by
    simp only [World.create, if_neg length_shmName, Overview.find_eq_none_iff.mpr hnot, hins]
    rfl
  have hreg : ov.Registered (pad (shmName pname)) :=
    (Overview.registered_insert hins).mpr (.inl rfl)
  obtain ⟨w', hinit, hopened⟩ := shmInit_of_create (.inl rfl) hcreate hreg
  exact ⟨w', hinit, hopened⟩

/-- A start with the object there: the record is that of a cleared segment. -/
theorem shmInit_registered (hreg : w.ov.Registered (pad (shmName pname))) :
    ∃ w', shmInit w pname now shm = (.ok, some shm, w') ∧
      Opened pname shm w.handles (nextRun now 0) w' := by
  obtain ⟨i, hfind, -⟩ := Overview.exists_find_of_registered hreg
  have hcreate : w.create (shmName pname) sizeofKddb = (.exist, w) := by
    simp only [World.create, if_neg length_shmName, hfind, Option.isSome_some, if_true]
  exact shmInit_of_create (.inr rfl) hcreate hreg

/-- A program can start: its object is there, or there is room for it. -/
def Ready (pname : List Char) (w : World Kddb) : Prop :=
  w.ov.Registered (pad (shmName pname)) ∨ w.ov.count < objMax

theorem exists_shmInit (h : Ready pname w) : ∃ d w',
    shmInit w pname now shm = (.ok, some shm, w') ∧ Opened pname shm w.handles d w' := by
  by_cases hreg : w.ov.Registered (pad (shmName pname))
  · exact ⟨_, shmInit_registered hreg⟩
  · exact ⟨_, shmInit_new hreg (h.resolve_left hreg)⟩

/-- The ends of a life write to its entry. -/
theorem Kept.write (h : Kept pname shm w) (f : Kddb → Kddb) : ∃ d,
    (w.write (shmName pname) f).files (shmName pname) = some d ∧
      Kept pname shm (w.write (shmName pname) f) := by
  obtain ⟨d, hd⟩ := h.file
  have hfile : (w.write (shmName pname) f).files (shmName pname) = some (f d) := by
    simp only [World.write, Function.update_self, hd, Option.map_some]
  exact ⟨f d, hfile, h.registered, ⟨f d, hfile⟩, h.handle⟩

/-- Closing the handle leaves the object in the table. -/
theorem Kept.exists_close (h : Kept pname shm w) :
    ∃ w', w.close shm = some w' ∧ w'.ov.Registered (pad (shmName pname)) := by
  obtain ⟨i, hfind, -⟩ := Overview.exists_find_of_registered h.registered
  have hclose : w.close shm = some
      { ov := w.ov.modify i Overview.dec
        files := Function.update w.files (shmName pname) none
        handles := w.handles.eraseP fun h => h.shm = shm } := by
    simp only [World.close, h.handle, hfind]
  exact ⟨_, hclose, (Overview.registered_modify _).mpr h.registered⟩

/-- However a life ends, the object stays in the table. -/
theorem exists_live {l : Life} (hl : l.Persists pname) (h : Ready pname w) :
    ∃ left w', live pname w l = some (left, w') ∧ w'.ov.Registered (pad (shmName pname)) := by
  obtain ⟨d, w₁, hinit, hopened⟩ : ∃ d w₁, shmInit (fresh w) pname l.start l.shm =
      (.ok, some l.shm, w₁) ∧ Opened pname l.shm [] d w₁ := exists_shmInit (w := fresh w) h
  have hkept : Kept pname l.shm (l.run w₁) := hl w₁ hopened.kept
  simp only [live, hinit]
  cases l.ending with
  | kill =>
      obtain ⟨d, hd⟩ := hkept.file
      refine ⟨d.current, l.run w₁, ?_, hkept.registered⟩
      simp only [hd]
      rfl
  | signal now =>
      obtain ⟨d, hd, hkept'⟩ := hkept.write (ended .core now)
      refine ⟨d.current, signalProcessNormal (l.run w₁) pname now, ?_, hkept'.registered⟩
      simp only [signalProcessNormal, hd]
      rfl
  | fini now =>
      obtain ⟨d, hd, hkept'⟩ := hkept.write (ended .stopped now)
      obtain ⟨w', hclose, hreg⟩ := hkept'.exists_close
      refine ⟨d.current, w', ?_, hreg⟩
      simp only [shmFini, hd, hclose]
      rfl

/-- After one life and any more, the object is in the table. -/
theorem exists_history {l : Life} {ls : List Life} (hls : ∀ l' ∈ l :: ls, l'.Persists pname)
    (h : Ready pname w) (left : Option Proc) : ∃ left' w',
      history pname w left (l :: ls) = some (some left', w') ∧
        w'.ov.Registered (pad (shmName pname)) := by
  induction ls generalizing w l left with
  | nil =>
      obtain ⟨left', w', hlive, hreg⟩ := exists_live (hls l List.mem_cons_self) h
      refine ⟨left', w', ?_, hreg⟩
      rw [history, hlive]
      rfl
  | cons l' ls ih =>
      obtain ⟨left', w', hlive, hreg⟩ := exists_live (hls l List.mem_cons_self) h
      obtain ⟨left'', w'', hrest, hreg'⟩ :=
        ih (fun x hx => hls x (List.mem_cons_of_mem _ hx)) (.inl hreg) (some left')
      refine ⟨left'', w'', ?_, hreg'⟩
      rw [history, hlive]
      exact hrest

end Lives

/-- **The record is carried on** to the first life of a program only, whatever the lives
before do and however they end. -/
theorem history_remembers_iff {w : World Kddb} {pname : List Char} {ls : List Life}
    (hnot : ¬ w.ov.Registered (pad (shmName pname))) (hroom : w.ov.count < objMax)
    (hls : ∀ l ∈ ls, l.Persists pname) (now shm : ℕ) :
    ∃ left w', history pname w none ls = some (left, w') ∧
      ∃ d w'', shmInit (fresh w') pname now shm = (.ok, some shm, w'') ∧
        w''.files (shmName pname) = some d ∧ (Remembers (ls.length + 1) left now d ↔ ls = []) := by
  cases ls with
  | nil =>
      obtain ⟨w', hinit, hopened⟩ : ∃ w', shmInit (fresh w) pname now shm = (.ok, some shm, w') ∧
        Opened pname shm [] (firstRun pname now) w' := shmInit_new (w := fresh w) hnot hroom
      refine ⟨none, w, rfl, _, w', hinit, hopened.file, ?_⟩
      exact iff_of_true ⟨rfl, (fun _ h => by cases h), rfl⟩ rfl
  | cons l ls =>
      obtain ⟨left, w', hlives, hreg⟩ := exists_history hls (.inr hroom) none
      obtain ⟨w'', hinit, hopened⟩ : ∃ w'', shmInit (fresh w') pname now shm =
        (.ok, some shm, w'') ∧ Opened pname shm [] (nextRun now 0) w'' :=
          shmInit_registered (w := fresh w') hreg
      refine ⟨some left, w', hlives, _, w'', hinit, hopened.file, ?_⟩
      -- the cleared segment counts one start
      refine iff_of_false ?_ (List.cons_ne_nil l ls)
      intro h
      have hruns : 1 = (l :: ls).length + 1 := h.1
      simp only [List.length_cons] at hruns
      omega

/-- A life that does nothing and is killed. -/
def killed (start : ℕ) : Life := ⟨start, 1, id, .kill⟩

/-- The second life of a program. -/
theorem history_remembers_iff_killed :
    ∃ left w', history ['d'] World.init none [killed 5] = some (left, w') ∧
      ∃ d w'', shmInit (fresh w') ['d'] 7 1 = (.ok, some 1, w'') ∧
        w''.files (shmName ['d']) = some d ∧ (Remembers 2 left 7 d ↔ [killed 5] = []) := by
  refine history_remembers_iff ?_ (by decide) ?_ 7 1
  · exact fun ⟨_, h, _⟩ => absurd h (Nat.not_lt_zero _)
  · intro l hl
    rw [List.mem_singleton.mp hl]
    exact fun _ h => h

/-- The second life has `runs = 1`, and nothing of the first. -/
theorem second_life_forgets : ∃ left w', history ['d'] World.init none [killed 5] =
      some (some left, w') ∧ left = started 5 ∧
    ∃ d w'', shmInit (fresh w') ['d'] 7 1 = (.ok, some 1, w'') ∧
      w''.files (shmName ['d']) = some d ∧ d.runs = 1 ∧ d.before = 0 ∧
        ¬ Remembers 2 (some left) 7 d :=
  ⟨_, _, rfl, rfl, _, _, rfl, rfl, rfl, rfl, fun h => absurd h.1 (by decide)⟩

end Kylin.Ddb
