import Kylin.Arch.Word
import Kylin.Lib.Run

/-!
# Read-write locks

A `krwlock_t` (`include/arch/kylin_rwlock.h`) is one word: the number of read locks that are
held, or all ones while the write lock is.  The two lock functions load the word, look at it
and then compare and set it, so what they have seen may be old; the two unlock functions are
one atomic operation each.

The machine runs any number of threads through these steps in any order.  A thread may hold
several read locks, and gives back only what it holds.  A reader never counts up to all
ones past the last value it can count to, so the word stays unambiguous for those who take
the lock, `run_exclusive`.

## Main definitions

* `Pc`, `System`, `System.advance` — threads, the word and one atomic step.
* `System.Inv` — what the word says about the locks that are held.

## Main results

* `System.run_exclusive` — the write lock excludes every other lock.
-/

namespace Kylin.Krwlock

open Lib

/-- The word while the write lock is held. -/
def writeHeld : ℕ := 0xFFFFFFFF

/-- Where a thread is in a call: at the load of the word or at the compare-and-set. -/
inductive Pc
  | idle
  | readLoad
  | readCmpset (x : ℕ)
  | writeLoad
  | writeCmpset
  deriving DecidableEq

/-- What a thread does: call a function, or take the next step in the call it has made. -/
inductive Act
  | readLock
  | readUnlock
  | writeLock
  | writeUnlock
  | step

/-- The word, the threads, and the locks that are held, one entry for each. -/
structure System (ι : Type) where
  cnt : ℕ
  pc : ι → Pc
  readers : List ι
  writers : List ι

namespace System
variable {ι : Type} [DecidableEq ι]

/-- `kylin_rwlock_init`. -/
def init : System ι := ⟨0, fun _ => .idle, [], []⟩

/-- A thread goes to another place. -/
def goto (s : System ι) (t : ι) (pc : Pc) : System ι := { s with pc := Function.update s.pc t pc }

/-- The next step of `kylin_rwlock_read_lock` and `kylin_rwlock_write_lock`. -/
def advanceFrom (s : System ι) (t : ι) : Pc → Option (System ι)
  | .idle => none
  | .readLoad => if s.cnt = writeHeld then some s else some (s.goto t (.readCmpset s.cnt))
  | .readCmpset x =>
      match atomic32Cmpset s.cnt x ((x + 1) % 2 ^ 32) with
      | (true, cnt) => some { s.goto t .idle with cnt := cnt, readers := t :: s.readers }
      | (false, cnt) => some { s.goto t .readLoad with cnt := cnt }
  | .writeLoad => if s.cnt ≠ 0 then some s else some (s.goto t .writeCmpset)
  | .writeCmpset =>
      match atomic32Cmpset s.cnt 0 writeHeld with
      | (true, cnt) => some { s.goto t .idle with cnt := cnt, writers := t :: s.writers }
      | (false, cnt) => some { s.goto t .writeLoad with cnt := cnt }

/-- One atomic step of the system; a thread makes one call at a time. -/
def advance (s : System ι) : ι × Act → Option (Unit × System ι)
  | (t, .step) => (s.advanceFrom t (s.pc t)).map ((), ·)
  | (t, .readLock) => if s.pc t = .idle then some ((), s.goto t .readLoad) else none
  | (t, .writeLock) => if s.pc t = .idle then some ((), s.goto t .writeLoad) else none
  | (t, .readUnlock) =>
      if s.pc t = .idle then
        some ((), { s with cnt := atomic32Dec s.cnt, readers := s.readers.erase t })
      else none
  | (t, .writeUnlock) =>
      if s.pc t = .idle then
        some ((), { s with cnt := atomic32Inc s.cnt, writers := s.writers.erase t })
      else none

/-- A thread unlocks only what it holds. -/
def Valid (s : System ι) : ι × Act → Prop
  | (t, .readUnlock) => t ∈ s.readers
  | (t, .writeUnlock) => t ∈ s.writers
  | _ => True

/-- The word counts the read locks, or the write lock is the only one. -/
def Counts (s : System ι) : Prop :=
  s.writers = [] ∧ s.cnt = s.readers.length ∧ s.cnt ≤ writeHeld ∨
    (∃ t, s.writers = [t]) ∧ s.readers = [] ∧ s.cnt = writeHeld

/-- The invariant: no reader is about to count past the last value. -/
structure Inv (s : System ι) : Prop where
  counts : s.Counts
  below : ∀ t x, s.pc t = .readCmpset x → x < writeHeld

omit [DecidableEq ι] in
theorem inv_init : Inv (init : System ι) where
  counts := .inl ⟨rfl, rfl, Nat.zero_le _⟩
  below := fun _ _ h => by cases h

namespace Inv
variable {s s' : System ι} {t : ι}

/-- A thread moves to a place where it is not about to count, or to count to a value that
it can. -/
theorem goto_of (hc : s'.Counts) (h : Inv s) {pc : Pc} (hpc : s'.pc = Function.update s.pc t pc)
    (hx : ∀ x, pc = .readCmpset x → x < writeHeld) : Inv s' := by
  refine ⟨hc, ?_⟩
  intro u x hu
  rw [hpc, Function.update_apply] at hu
  split at hu
  · exact hx x hu
  · exact h.below u x hu

omit [DecidableEq ι] in
/-- The word is zero: nobody holds a lock. -/
theorem free (h : Inv s) (hcnt : s.cnt = 0) : s.writers = [] ∧ s.readers = [] := by
  rcases h.counts with ⟨hw, hr, -⟩ | ⟨-, -, hheld⟩
  · exact ⟨hw, List.eq_nil_of_length_eq_zero (hr.symm.trans hcnt)⟩
  · rw [hcnt] at hheld
    cases hheld

/-- The compare-and-set of a reader that finds the word it has loaded. -/
theorem counts_read (h : Inv s) {x : ℕ} (hx : x < writeHeld) (hcnt : s.cnt = x) :
    Counts { s.goto t .idle with cnt := (x + 1) % 2 ^ 32, readers := t :: s.readers } := by
  have hmod : (x + 1) % 2 ^ 32 = x + 1 := Nat.mod_eq_of_lt (Nat.succ_lt_succ hx)
  rcases h.counts with ⟨hw, hr, -⟩ | ⟨-, -, hheld⟩
  · left
    refine ⟨hw, ?_, ?_⟩
    · change (x + 1) % 2 ^ 32 = (t :: s.readers).length
      rw [hmod, List.length_cons, ← hr, hcnt]
    · change (x + 1) % 2 ^ 32 ≤ writeHeld
      rw [hmod]
      exact hx
  · rw [← hcnt, hheld] at hx
    exact absurd hx (lt_irrefl _)

/-- The compare-and-set of a writer that finds zero. -/
theorem counts_write (h : Inv s) (hcnt : s.cnt = 0) :
    Counts { s.goto t .idle with cnt := writeHeld, writers := t :: s.writers } := by
  obtain ⟨hw, hr⟩ := h.free hcnt
  right
  refine ⟨⟨t, ?_⟩, hr, rfl⟩
  change t :: s.writers = [t]
  rw [hw]

/-- A reader gives its lock back. -/
theorem counts_readUnlock (h : Inv s) (ht : t ∈ s.readers) :
    Counts { s with cnt := atomic32Dec s.cnt, readers := s.readers.erase t } := by
  rcases h.counts with ⟨hw, hr, hle⟩ | ⟨-, hr, -⟩
  · have hpos : 0 < s.cnt := by
      rw [hr]
      exact List.length_pos_of_mem ht
    have hdec : atomic32Dec s.cnt = s.cnt - 1 := by
      rw [writeHeld] at hle
      rw [atomic32Dec]
      omega
    left
    refine ⟨hw, ?_, ?_⟩
    · change atomic32Dec s.cnt = (s.readers.erase t).length
      rw [hdec, List.length_erase_of_mem ht, hr]
    · change atomic32Dec s.cnt ≤ writeHeld
      rw [hdec]
      exact Nat.le_trans (Nat.sub_le _ _) hle
  · rw [hr] at ht
    cases ht

/-- The writer gives its lock back: the word wraps to zero. -/
theorem counts_writeUnlock (h : Inv s) (ht : t ∈ s.writers) :
    Counts { s with cnt := atomic32Inc s.cnt, writers := s.writers.erase t } := by
  rcases h.counts with ⟨hw, -, -⟩ | ⟨⟨u, hw⟩, hr, hheld⟩
  · rw [hw] at ht
    cases ht
  · rw [hw, List.mem_singleton] at ht
    left
    refine ⟨?_, ?_, ?_⟩
    · change s.writers.erase t = []
      rw [hw, ht, List.erase_cons_head]
    · change atomic32Inc s.cnt = s.readers.length
      rw [hheld, hr]
      rfl
    · change atomic32Inc s.cnt ≤ writeHeld
      rw [hheld]
      exact Nat.zero_le _

/-- The next step of a call. -/
theorem advanceFrom (h : Inv s) (hstep : s.advanceFrom t (s.pc t) = some s') : Inv s' := by
  cases hpc : s.pc t with
  | idle =>
      rw [hpc] at hstep
      cases hstep
  | readLoad =>
      simp only [hpc, System.advanceFrom] at hstep
      split at hstep
      · obtain rfl := Option.some.inj hstep
        exact h
      · next hfree =>
          obtain rfl := Option.some.inj hstep
          have hlt : s.cnt < writeHeld := by
            rcases h.counts with ⟨-, -, hle⟩ | ⟨-, -, hheld⟩
            · exact Nat.lt_of_le_of_ne hle hfree
            · exact absurd hheld hfree
          refine goto_of h.counts h rfl ?_
          intro x hx
          rw [← Pc.readCmpset.inj hx]
          exact hlt
  | readCmpset x =>
      simp only [hpc, System.advanceFrom, atomic32Cmpset] at hstep
      by_cases hcnt : s.cnt = x
      · simp only [if_pos hcnt, Option.some.injEq] at hstep
        rw [← hstep]
        exact goto_of (h.counts_read (h.below t x hpc) hcnt) h rfl (fun _ hx => by cases hx)
      · simp only [if_neg hcnt, Option.some.injEq] at hstep
        rw [← hstep]
        exact goto_of h.counts h rfl (fun _ hx => by cases hx)
  | writeLoad =>
      simp only [hpc, System.advanceFrom] at hstep
      split at hstep
      · obtain rfl := Option.some.inj hstep
        exact h
      · obtain rfl := Option.some.inj hstep
        exact goto_of h.counts h rfl (fun _ hx => by cases hx)
  | writeCmpset =>
      simp only [hpc, System.advanceFrom, atomic32Cmpset] at hstep
      by_cases hcnt : s.cnt = 0
      · simp only [if_pos hcnt, Option.some.injEq] at hstep
        rw [← hstep]
        exact goto_of (h.counts_write hcnt) h rfl (fun _ hx => by cases hx)
      · simp only [if_neg hcnt, Option.some.injEq] at hstep
        rw [← hstep]
        exact goto_of h.counts h rfl (fun _ hx => by cases hx)

/-- One step of the system. -/
theorem advance (h : Inv s) {a : ι × Act} {r : Unit} (hv : s.Valid a)
    (hstep : s.advance a = some (r, s')) : Inv s' := by
  obtain ⟨t, act⟩ := a
  cases act with
  | step =>
      simp only [System.advance, Option.map_eq_some_iff, Prod.mk.injEq] at hstep
      obtain ⟨s₁, hfrom, -, rfl⟩ := hstep
      exact h.advanceFrom hfrom
  | readLock =>
      simp only [System.advance] at hstep
      split at hstep
      · obtain ⟨-, rfl⟩ := Prod.mk.inj (Option.some.inj hstep)
        exact goto_of h.counts h rfl (fun _ hx => by cases hx)
      · cases hstep
  | writeLock =>
      simp only [System.advance] at hstep
      split at hstep
      · obtain ⟨-, rfl⟩ := Prod.mk.inj (Option.some.inj hstep)
        exact goto_of h.counts h rfl (fun _ hx => by cases hx)
      · cases hstep
  | readUnlock =>
      simp only [System.advance] at hstep
      split at hstep
      · obtain ⟨-, rfl⟩ := Prod.mk.inj (Option.some.inj hstep)
        exact ⟨h.counts_readUnlock hv, h.below⟩
      · cases hstep
  | writeUnlock =>
      simp only [System.advance] at hstep
      split at hstep
      · obtain ⟨-, rfl⟩ := Prod.mk.inj (Option.some.inj hstep)
        exact ⟨h.counts_writeUnlock hv, h.below⟩
      · cases hstep

end Inv

/-- **The write lock excludes every other lock**, along every run of any number of threads:
a thread that holds it is the only one that holds a lock, and the word is zero when nobody
holds one. -/
theorem run_exclusive {tr : List (Step (System ι) (ι × Act) Unit)} {s : System ι}
    (hrun : Run advance Valid init tr s) :
    (∀ t ∈ s.writers, s.writers = [t] ∧ s.readers = []) ∧
      (s.writers = [] → s.readers = [] → s.cnt = 0) := by
  have h : Inv s := hrun.invariant inv_init fun _ _ _ _ h hv hstep => h.advance hv hstep
  rcases h.counts with ⟨hw, hr, -⟩ | ⟨⟨u, hw⟩, hr, -⟩
  · rw [hw]
    refine ⟨(fun t ht => by cases ht), ?_⟩
    intro _ hnone
    rw [hr, hnone]
    rfl
  · rw [hw]
    refine ⟨?_, fun hcon => by cases hcon⟩
    intro t ht
    rw [List.mem_singleton.mp ht]
    exact ⟨rfl, hr⟩

/-- Two readers, and a writer that has to load the word again before it gets the lock. -/
theorem run_exclusive_writer :
    ∃ (tr : List (Step (System Bool) (Bool × Act) Unit)) (s : System Bool),
      Run advance Valid init tr s ∧ s.writers = [true] ∧ s.cnt = writeHeld ∧
        ∀ t ∈ s.writers, s.writers = [t] ∧ s.readers = [] := by
  have hrun : Run advance Valid (init : System Bool) _ _ :=
    run_of_runList [(true, .readLock), (false, .readLock), (true, .step), (false, .step),
      (true, .step), (false, .step), (false, .step), (false, .step), (true, .readUnlock),
      (true, .writeLock), (true, .step), (false, .readUnlock), (true, .step), (true, .step)] rfl (by
      simp only [List.forall_mem_cons]
      refine ⟨trivial, trivial, trivial, trivial, trivial, trivial, trivial, trivial, ?_, trivial,
        trivial, ?_, trivial, trivial, by simp⟩
      · exact List.mem_cons_of_mem _ List.mem_cons_self
      · exact List.mem_cons_self)
  exact ⟨_, _, hrun, rfl, rfl, (run_exclusive hrun).1⟩

end System

end Kylin.Krwlock
