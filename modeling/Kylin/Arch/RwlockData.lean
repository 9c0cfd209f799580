import Kylin.Arch.Rwlock

/-!
# The data under a read-write lock

Threads read and write data under a `krwlock_t`, each read and each write in a step of its own,
with the steps of `Kylin/Arch/Rwlock.lean` between them in any order.  Whoever holds a lock reads;
only the holder of the write lock writes, and what it writes it makes of the value that it has
read.

What a thread has read stays the data until its next call of the lock, also if it holds one read
lock among many.  No write is lost, `run_current`.

## Main definitions

* `Guarded`, `Guarded.advance` — the lock, the data and one step.

## Main results

* `Guarded.run_current` — reads stay right and writes are not lost.
-/

namespace Kylin.Krwlock

open Lib

/-- The lock, the data, and the value that each thread has read since its last call of the
lock. -/
structure Guarded (ι σ : Type) where
  lock : System ι
  data : σ
  loaded : ι → Option σ

namespace Guarded
variable {ι σ : Type} [DecidableEq ι]

/-- What a thread does: a step of the lock, a read, or a write. -/
inductive Use (σ : Type)
  | lock (act : Act)
  | load
  | store (f : σ → σ)

/-- The change that a step makes to the data. -/
def Use.stored : Use σ → Option (σ → σ)
  | .store f => some f
  | _ => none

/-- A lock that nobody holds. -/
def init (d : σ) : Guarded ι σ := ⟨System.init, d, fun _ => none⟩

/-- One step. -/
def advance (g : Guarded ι σ) : ι × Use σ → Option (Unit × Guarded ι σ)
  | (t, .lock act) =>
      (g.lock.advance (t, act)).map fun (_, lock) =>
        ((), { g with lock := lock, loaded := Function.update g.loaded t none })
  | (t, .load) =>
      if g.lock.pc t = .idle then
        some ((), { g with loaded := Function.update g.loaded t (some g.data) })
      else none
  | (t, .store f) =>
      if g.lock.pc t = .idle then
        (g.loaded t).map fun x =>
          ((), { g with data := f x, loaded := Function.update g.loaded t (some (f x)) })
      else none

/-- A thread unlocks what it holds, reads under any lock and writes under the write lock. -/
def Valid (g : Guarded ι σ) : ι × Use σ → Prop
  | (t, .lock act) => g.lock.Valid (t, act)
  | (t, .load) => t ∈ g.lock.readers ∨ t ∈ g.lock.writers
  | (t, .store _) => t ∈ g.lock.writers

/-- The changes that were made to the data, in order. -/
def stores (tr : List (Step (Guarded ι σ) (ι × Use σ) Unit)) : List (σ → σ) :=
  tr.filterMap fun e => e.call.2.stored

/-- What a thread that holds a lock has read is the data. -/
def Current (g : Guarded ι σ) : Prop :=
  ∀ t x, t ∈ g.lock.readers ∨ t ∈ g.lock.writers → g.loaded t = some x → x = g.data

section Steps
variable {g g' : Guarded ι σ} {s s' : System ι} {t u : ι} {act : Act} {r : Unit}

/-- The next step of a call of `t` gives no lock to another thread. -/
theorem holds_advanceFrom {pc : Pc} (h : s.advanceFrom t pc = some s') (hut : u ≠ t)
    (hu : u ∈ s'.readers ∨ u ∈ s'.writers) : u ∈ s.readers ∨ u ∈ s.writers := by
  cases pc with
  | idle => cases h
  | readLoad | writeLoad =>
      simp only [System.advanceFrom] at h
      split at h <;> cases h <;> exact hu
  | readCmpset x =>
      simp only [System.advanceFrom] at h
      split at h <;> cases h
      · exact hu.imp_left fun hmem => (List.mem_cons.mp hmem).resolve_left hut
      · exact hu
  | writeCmpset =>
      simp only [System.advanceFrom] at h
      split at h <;> cases h
      · exact hu.imp_right fun hmem => (List.mem_cons.mp hmem).resolve_left hut
      · exact hu

/-- A step of the lock by `t` gives no lock to another thread. -/
theorem holds_advance (h : s.advance (t, act) = some (r, s')) (hut : u ≠ t)
    (hu : u ∈ s'.readers ∨ u ∈ s'.writers) : u ∈ s.readers ∨ u ∈ s.writers := by
  cases act with
  | step =>
      obtain ⟨s₁, hfrom, heq⟩ := Option.map_eq_some_iff.mp h
      cases heq
      exact holds_advanceFrom hfrom hut hu
  | readLock | writeLock =>
      simp only [System.advance] at h
      split at h <;> cases h
      exact hu
  | readUnlock =>
      simp only [System.advance] at h
      split at h
      · obtain ⟨-, rfl⟩ := Prod.mk.inj (Option.some.inj h)
        exact hu.imp_left List.mem_of_mem_erase
      · cases h
  | writeUnlock =>
      simp only [System.advance] at h
      split at h
      · obtain ⟨-, rfl⟩ := Prod.mk.inj (Option.some.inj h)
        exact hu.imp_right List.mem_of_mem_erase
      · cases h

/-- A step of the lock leaves the data, and what the other threads have read of it. -/
theorem Current.lock (h : Current g) (hs : g.advance (t, .lock act) = some (r, g')) :
    Current g' ∧ g'.data = g.data := by
  obtain ⟨⟨_, s'⟩, hlock, heq⟩ := Option.map_eq_some_iff.mp hs
  cases heq
  refine ⟨fun u x hu hx => ?_, rfl⟩
  by_cases hut : u = t
  · subst hut
    simp at hx
  · have hx' := (Function.update_of_ne hut _ g.loaded).symm.trans hx
    exact h u x (holds_advance hlock hut hu) hx'

theorem Current.load (h : Current g) (hs : g.advance (t, .load) = some (r, g')) :
    Current g' ∧ g'.data = g.data := by
  simp only [advance] at hs
  split at hs <;> cases hs
  refine ⟨fun u x hu hx => ?_, rfl⟩
  by_cases hut : u = t
  · subst hut
    simpa using hx.symm
  · have hx' := (Function.update_of_ne hut _ g.loaded).symm.trans hx
    exact h u x hu hx'

/-- A write is made of the data as it is, and only the writer has read any of it. -/
theorem Current.store (h : Current g) (H : g.lock.Inv) {f : σ → σ}
    (hv : t ∈ g.lock.writers) (hs : g.advance (t, .store f) = some (r, g')) :
    Current g' ∧ g'.data = f g.data := by
  simp only [advance] at hs
  split at hs
  · obtain ⟨x, hx, heq⟩ := Option.map_eq_some_iff.mp hs
    cases heq
    have hx' := h t x (.inr hv) hx
    refine ⟨fun u y hu hy => ?_, by rw [← hx']⟩
    by_cases hut : u = t
    · subst hut
      simpa using hy.symm
    · -- nobody else holds a lock
      rcases H.counts with ⟨hw, -, -⟩ | ⟨⟨w, hw⟩, hr, -⟩
      · rw [hw] at hv
        cases hv
      · simp only [hw, hr, List.mem_singleton, List.not_mem_nil, false_or] at hv hu
        exact absurd (hu.trans hv.symm) hut
  · cases hs

end Steps

/-- **Reads stay right and writes are not lost**, in every interleaving of any number of threads:
what a thread has read under a lock is still the data, and the data is what the writes make of it
one after the other. -/
theorem run_current {d : σ} {tr : List (Step (Guarded ι σ) (ι × Use σ) Unit)} {g : Guarded ι σ}
    (h : Run advance Valid (init d) tr g) :
    (∀ t x, t ∈ g.lock.readers ∨ t ∈ g.lock.writers → g.loaded t = some x → x = g.data) ∧
      g.data = (stores tr).foldl (fun d f => f d) d := by
  have hinv : g.lock.Inv ∧ Current g ∧ g.data = (stores tr).foldl (fun d f => f d) d := by
    refine h.induct (P := fun tr g => g.lock.Inv ∧ Current g ∧
      g.data = (stores tr).foldl (fun d f => f d) d) ⟨System.inv_init, ?_, rfl⟩ ?_
    · intro t x _ hx
      cases hx
    · intro tr g a r g' _ ⟨H, hcur, hdata⟩ hv hs
      obtain ⟨t, use⟩ := a
      have hstores : stores (tr ++ [⟨g, (t, use), r, g'⟩]) = stores tr ++ use.stored.toList := by
        cases use <;> simp [stores, Use.stored]
      rw [hstores, List.foldl_append, ← hdata]
      cases use with
      | lock act =>
          obtain ⟨hcur', hdata'⟩ := hcur.lock hs
          obtain ⟨⟨_, s'⟩, hlock, heq⟩ := Option.map_eq_some_iff.mp hs
          cases heq
          exact ⟨H.advance hv hlock, hcur', hdata'⟩
      | load =>
          obtain ⟨hcur', hdata'⟩ := hcur.load hs
          simp only [advance] at hs
          split at hs <;> cases hs
          exact ⟨H, hcur', hdata'⟩
      | store f =>
          obtain ⟨hcur', hdata'⟩ := hcur.store H hv hs
          simp only [advance] at hs
          split at hs
          · obtain ⟨x, -, heq⟩ := Option.map_eq_some_iff.mp hs
            cases heq
            exact ⟨H, hcur', hdata'⟩
          · cases hs
  exact hinv.2

/-- A writer adds two, and then two readers read. -/
theorem run_current_readers : ∃ tr g, Run advance Valid (init 5 : Guarded Bool ℕ) tr g ∧
    g.lock.readers = [false, true] ∧ g.data = 7 ∧
      ∀ t x, t ∈ g.lock.readers ∨ t ∈ g.lock.writers → g.loaded t = some x → x = g.data := by
  have hrun : Run advance Valid (init 5 : Guarded Bool ℕ) _ _ := run_of_runList
    [(true, .lock .writeLock), (true, .lock .step), (true, .lock .step), (true, .load),
      (true, .store (· + 2)), (true, .lock .writeUnlock), (true, .lock .readLock),
      (true, .lock .step), (true, .lock .step), (true, .load), (false, .lock .readLock),
      (false, .lock .step), (false, .lock .step), (false, .load)] rfl (by
      simp only [List.forall_mem_cons]
      refine ⟨trivial, trivial, trivial, ?_, ?_, ?_, trivial, trivial, trivial, ?_, trivial,
        trivial, trivial, ?_, by simp⟩
      · exact .inr List.mem_cons_self
      · exact List.mem_cons_self
      · exact List.mem_cons_self
      · exact .inl List.mem_cons_self
      · exact .inl List.mem_cons_self)
  exact ⟨_, _, hrun, rfl, rfl, (run_current hrun).1⟩

end Guarded

end Kylin.Krwlock
