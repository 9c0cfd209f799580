import Kylin.Lib.Run
import Mathlib.Logic.Function.Basic

/-!
# A lock and the data under it

At most one thread owns the lock, and takes it or gives it back in one step.  The owner loads the
data that the lock protects and stores what it makes of the value it has loaded; other threads
may want to take the lock in between, and cannot.

A lock that is made of smaller steps is right when each of its runs is matched by one of this
machine, so that `run_data_eq` holds of it too.

## Main definitions

* `Mutex`, `Mutex.step` — the lock, the data and one step.

## Main results

* `Mutex.run_data_eq` — no store is lost.
-/

namespace Lib

/-- A lock, its data, and the value that each thread has loaded and not used yet. -/
structure Mutex (ι σ : Type) where
  owner : Option ι
  data : σ
  loaded : ι → Option σ

namespace Mutex
variable {ι σ : Type}

/-- What a thread does. -/
inductive Act (ι σ : Type)
  | acquire (t : ι)
  | release (t : ι)
  | load (t : ι)
  | store (t : ι) (f : σ → σ)

/-- The change that a step makes to the data. -/
def Act.stored : Act ι σ → Option (σ → σ)
  | .store _ f => some f
  | _ => none

/-- A lock that nobody owns. -/
def init (d : σ) : Mutex ι σ := ⟨none, d, fun _ => none⟩

variable [DecidableEq ι]

/-- One step; `none` for a step that a thread cannot take. -/
def step (m : Mutex ι σ) : Act ι σ → Option (Unit × Mutex ι σ)
  | .acquire t =>
      if m.owner = none then
        some ((), { m with owner := some t, loaded := Function.update m.loaded t none })
      else none
  | .release t => if m.owner = some t then some ((), { m with owner := none }) else none
  | .load t =>
      if m.owner = some t then
        some ((), { m with loaded := Function.update m.loaded t (some m.data) })
      else none
  | .store t f =>
      if m.owner = some t then
        (m.loaded t).map fun x =>
          ((), { m with data := f x, loaded := Function.update m.loaded t none })
      else none

/-- Any order of steps. -/
def any (_ : Mutex ι σ) (_ : Act ι σ) : Prop := True

/-- The changes that were made to the data, in order. -/
def stores (tr : List (Step (Mutex ι σ) (Act ι σ) Unit)) : List (σ → σ) :=
  tr.filterMap fun e => e.call.stored

omit [DecidableEq ι] in
theorem stores_append (tr tr' : List (Step (Mutex ι σ) (Act ι σ) Unit)) :
    stores (tr ++ tr') = stores tr ++ stores tr' := List.filterMap_append

/-- What the owner has loaded is still the data. -/
def Current (m : Mutex ι σ) : Prop :=
  ∀ t x, m.owner = some t → m.loaded t = some x → x = m.data

/-- One step makes the change it stands for. -/
theorem Current.step {m m' : Mutex ι σ} {a : Act ι σ} {r : Unit} (h : Current m)
    (hstep : m.step a = some (r, m')) :
    Current m' ∧ m'.data = (a.stored.toList).foldl (fun d f => f d) m.data := by
  cases a with
  | acquire t =>
      simp only [Mutex.step] at hstep
      split at hstep
      · cases hstep
        refine ⟨fun u x hu hx => ?_, rfl⟩
        obtain rfl : t = u := Option.some.inj hu
        simp only [Function.update_self, reduceCtorEq] at hx
      · cases hstep
  | release t =>
      simp only [Mutex.step] at hstep
      split at hstep
      · cases hstep
        exact ⟨fun u x hu _ => (by cases hu), rfl⟩
      · cases hstep
  | load t =>
      simp only [Mutex.step] at hstep
      split at hstep
      · next hown =>
          cases hstep
          refine ⟨fun u x hu hx => ?_, rfl⟩
          obtain rfl : t = u := Option.some.inj (hown.symm.trans hu)
          simp only [Function.update_self, Option.some.injEq] at hx
          exact hx.symm
      · cases hstep
  | store t f =>
      simp only [Mutex.step] at hstep
      split at hstep
      · next hown =>
          obtain ⟨x, hx, heq⟩ := Option.map_eq_some_iff.mp hstep
          cases heq
          refine ⟨fun u y hu hy => ?_, ?_⟩
          · obtain rfl : t = u := Option.some.inj (hown.symm.trans hu)
            simp only [Function.update_self, reduceCtorEq] at hy
          · change f x = f m.data
            rw [h t x hown hx]
      · cases hstep

/-- **No store is lost**: after any run the data is what the changes make of it one after the
other, in the order of the stores. -/
theorem run_data_eq {d : σ} {tr : List (Step (Mutex ι σ) (Act ι σ) Unit)} {m : Mutex ι σ}
    (h : Run step any (init d) tr m) : m.data = (stores tr).foldl (fun d f => f d) d := by
  have hinv : Current m ∧ m.data = (stores tr).foldl (fun d f => f d) d := by
    refine h.induct (P := fun tr m => Current m ∧ m.data = (stores tr).foldl (fun d f => f d) d)
      ⟨fun t x ht _ => (by cases ht), rfl⟩ ?_
    rintro tr m a r m' - ⟨hcur, hdata⟩ - hstep
    obtain ⟨hcur', hdata'⟩ := hcur.step hstep
    refine ⟨hcur', ?_⟩
    rw [hdata', hdata, stores_append, List.foldl_append]
    cases ha : a.stored <;> simp [stores, ha]
  exact hinv.2

end Mutex

end Lib
