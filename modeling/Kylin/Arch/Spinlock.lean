import Kylin.Lib.Mutex
import Mathlib.Data.Int.Notation
import Mathlib.Data.List.Basic

/-!
# Spin locks

A `kspinlock_t` (`include/arch/kylin_spinlock.h`) is one word that is zero while nobody holds
the lock.  The functions of `include/arch/x86/kylin_spinlock.h` are a few instructions each;
only `xchg` writes the word, and it reads it in the same step.  While it waits,
`kylin_spinlock_lock` looks at the word before it tries the `xchg` again, which then puts into
the word what the last one took out.

The machine runs any number of threads through these instructions in any order, together with
what the holder does to the data that the lock protects.  It is matched, step by step, by the
lock of `Kylin.Lib.Mutex`.

## Main definitions

* `Place`, `System`, `advance` — threads, the word and one instruction.
* `holding` — who is between the `xchg` that takes the lock and the one that gives it back.
* `Matches` — the spin lock and the lock of the library.

## Main results

* `run_alone` — at most one thread holds the lock.
* `run_serial` — nothing that is stored under the lock is lost.
* `run_progress` — a thread that waits for a lock that is free gets it.
-/

namespace Kylin.Kspinlock

open Lib

/-- The next instruction of a thread; `lv` is the register, `zf` the zero flag. -/
inductive Place
  | idle
  | xchg (lv : ℤ)
  | test (lv : ℤ)
  | jz (lv : ℤ) (zf : Bool)
  | pause (lv : ℤ)
  | cmpl (lv : ℤ)
  | jnz (lv : ℤ) (zf : Bool)
  | jmp (lv : ℤ)
  | unlock
  | trylock
  deriving DecidableEq

/-- The thread is in `kylin_spinlock_lock`. -/
def Place.Locks : Place → Prop
  | .xchg _ | .test _ | .jz _ _ | .pause _ | .cmpl _ | .jnz _ _ | .jmp _ => True
  | .idle | .unlock | .trylock => False

/-- What a thread does: call a function, use the data, or run the next instruction. -/
inductive Act (σ : Type)
  | lock
  | unlock
  | trylock
  | isLocked
  | load
  | store (f : σ → σ)
  | step

/-- The change that a thread makes to the data. -/
def Act.stored {σ : Type} : Act σ → Option (σ → σ)
  | .store f => some f
  | _ => none

/-- The function that has returned, and what it returns. -/
inductive Result
  | none
  | lock
  | unlock
  | trylock (lockval : ℤ)
  | isLocked (locked : ℤ)
  deriving DecidableEq

/-- The word, the threads, those that hold the lock, the data, and what was loaded of it. -/
structure System (ι σ : Type) where
  locked : ℤ
  place : ι → Place
  holders : List ι
  data : σ
  loaded : ι → Option σ

variable {ι σ : Type} [DecidableEq ι]

/-- `kylin_spinlock_init`. -/
def init (d : σ) : System ι σ := ⟨0, fun _ => .idle, [], d, fun _ => none⟩

namespace System

/-- A thread goes to another instruction. -/
def goto (s : System ι σ) (t : ι) (p : Place) : System ι σ :=
  { s with place := Function.update s.place t p }

@[simp] theorem place_goto (s : System ι σ) (t : ι) (p : Place) :
    (s.goto t p).place = Function.update s.place t p := rfl

/-- `xchg`, with `lv` in the register: who finds zero holds the lock. -/
def exchange (s : System ι σ) (t : ι) (lv : ℤ) (p : Place) : System ι σ :=
  if s.locked = 0 then
    { s with
      locked := lv
      place := Function.update s.place t p
      holders := t :: s.holders
      loaded := Function.update s.loaded t none }
  else { s with locked := lv, place := Function.update s.place t p }

/-- The next instruction. -/
def advanceFrom (s : System ι σ) (t : ι) : Place → Option (Result × System ι σ)
  | .idle => none
  | .xchg lv => some (.none, s.exchange t lv (.test s.locked))
  | .test lv => some (.none, s.goto t (.jz lv (lv = 0)))
  | .jz lv zf => if zf then some (.lock, s.goto t .idle) else some (.none, s.goto t (.pause lv))
  | .pause lv => some (.none, s.goto t (.cmpl lv))
  | .cmpl lv => some (.none, s.goto t (.jnz lv (s.locked = 0)))
  | .jnz lv zf => some (.none, s.goto t (if zf then .jmp lv else .pause lv))
  | .jmp lv => some (.none, s.goto t (.xchg lv))
  | .unlock =>
      some (.unlock, { s.goto t .idle with locked := 0, holders := s.holders.erase t })
  | .trylock => some (.trylock s.locked, s.exchange t 1 .idle)

/-- One step of the system; a thread makes one call at a time. -/
def advance (s : System ι σ) : ι × Act σ → Option (Result × System ι σ)
  | (t, .step) => s.advanceFrom t (s.place t)
  | (t, .lock) => if s.place t = .idle then some (.none, s.goto t (.xchg 1)) else none
  | (t, .unlock) => if s.place t = .idle then some (.none, s.goto t .unlock) else none
  | (t, .trylock) => if s.place t = .idle then some (.none, s.goto t .trylock) else none
  | (t, .isLocked) => if s.place t = .idle then some (.isLocked s.locked, s) else none
  | (t, .load) =>
      if s.place t = .idle then
        some (.none, { s with loaded := Function.update s.loaded t (some s.data) })
      else none
  | (t, .store f) =>
      if s.place t = .idle then
        (s.loaded t).map fun x =>
          (.none, { s with data := f x, loaded := Function.update s.loaded t none })
      else none

/-- Only a thread that holds the lock unlocks it or uses the data. -/
def Valid (s : System ι σ) : ι × Act σ → Prop
  | (t, .unlock) | (t, .load) | (t, .store _) => t ∈ s.holders
  | _ => True

instance (s : System ι σ) : ∀ a, Decidable (s.Valid a)
  | (t, .unlock) | (t, .load) | (t, .store _) => inferInstanceAs (Decidable (t ∈ s.holders))
  | (_, .lock) | (_, .trylock) | (_, .isLocked) | (_, .step) => inferInstanceAs (Decidable True)

end System

/-- The changes that were made to the data, in order. -/
def stores (tr : List (Step (System ι σ) (ι × Act σ) Result)) : List (σ → σ) :=
  tr.filterMap fun e => e.call.2.stored

/-- Who has the lock after one more step: the thread whose `xchg` finds zero gets it, the one
whose `xchg` is that of the unlock gives it back. -/
def hands (l : List ι) (e : Step (System ι σ) (ι × Act σ) Result) : List ι :=
  match e.call with
  | (t, .step) =>
      match e.before.place t with
      | .xchg _ | .trylock => if e.before.locked = 0 then t :: l else l
      | .unlock => l.erase t
      | _ => l
  | _ => l

/-- Those who have taken the lock in a run and not given it back. -/
def holding (tr : List (Step (System ι σ) (ι × Act σ) Result)) : List ι := tr.foldl hands []

/-! ## The lock that is matched -/

/-- The thread has taken the lock and is about to return. -/
def Place.Took : Place → Prop
  | .test lv => lv = 0
  | .jz lv zf => lv = 0 ∧ zf = true
  | _ => False

/-- The thread waits, with a one to put into the word. -/
def Place.Waits : Place → Prop
  | .xchg lv | .test lv | .pause lv | .cmpl lv | .jnz lv _ | .jmp lv => lv = 1
  | .jz lv zf => lv = 1 ∧ zf = false
  | _ => False

theorem Place.Took.not_waits {p : Place} (h : p.Took) : ¬ p.Waits := by
  intro hw
  cases p with
  | test lv => exact absurd (h.symm.trans hw) (by decide)
  | jz lv zf => exact absurd (h.1.symm.trans hw.1) (by decide)
  | _ => exact h

/-- **The spin lock is a lock**: its holder is the owner, the word says whether there is one,
and a register holds what was put into the word. -/
structure Matches (s : System ι σ) (m : Mutex ι σ) : Prop where
  holders : s.holders = m.owner.toList
  locked : s.locked = s.holders.length
  data : s.data = m.data
  loaded : s.loaded = m.loaded
  owns : ∀ t, (s.place t).Took ∨ s.place t = .unlock → t ∈ s.holders
  register : ∀ t, (s.place t).Locks → (s.place t).Waits ∨ (s.place t).Took

/-- One step of the lock, with the change that it makes to the data, or no step. -/
def Follows (m : Mutex ι σ) (f : Option (σ → σ)) (m' : Mutex ι σ) : Prop :=
  m' = m ∧ f = none ∨ ∃ b, m.step b = some ((), m') ∧ b.stored = f

omit [DecidableEq ι] in
theorem matches_init (d : σ) : Matches (init d : System ι σ) (Mutex.init d) where
  holders := rfl
  locked := rfl
  data := rfl
  loaded := rfl
  owns := fun t ht => by rcases ht with ht | ht <;> cases ht
  register := fun t ht => ht.elim

namespace Matches
variable {s s' : System ι σ} {m : Mutex ι σ} {t : ι} {p : Place}

omit [DecidableEq ι] in
/-- Nobody holds a lock whose word is zero, -/
theorem owner_none (h : Matches s m) (hfree : s.locked = 0) : m.owner = none := by
  have hlen := h.locked
  rw [hfree, h.holders] at hlen
  cases howner : m.owner with
  | none => rfl
  | some u =>
      rw [howner] at hlen
      cases hlen

omit [DecidableEq ι] in
/-- and otherwise it is one. -/
theorem locked_one (h : Matches s m) (hheld : s.locked ≠ 0) :
    s.locked = 1 ∧ ∃ u, m.owner = some u := by
  have hlen := h.locked
  rw [h.holders] at hlen
  cases howner : m.owner with
  | none =>
      rw [howner] at hlen
      exact absurd hlen hheld
  | some u =>
      rw [howner] at hlen
      exact ⟨hlen, u, rfl⟩

omit [DecidableEq ι] in
theorem owner_of_mem (h : Matches s m) (ht : t ∈ s.holders) : m.owner = some t := by
  rw [h.holders, Option.mem_toList] at ht
  exact ht

/-- What holds of the places after one of them has changed. -/
theorem places (h : Matches s m) {l : List ι} (hl : ∀ u, u ≠ t → u ∈ s.holders → u ∈ l)
    (hown : p.Took ∨ p = .unlock → t ∈ l) (hreg : p.Locks → p.Waits ∨ p.Took) :
    (∀ u, (Function.update s.place t p u).Took ∨ Function.update s.place t p u = .unlock →
        u ∈ l) ∧
      ∀ u, (Function.update s.place t p u).Locks →
        (Function.update s.place t p u).Waits ∨ (Function.update s.place t p u).Took := by
  refine ⟨fun u hu => ?_, fun u hu => ?_⟩
  · by_cases hut : u = t
    · subst hut
      rw [Function.update_self] at hu
      exact hown hu
    · rw [Function.update_of_ne hut] at hu
      exact hl u hut (h.owns u hu)
  · by_cases hut : u = t
    · subst hut
      rw [Function.update_self] at hu ⊢
      exact hreg hu
    · rw [Function.update_of_ne hut] at hu ⊢
      exact h.register u hu

/-- A thread goes on without writing the word. -/
theorem goto (h : Matches s m) (hown : p.Took ∨ p = .unlock → t ∈ s.holders)
    (hreg : p.Locks → p.Waits ∨ p.Took) : Matches (s.goto t p) m := by
  obtain ⟨howns, hregs⟩ := h.places (fun _ _ hu => hu) hown hreg
  exact ⟨h.holders, h.locked, h.data, h.loaded, howns, hregs⟩

/-- A thread goes on waiting, -/
theorem goto_waiting (h : Matches s m) (hp : p.Waits) : Matches (s.goto t p) m := by
  refine h.goto (fun hcon => ?_) fun _ => .inl hp
  rcases hcon with htook | rfl
  · exact absurd hp htook.not_waits
  · exact hp.elim

/-- or towards the return with the lock, -/
theorem goto_took (h : Matches s m) (hp : p.Took) (ht : t ∈ s.holders) :
    Matches (s.goto t p) m :=
  h.goto (fun _ => ht) fun _ => .inr hp

/-- or where it is in no `kylin_spinlock_lock`. -/
theorem goto_other (h : Matches s m) (hp : ¬ p.Locks) (hown : p = .unlock → t ∈ s.holders) :
    Matches (s.goto t p) m := by
  refine h.goto (fun hcon => ?_) fun hlocks => absurd hlocks hp
  rcases hcon with htook | hunlock
  · cases p with
    | test | jz => exact absurd trivial hp
    | _ => exact htook.elim
  · exact hown hunlock

/-- `xchg` on a free lock: the thread is the owner. -/
theorem exchange_free (h : Matches s m) (hfree : s.locked = 0)
    (hp : p = .idle ∨ p = .test 0) :
    Matches (s.exchange t 1 p)
      { m with owner := some t, loaded := Function.update m.loaded t none } := by
  have hnone : s.holders = [] := by rw [h.holders, h.owner_none hfree, Option.toList_none]
  have hreg : p.Locks → p.Waits ∨ p.Took := by
    rcases hp with rfl | rfl
    · exact False.elim
    · exact fun _ => .inr rfl
  obtain ⟨howns, hregs⟩ := h.places (fun u _ hu => List.mem_cons_of_mem t hu)
    (fun _ => List.mem_cons_self) hreg
  rw [System.exchange, if_pos hfree]
  refine ⟨?_, ?_, h.data, ?_, howns, hregs⟩
  · rw [hnone]
    rfl
  · rw [hnone]
    rfl
  · rw [h.loaded]

/-- `xchg` on a lock that is held: nothing changes but the place. -/
theorem exchange_held (h : Matches s m) (hheld : s.locked ≠ 0)
    (hp : p = .idle ∨ p = .test 1) : Matches (s.exchange t 1 p) m := by
  have hone := (h.locked_one hheld).1
  have hgoto : Matches (s.goto t p) m := by
    rcases hp with rfl | rfl
    · exact h.goto_other id fun hcon => by cases hcon
    · exact h.goto_waiting rfl
  have heq : s.exchange t 1 p = s.goto t p := by
    rw [System.exchange, if_neg hheld, ← hone]
    rfl
  rw [heq]
  exact hgoto

/-- The owner gives the lock back. -/
theorem release (h : Matches s m) (ht : t ∈ s.holders) :
    Matches { s.goto t .idle with locked := 0, holders := s.holders.erase t }
      { m with owner := none } := by
  have howner := h.owner_of_mem ht
  have hone : s.holders = [t] := by rw [h.holders, howner, Option.toList_some]
  have hnil : s.holders.erase t = [] := by rw [hone, List.erase_cons_head]
  obtain ⟨howns, hregs⟩ := h.places (t := t) (p := .idle) (l := [])
    (fun u hu hmem => by
      rw [hone, List.mem_singleton] at hmem
      exact absurd hmem hu)
    (fun hcon => by rcases hcon with hcon | hcon <;> cases hcon) False.elim
  refine ⟨hnil, ?_, h.data, h.loaded, ?_, hregs⟩
  · change (0 : ℤ) = (s.holders.erase t).length
    rw [hnil]
    rfl
  · intro u hu
    exact absurd (howns u hu) (by simp)

/-- The next instruction is one step of the lock that is matched, or none. -/
theorem advanceFrom (h : Matches s m) {r : Result}
    (hstep : s.advanceFrom t (s.place t) = some (r, s')) :
    ∃ m', Follows m none m' ∧ Matches s' m' := by
  have hregister := h.register t
  have howns := h.owns t
  cases hp : s.place t with
  | idle =>
      rw [hp] at hstep
      cases hstep
  | xchg lv =>
      rw [hp] at hstep hregister
      obtain rfl : lv = 1 := (hregister trivial).resolve_right id
      simp only [System.advanceFrom, Option.some.injEq, Prod.mk.injEq] at hstep
      obtain ⟨-, rfl⟩ := hstep
      by_cases hfree : s.locked = 0
      · refine ⟨_, .inr ⟨.acquire t, ?_, rfl⟩, h.exchange_free hfree (.inr (by rw [hfree]))⟩
        exact if_pos (h.owner_none hfree)
      · have hone := (h.locked_one hfree).1
        exact ⟨m, .inl ⟨rfl, rfl⟩, h.exchange_held hfree (.inr (by rw [hone]))⟩
  | test lv =>
      rw [hp] at hstep hregister howns
      simp only [System.advanceFrom, Option.some.injEq, Prod.mk.injEq] at hstep
      obtain ⟨-, rfl⟩ := hstep
      obtain rfl | rfl : lv = 1 ∨ lv = 0 := hregister trivial
      · exact ⟨m, .inl ⟨rfl, rfl⟩, h.goto_waiting ⟨rfl, rfl⟩⟩
      · exact ⟨m, .inl ⟨rfl, rfl⟩, h.goto_took ⟨rfl, rfl⟩ (howns (.inl rfl))⟩
  | jz lv zf =>
      rw [hp] at hstep hregister
      obtain ⟨rfl, rfl⟩ | ⟨rfl, rfl⟩ : (lv = 1 ∧ zf = false) ∨ (lv = 0 ∧ zf = true) :=
        hregister trivial
      · obtain ⟨-, rfl⟩ := Prod.mk.inj (Option.some.inj hstep)
        exact ⟨m, .inl ⟨rfl, rfl⟩, h.goto_waiting rfl⟩
      · obtain ⟨-, rfl⟩ := Prod.mk.inj (Option.some.inj hstep)
        exact ⟨m, .inl ⟨rfl, rfl⟩, h.goto_other id fun hcon => by cases hcon⟩
  | pause lv | cmpl lv | jmp lv =>
      rw [hp] at hstep hregister
      obtain rfl : lv = 1 := (hregister trivial).resolve_right id
      simp only [System.advanceFrom, Option.some.injEq, Prod.mk.injEq] at hstep
      obtain ⟨-, rfl⟩ := hstep
      exact ⟨m, .inl ⟨rfl, rfl⟩, h.goto_waiting rfl⟩
  | jnz lv zf =>
      rw [hp] at hstep hregister
      obtain rfl : lv = 1 := (hregister trivial).resolve_right id
      simp only [System.advanceFrom, Option.some.injEq, Prod.mk.injEq] at hstep
      obtain ⟨-, rfl⟩ := hstep
      refine ⟨m, .inl ⟨rfl, rfl⟩, h.goto_waiting ?_⟩
      cases zf with
      | true => exact rfl
      | false => exact rfl
  | unlock =>
      rw [hp] at hstep howns
      have ht := howns (.inr rfl)
      simp only [System.advanceFrom, Option.some.injEq, Prod.mk.injEq] at hstep
      obtain ⟨-, rfl⟩ := hstep
      exact ⟨_, .inr ⟨.release t, if_pos (h.owner_of_mem ht), rfl⟩, h.release ht⟩
  | trylock =>
      rw [hp] at hstep
      simp only [System.advanceFrom, Option.some.injEq, Prod.mk.injEq] at hstep
      obtain ⟨-, rfl⟩ := hstep
      by_cases hfree : s.locked = 0
      · refine ⟨_, .inr ⟨.acquire t, ?_, rfl⟩, h.exchange_free hfree (.inl rfl)⟩
        exact if_pos (h.owner_none hfree)
      · exact ⟨m, .inl ⟨rfl, rfl⟩, h.exchange_held hfree (.inl rfl)⟩

/-- One step of the system is one step of the lock that is matched, or none. -/
theorem advance (h : Matches s m) {a : ι × Act σ} {r : Result} (hv : s.Valid a)
    (hstep : s.advance a = some (r, s')) :
    ∃ m', Follows m a.2.stored m' ∧ Matches s' m' := by
  obtain ⟨t, act⟩ := a
  cases act with
  | step => exact h.advanceFrom hstep
  | lock =>
      simp only [System.advance] at hstep
      split at hstep
      · simp only [Option.some.injEq, Prod.mk.injEq] at hstep
        obtain ⟨-, rfl⟩ := hstep
        exact ⟨m, .inl ⟨rfl, rfl⟩, h.goto_waiting rfl⟩
      · cases hstep
  | unlock =>
      simp only [System.advance] at hstep
      split at hstep
      · simp only [Option.some.injEq, Prod.mk.injEq] at hstep
        obtain ⟨-, rfl⟩ := hstep
        exact ⟨m, .inl ⟨rfl, rfl⟩, h.goto_other id fun _ => hv⟩
      · cases hstep
  | trylock =>
      simp only [System.advance] at hstep
      split at hstep
      · simp only [Option.some.injEq, Prod.mk.injEq] at hstep
        obtain ⟨-, rfl⟩ := hstep
        exact ⟨m, .inl ⟨rfl, rfl⟩, h.goto_other id fun hcon => by cases hcon⟩
      · cases hstep
  | isLocked =>
      simp only [System.advance] at hstep
      split at hstep
      · simp only [Option.some.injEq, Prod.mk.injEq] at hstep
        obtain ⟨-, rfl⟩ := hstep
        exact ⟨m, .inl ⟨rfl, rfl⟩, h⟩
      · cases hstep
  | load =>
      have howner : m.owner = some t := h.owner_of_mem hv
      simp only [System.advance] at hstep
      split at hstep
      · simp only [Option.some.injEq, Prod.mk.injEq] at hstep
        obtain ⟨-, rfl⟩ := hstep
        refine ⟨_, .inr ⟨.load t, if_pos howner, rfl⟩, ⟨h.holders, h.locked, h.data, ?_, h.owns,
          h.register⟩⟩
        rw [h.loaded, h.data]
      · cases hstep
  | store f =>
      have howner : m.owner = some t := h.owner_of_mem hv
      simp only [System.advance] at hstep
      split at hstep
      · obtain ⟨x, hx, heq⟩ := Option.map_eq_some_iff.mp hstep
        simp only [Prod.mk.injEq] at heq
        obtain ⟨-, rfl⟩ := heq
        rw [h.loaded] at hx
        refine ⟨{ m with data := f x, loaded := Function.update m.loaded t none },
          .inr ⟨.store t f, ?_, rfl⟩, ⟨h.holders, h.locked, rfl, ?_, h.owns, h.register⟩⟩
        · rw [Mutex.step, if_pos howner, hx]
          rfl
        · rw [h.loaded]
      · cases hstep

end Matches

/-! ## Runs -/

section Runs
variable {s : System ι σ} {tr : List (Step (System ι σ) (ι × Act σ) Result)} {d : σ}

/-- **The spin lock is a lock**: every run is matched by one of the lock of the library, with
the same changes to the data. -/
theorem run_matches (h : Run System.advance System.Valid (init d) tr s) :
    ∃ trm m, Run Mutex.step Mutex.any (Mutex.init d) trm m ∧ Mutex.stores trm = stores tr ∧
      Matches s m := by
  refine h.induct (P := fun tr s => ∃ trm m, Run Mutex.step Mutex.any (Mutex.init d) trm m ∧
    Mutex.stores trm = stores tr ∧ Matches s m) ⟨[], _, .nil, rfl, matches_init d⟩ ?_
  rintro tr s a r s' - ⟨trm, m, hrun, hstores, hm⟩ hv hstep
  obtain ⟨m', hfollows, hm'⟩ := hm.advance hv hstep
  have hstored : stores (tr ++ [⟨s, a, r, s'⟩]) = stores tr ++ a.2.stored.toList := by
    rw [stores, List.filterMap_append, ← stores]
    cases ha : a.2.stored <;> simp [ha]
  rw [hstored, ← hstores]
  rcases hfollows with ⟨rfl, hnone⟩ | ⟨b, hb, hsame⟩
  · refine ⟨trm, m', hrun, ?_, hm'⟩
    rw [hnone, Option.toList_none, List.append_nil]
  · refine ⟨_, m', hrun.snoc trivial hb, ?_, hm'⟩
    rw [Mutex.stores_append, ← hsame]
    cases hs : b.stored <;> simp [Mutex.stores, hs]

/-- **Nothing stored under the lock is lost**: whatever the order of the instructions of any
number of threads, the data is what the stores make of it one after the other. -/
theorem run_serial (h : Run System.advance System.Valid (init d) tr s) :
    s.data = (stores tr).foldl (fun d f => f d) d := by
  obtain ⟨trm, m, hrun, hstores, hm⟩ := run_matches h
  rw [hm.data, ← hstores]
  exact Mutex.run_data_eq hrun

/-- One thread counts under the lock, and the other one waits for it, looks at the word and
counts too. -/
def twoCounts : List (Bool × Act ℕ) :=
  [(true, .lock), (true, .step), (false, .lock), (false, .step), (true, .step), (true, .step),
    (false, .step), (true, .load), (false, .step), (false, .step), (false, .step),
    (true, .store (· + 1)), (true, .unlock), (false, .step), (true, .step), (false, .step),
    (false, .step), (false, .step), (false, .step), (false, .step), (false, .step), (false, .step),
    (false, .load), (false, .store (· + 10))]

theorem run_serial_two : ∃ tr s, Run System.advance System.Valid (init 0 : System Bool ℕ) tr s ∧
    s.data = 11 ∧ s.data = (stores tr).foldl (fun d f => f d) 0 := by
  have hrun : ∃ tr s, Run System.advance System.Valid (init 0 : System Bool ℕ) tr s ∧
      s.data = 11 := exists_run_of_eval twoCounts (by decide)
  obtain ⟨tr, s, hrun, hdata⟩ := hrun
  exact ⟨tr, s, hrun, hdata, run_serial hrun⟩

/-- One step hands the lock on. -/
theorem hands_eq {s' : System ι σ} {a : ι × Act σ} {r : Result}
    (hstep : s.advance a = some (r, s')) : hands s.holders ⟨s, a, r, s'⟩ = s'.holders := by
  obtain ⟨t, act⟩ := a
  have hexchange : ∀ lv p, (if s.locked = 0 then t :: s.holders else s.holders) =
      (s.exchange t lv p).holders := by
    intro lv p
    rw [System.exchange]
    split <;> rfl
  cases act with
  | step =>
      have hfrom : s.advanceFrom t (s.place t) = some (r, s') := hstep
      simp only [hands]
      cases hp : s.place t with
      | xchg lv | trylock =>
          rw [hp] at hfrom
          obtain ⟨-, rfl⟩ := Prod.mk.inj (Option.some.inj hfrom)
          exact hexchange _ _
      | jz lv zf =>
          rw [hp, System.advanceFrom] at hfrom
          split at hfrom
          · obtain ⟨-, rfl⟩ := Prod.mk.inj (Option.some.inj hfrom)
            rfl
          · obtain ⟨-, rfl⟩ := Prod.mk.inj (Option.some.inj hfrom)
            rfl
      | idle =>
          rw [hp] at hfrom
          cases hfrom
      | unlock | test lv | pause lv | cmpl lv | jnz lv zf | jmp lv =>
          rw [hp] at hfrom
          obtain ⟨-, rfl⟩ := Prod.mk.inj (Option.some.inj hfrom)
          rfl
  | store f =>
      simp only [System.advance] at hstep
      split at hstep
      · obtain ⟨x, -, heq⟩ := Option.map_eq_some_iff.mp hstep
        obtain ⟨-, rfl⟩ := Prod.mk.inj heq
        rfl
      · cases hstep
  | lock | unlock | trylock | isLocked | load =>
      simp only [System.advance] at hstep
      split at hstep
      · obtain ⟨-, rfl⟩ := Prod.mk.inj (Option.some.inj hstep)
        rfl
      · cases hstep

/-- The holders of a state are those of the run that reached it. -/
theorem run_holding (h : Run System.advance System.Valid (init d) tr s) :
    holding tr = s.holders := by
  refine h.induct (P := fun tr s => holding tr = s.holders) rfl ?_
  rintro tr s a r s' - ih - hstep
  rw [holding, List.foldl_append, ← holding, ih]
  exact hands_eq hstep

/-- **Mutual exclusion**: in every run of any number of threads, in whatever order their
instructions go, at most one thread holds the lock, and nobody does when the word is zero. -/
theorem run_alone (h : Run System.advance System.Valid (init d) tr s) :
    (holding tr).length ≤ 1 ∧ (s.locked = 0 → holding tr = []) := by
  obtain ⟨-, m, -, -, hm⟩ := run_matches h
  rw [run_holding h, hm.holders]
  refine ⟨Option.length_toList_le, fun hfree => ?_⟩
  rw [hm.owner_none hfree, Option.toList_none]

theorem run_alone_two : ∃ tr s,
    Run System.advance System.Valid (init 0 : System Bool ℕ) tr s ∧ s.holders = [false] ∧
      (holding tr).length ≤ 1 ∧ (s.locked = 0 → holding tr = []) := by
  have hrun : ∃ tr s, Run System.advance System.Valid (init 0 : System Bool ℕ) tr s ∧
      s.holders = [false] := exists_run_of_eval twoCounts (by decide)
  obtain ⟨tr, s, hrun, hholders⟩ := hrun
  exact ⟨tr, s, hrun, hholders, run_alone hrun⟩

/-- The thread has the lock after `n` instructions of its own, the last of which is that
`kylin_spinlock_lock` returns. -/
def Gets (s : System ι σ) (t : ι) (n : ℕ) : Prop :=
  ∃ tr s', runList System.advance s (List.replicate n (t, .step)) = some (tr, s') ∧
    s'.holders = [t] ∧ tr.getLast?.map Step.result = some .lock

section Progress
variable {s' : System ι σ} {t : ι} {n : ℕ}

theorem Gets.step {r : Result} (hstep : s.advanceFrom t (s.place t) = some (r, s'))
    (h : Gets s' t n) : Gets s t (n + 1) := by
  obtain ⟨tr, s'', hrun, hholders, hlast⟩ := h
  have hadvance : s.advance (t, .step) = some (r, s') := hstep
  have hne : tr ≠ [] := by
    rintro rfl
    cases hlast
  refine ⟨⟨s, (t, .step), r, s'⟩ :: tr, s'', ?_, hholders, ?_⟩
  · rw [List.replicate_succ, runList, hadvance]
    simp only [Option.bind_eq_bind, Option.bind_some, hrun]
  · rwa [List.getLast?_cons_of_ne_nil hne]

/-- The holder has one instruction left behind the test, -/
theorem gets_jz_true (hone : s.holders = [t]) {lv : ℤ} (hp : s.place t = .jz lv true) :
    Gets s t 1 := by
  have hstep : s.advance (t, .step) = some (.lock, s.goto t .idle) := by
    rw [System.advance, hp]
    rfl
  refine ⟨[⟨s, (t, .step), .lock, s.goto t .idle⟩], s.goto t .idle, ?_, hone, rfl⟩
  rw [List.replicate_one, runList, hstep]
  rfl

theorem gets_test (hone : s.holders = [t]) (hp : s.place t = .test 0) : Gets s t 2 := by
  have hfirst : s.advanceFrom t (s.place t) = some (.none, s.goto t (.jz 0 true)) := by
    rw [hp]
    rfl
  exact Gets.step hfirst (gets_jz_true hone (Function.update_self ..))

/-- and a thread at the `xchg` three. -/
theorem gets_xchg (hfree : s.locked = 0) (hnone : s.holders = []) {lv : ℤ}
    (hp : s.place t = .xchg lv) : Gets s t 3 := by
  have hfirst : s.advanceFrom t (s.place t) = some (.none, s.exchange t lv (.test 0)) := by
    rw [hp, System.advanceFrom, hfree]
  rw [System.exchange, if_pos hfree, hnone] at hfirst
  exact Gets.step hfirst (gets_test rfl (Function.update_self ..))

theorem gets_jmp (hfree : s.locked = 0) (hnone : s.holders = []) {lv : ℤ}
    (hp : s.place t = .jmp lv) : Gets s t 4 := by
  have hfirst : s.advanceFrom t (s.place t) = some (.none, s.goto t (.xchg lv)) := by
    rw [hp, System.advanceFrom]
  exact Gets.step hfirst (gets_xchg hfree hnone (Function.update_self ..))

theorem gets_jnz (hfree : s.locked = 0) (hnone : s.holders = []) {lv : ℤ}
    (hp : s.place t = .jnz lv true) : Gets s t 5 := by
  have hfirst : s.advanceFrom t (s.place t) = some (.none, s.goto t (.jmp lv)) := by
    rw [hp]
    rfl
  exact Gets.step hfirst (gets_jmp hfree hnone (Function.update_self ..))

/-- Where the word is looked at, six. -/
theorem gets_cmpl (hfree : s.locked = 0) (hnone : s.holders = []) {lv : ℤ}
    (hp : s.place t = .cmpl lv) : Gets s t 6 := by
  have hfirst : s.advanceFrom t (s.place t) = some (.none, s.goto t (.jnz lv true)) := by
    rw [hp, System.advanceFrom, decide_eq_true hfree]
  exact Gets.step hfirst (gets_jnz hfree hnone (Function.update_self ..))

theorem gets_pause (hfree : s.locked = 0) (hnone : s.holders = []) {lv : ℤ}
    (hp : s.place t = .pause lv) : Gets s t 7 := by
  have hfirst : s.advanceFrom t (s.place t) = some (.none, s.goto t (.cmpl lv)) := by
    rw [hp, System.advanceFrom]
  exact Gets.step hfirst (gets_cmpl hfree hnone (Function.update_self ..))

/-- Where a jump leads to the look at the word, eight. -/
theorem gets_jz (hfree : s.locked = 0) (hnone : s.holders = []) {lv : ℤ}
    (hp : s.place t = .jz lv false) : Gets s t 8 := by
  have hfirst : s.advanceFrom t (s.place t) = some (.none, s.goto t (.pause lv)) := by
    rw [hp]
    rfl
  exact Gets.step hfirst (gets_pause hfree hnone (Function.update_self ..))

/-- **A free lock is taken**: in every state that can be reached, a thread that is anywhere in
`kylin_spinlock_lock` has returned from it with the lock after at most nine of its instructions,
when the word is zero and no other thread comes in between. -/
theorem run_progress (h : Run System.advance System.Valid (init d) tr s) (hfree : s.locked = 0)
    (ht : (s.place t).Locks) : ∃ n ≤ 9, Gets s t n := by
  obtain ⟨-, m, -, -, hm⟩ := run_matches h
  have hnone : s.holders = [] := by rw [hm.holders, hm.owner_none hfree, Option.toList_none]
  have hwaits : (s.place t).Waits := by
    refine (hm.register t ht).resolve_right fun htook => ?_
    have hmem := hm.owns t (.inl htook)
    rw [hnone] at hmem
    cases hmem
  cases hp : s.place t with
  | idle | unlock | trylock =>
      rw [hp] at ht
      exact ht.elim
  | xchg lv => exact ⟨3, by decide, gets_xchg hfree hnone hp⟩
  | test lv =>
      rw [hp] at hwaits
      obtain rfl : lv = 1 := hwaits
      have hfirst : s.advanceFrom t (s.place t) = some (.none, s.goto t (.jz 1 false)) := by
        rw [hp]
        rfl
      exact ⟨9, by decide, .step hfirst (gets_jz hfree hnone (Function.update_self ..))⟩
  | jz lv zf =>
      rw [hp] at hwaits
      obtain ⟨rfl, rfl⟩ : lv = 1 ∧ zf = false := hwaits
      exact ⟨8, by decide, gets_jz hfree hnone hp⟩
  | pause lv => exact ⟨7, by decide, gets_pause hfree hnone hp⟩
  | cmpl lv => exact ⟨6, by decide, gets_cmpl hfree hnone hp⟩
  | jnz lv zf =>
      cases zf with
      | true => exact ⟨5, by decide, gets_jnz hfree hnone hp⟩
      | false =>
          have hfirst : s.advanceFrom t (s.place t) = some (.none, s.goto t (.pause lv)) := by
            rw [hp]
            rfl
          exact ⟨8, by decide, .step hfirst (gets_pause hfree hnone (Function.update_self ..))⟩
  | jmp lv => exact ⟨4, by decide, gets_jmp hfree hnone hp⟩

/-- A thread that has seen the lock taken, and then it is given back. -/
theorem run_progress_two : ∃ tr s,
    Run System.advance System.Valid (init 0 : System Bool ℕ) tr s ∧
      s.place false = .pause 1 ∧ ∃ n ≤ 9, Gets s false n := by
  have hrun : ∃ tr s, Run System.advance System.Valid (init 0 : System Bool ℕ) tr s ∧
      (s.locked = 0 ∧ s.place false = .pause 1) :=
    exists_run_of_eval [(true, .lock), (true, .step), (false, .lock), (false, .step),
      (true, .step), (true, .step), (false, .step), (false, .step), (true, .unlock),
      (true, .step)] (by decide)
  obtain ⟨tr, s, hrun, hfree, hplace⟩ := hrun
  have hlocks : (s.place false).Locks := by
    rw [hplace]
    trivial
  exact ⟨tr, s, hrun, hplace, run_progress hrun hfree hlocks⟩

end Progress

end Runs

end Kylin.Kspinlock
