import Kylin.Lib.Run
import Kylin.Lib.Heap
import Kylin.Lib.OrderedSet
import Kylin.Math.Val
import Mathlib.Order.Nat

/-!
# Timers

`lib/core/timer/kylin_timer.c` keeps, for each time source, the timers waiting to
expire in a tree ordered by `__timer_compare`, which looks at `expire` only.  The
tree is taken for what it is meant to be, an ordered set with unique keys: a
refused insertion changes nothing, and `kylin_rb_remove` also frees the timer it
removes.  Spin locks and tree accesses are recorded in a log.

`kylin_timer_stop` and `kylin_timer_destroy` look for a timer by its `expire`, which
is a delay before `kylin_timer_start` and a deadline after it.  So they may take out
an unrelated timer whose deadline happens to be equal.  `Apart` says that this does
not happen, and `run_agrees` that nothing else separates a timer's state from the
tree.

## Main definitions

* `Ktimer`, `Ktimer.World` — timers, and the memory, trees, locks and log.
* `create`, `destroy`, `start`, `stop` — the operations.
* `Agrees` — pending timers are the ones stored.
* `Apart` — the side condition on one call.
-/

namespace Kylin

open Lib

/-- `ktimer_src_t`, the time sources. -/
inductive KtimerSrc
  | tsc | hpet | soft
  deriving DecidableEq

/-- `ktimer_type_t`. -/
inductive KtimerType
  | single | periodical | blkSingle | blkPeriodical
  deriving DecidableEq

/-- `ktimer_state_t`. -/
inductive KtimerState
  | init | stop | pending | running
  deriving DecidableEq

/-- `ktimer_t`, less the callback and its argument. -/
structure Ktimer where
  expire : ℕ
  period : ℕ
  src : KtimerSrc
  type : KtimerType
  state : KtimerState

namespace Ktimer

/-- What the functions do besides their results. -/
inductive Event
  | lock (i : KtimerSrc)
  | unlock (i : KtimerSrc)
  /-- An access to `timer_pending_rb[i]`. -/
  | access (i : KtimerSrc)
  /-- A call of the callback of a timer. -/
  | exec (timer : ℕ)
  deriving DecidableEq

/-- The timers in memory, the trees `timer_pending_rb`, the spin locks and the log. -/
structure World where
  timers : Heap Ktimer
  pending : KtimerSrc → List ℕ
  held : KtimerSrc → Bool
  log : List Event

namespace World

/-- After `kylin_timer_init`: empty trees and free locks. -/
def init : World where
  timers := ⟨fun _ => none⟩
  pending := fun _ => []
  held := fun _ => false
  log := []

/-- The key of a timer in its tree. -/
def expireOf (w : World) (timer : ℕ) : ℕ := (w.timers.get timer).elim 0 expire

/-- Store to the fields of a timer. -/
def put (w : World) (timer : ℕ) (f : Ktimer → Ktimer) : World :=
  { w with timers := w.timers.map timer f }

/-- The world once the lock of `i` is taken. -/
def locked (w : World) (i : KtimerSrc) : World :=
  { w with held := Function.update w.held i true, log := w.log ++ [.lock i] }

/-- `kylin_spinlock_lock`, which spins for ever on a lock that is not given back. -/
def lock (w : World) (i : KtimerSrc) : Option World :=
  if w.held i then none else some (w.locked i)

/-- `kylin_spinlock_unlock`. -/
def unlock (w : World) (i : KtimerSrc) : World :=
  { w with held := Function.update w.held i false, log := w.log ++ [.unlock i] }

/-- The world with another tree for the source `i`. -/
def setPending (w : World) (i : KtimerSrc) (s : List ℕ) : World :=
  { w with pending := Function.update w.pending i s, log := w.log ++ [.access i] }

/-- `kylin_rb_insert` on the tree of `i`; the flag says whether it was inserted. -/
def rbInsert (w : World) (i : KtimerSrc) (timer : ℕ) : Bool × World :=
  match OrderedSet.insert w.expireOf timer (w.pending i) with
  | some s => (true, w.setPending i s)
  | none => (false, w.setPending i (w.pending i))

/-- `kylin_rb_unlink` on the tree of `i`: take out the timer that compares equal. -/
def rbUnlink (w : World) (i : KtimerSrc) (timer : ℕ) : Option ℕ × World :=
  (OrderedSet.lookup w.expireOf (w.expireOf timer) (w.pending i),
    w.setPending i (OrderedSet.erase w.expireOf (w.expireOf timer) (w.pending i)))

/-- `kylin_rb_remove` on the tree of `i`: take it out and free it. -/
def rbRemove (w : World) (i : KtimerSrc) (timer : ℕ) : Option World :=
  match w.rbUnlink i timer with
  | (none, w) => some w
  | (some found, w) => (w.timers.free found).map fun h => { w with timers := h }

/-! ## Operations -/

/-- `kylin_timer_create`, with `timer` the memory it is given.  That memory is
zero-filled, so the period of a timer of another type is zero. -/
def create (w : World) (timer expire : ℕ) (src : KtimerSrc) (type : KtimerType) : World :=
  let t : Ktimer :=
    { expire := expire
      period := if type = .periodical then expire else 0
      src := src
      type := type
      state := .init }
  { w with timers := w.timers.alloc timer t }

/-- `kylin_timer_destroy`.  It waits for ever for a running timer. -/
def destroy (w : World) (timer : ℕ) : Option World := do
  let t ← w.timers.get timer
  if t.state = .running then none
  else do
    let w ← w.lock t.src
    let w ← w.rbRemove t.src timer
    some (w.unlock t.src)

/-- `kylin_timer_start`, with `now` what `get_cycle` returns. -/
def start (w : World) (timer now : ℕ) : Option (Kerr × World) := do
  let t ← w.timers.get timer
  if t.state = .init then
    let w := w.put timer fun t => { t with expire := (t.expire + now) % 2 ^ 64 }
    let w ← w.lock t.src
    match w.rbInsert t.src timer with
    | (false, w) =>
        some (.nomem, (w.unlock t.src).put timer fun t' => { t' with expire := t.expire })
    | (true, w) => some (.ok, (w.unlock t.src).put timer fun t => { t with state := .pending })
  else some (.noent, w)

/-- `kylin_timer_stop`. -/
def stop (w : World) (timer : ℕ) : Option (Kerr × World) := do
  let t ← w.timers.get timer
  if t.state = .running then some (.noent, w)
  else
    let w ← w.lock t.src
    match w.rbUnlink t.src timer with
    | (none, w) => some (.inval, w.unlock t.src)
    | (some _, w) => some (.ok, (w.unlock t.src).put timer fun t => { t with state := .stop })

/-! ## Runs -/

/-- The calls on timers.  `timer` of `create` is the memory the allocator answers
with, and `now` of `start` what the clock reads. -/
inductive Call
  | create (timer expire : ℕ) (src : KtimerSrc) (type : KtimerType)
  | start (timer now : ℕ)
  | stop (timer : ℕ)
  | destroy (timer : ℕ)

/-- One call; the result is that of the functions returning `kerr_t`. -/
def step (w : World) : Call → Option (Option Kerr × World)
  | .create timer expire src type => some (none, w.create timer expire src type)
  | .start timer now => (w.start timer now).map fun (ret, w) => (some ret, w)
  | .stop timer => (w.stop timer).map fun (ret, w) => (some ret, w)
  | .destroy timer => (w.destroy timer).map fun w => (none, w)

/-- What callers and the allocator promise: new timers are new, others exist. -/
def Valid (w : World) : Call → Prop
  | .create timer _ _ _ => w.timers.get timer = none
  | .start timer _ | .stop timer | .destroy timer => (w.timers.get timer).isSome

/-- **States agree with the trees**: a timer is pending exactly when it is stored in
the tree of its source. -/
def Agrees (w : World) : Prop :=
  ∀ timer t, w.timers.get timer = some t → (t.state = .pending ↔ timer ∈ w.pending t.src)

/-- Stopping and destroying a timer take no other timer out of a tree. -/
def OnlyItself (e : Step World Call (Option Kerr)) : Prop :=
  match e.call with
  | .stop timer | .destroy timer =>
      ∀ i other, other ≠ timer → other ∈ e.before.pending i → other ∈ e.after.pending i
  | _ => True

/-- A timer that is stopped or destroyed is pending, or no timer pending on its
source has the same `expire`. -/
def Apart (w : World) : Call → Prop
  | .stop timer | .destroy timer => ∀ t, w.timers.get timer = some t → t.state = .pending ∨
      ∀ other ∈ w.pending t.src, w.expireOf other ≠ t.expire
  | _ => True

/-- The invariant: free locks, trees in ascending order that hold pending timers of
their source only, no running timer, and no pending timer outside its tree. -/
structure Inv (w : World) : Prop where
  free : ∀ i, w.held i = false
  ascending : ∀ i, OrderedSet.Ascending w.expireOf (w.pending i)
  stored : ∀ i, ∀ timer ∈ w.pending i,
    ∃ t, w.timers.get timer = some t ∧ t.src = i ∧ t.state = .pending
  pending : ∀ timer t, w.timers.get timer = some t → t.state = .pending →
    timer ∈ w.pending t.src
  idle : ∀ timer t, w.timers.get timer = some t → t.state ≠ .running

theorem inv_init : Inv init where
  free := fun _ => rfl
  ascending := fun _ => List.Pairwise.nil
  stored := fun _ _ h => by cases h
  pending := fun _ _ h => by cases h
  idle := fun _ _ h => by cases h

theorem expireOf_of_get {w : World} {timer : ℕ} {t : Ktimer} (h : w.timers.get timer = some t) :
    w.expireOf timer = t.expire := by
  rw [expireOf, h]
  rfl

/-- A change of state moves no timer in a tree. -/
theorem expireOf_put_state (w : World) (timer : ℕ) (state : KtimerState) :
    (w.put timer fun t => { t with state := state }).expireOf = w.expireOf := by
  funext a
  rw [expireOf, put, Heap.get_map, expireOf]
  split
  · cases w.timers.get a <;> rfl
  · rfl

namespace Inv
variable {w w' : World} {timer : ℕ} {t : Ktimer}

theorem agrees (h : Inv w) : w.Agrees := by
  intro timer t ht
  constructor
  · exact h.pending timer t ht
  · intro hmem
    obtain ⟨t', ht', -, hstate⟩ := h.stored _ timer hmem
    rw [Option.some.inj (ht.symm.trans ht')]
    exact hstate

/-- A timer that is not pending is in no tree. -/
theorem notMem (h : Inv w) (ht : w.timers.get timer = some t) (hstate : t.state ≠ .pending)
    (i : KtimerSrc) : timer ∉ w.pending i := by
  intro hmem
  obtain ⟨t', ht', -, hstate'⟩ := h.stored i timer hmem
  rw [Option.some.inj (ht.symm.trans ht')] at hstate
  exact hstate hstate'

/-- The invariant does not depend on the log, nor on a timer that is in no tree and
does not become pending or running. -/
theorem frame (timer : ℕ) (h : Inv w) (hout : ∀ i, timer ∉ w.pending i)
    (hheld : ∀ i, w'.held i = false) (hpending : w'.pending = w.pending)
    (hother : ∀ a, a ≠ timer → w'.timers.get a = w.timers.get a)
    (hself : ∀ t, w'.timers.get timer = some t → t.state ≠ .pending ∧ t.state ≠ .running) :
    Inv w' := by
  have hne : ∀ i, ∀ a ∈ w.pending i, a ≠ timer := fun i a ha hat => hout i (hat ▸ ha)
  refine ⟨hheld, ?_, ?_, ?_, ?_⟩
  · intro i
    rw [hpending]
    refine (h.ascending i).congr fun a ha => ?_
    rw [expireOf, expireOf, hother a (hne i a ha)]
  · intro i a ha
    rw [hpending] at ha
    rw [hother a (hne i a ha)]
    exact h.stored i a ha
  · intro a t hget hstate
    by_cases ha : a = timer
    · rw [ha] at hget
      exact absurd hstate (hself t hget).1
    · rw [hother a ha] at hget
      rw [hpending]
      exact h.pending a t hget hstate
  · intro a t hget
    by_cases ha : a = timer
    · rw [ha] at hget
      exact (hself t hget).2
    · rw [hother a ha] at hget
      exact h.idle a t hget

theorem lock_eq (h : Inv w) (i : KtimerSrc) : w.lock i = some (w.locked i) := by
  rw [lock, h.free i]
  rfl

theorem create (h : Inv w) (hfresh : w.timers.get timer = none) (expire : ℕ) (src : KtimerSrc)
    (type : KtimerType) : Inv (w.create timer expire src type) := by
  refine frame timer h ?_ h.free rfl (fun a ha => Heap.get_alloc_of_ne _ _ _ ha) ?_
  · intro i hmem
    obtain ⟨t, ht, -⟩ := h.stored i timer hmem
    rw [hfresh] at ht
    cases ht
  · intro t ht
    rw [World.create, Heap.get_alloc_self] at ht
    obtain rfl := Option.some.inj ht
    exact ⟨KtimerState.noConfusion, KtimerState.noConfusion⟩

/-- A timer put into the tree of its source. -/
theorem store {i : KtimerSrc} (h : Inv w) (hout : ∀ i, timer ∉ w.pending i)
    (hheld : ∀ i, w'.held i = false)
    (hother : ∀ a, a ≠ timer → w'.timers.get a = w.timers.get a)
    (hself : w'.timers.get timer = some t) (hsrc : t.src = i) (hstate : t.state = .pending)
    (hpending : w'.pending =
      Function.update w.pending i (OrderedSet.place w'.expireOf timer (w.pending i)))
    (hkey : ∀ a ∈ w.pending i, w.expireOf a ≠ t.expire) : Inv w' := by
  have hne : ∀ j, ∀ a ∈ w.pending j, a ≠ timer := fun j a ha hat => hout j (hat ▸ ha)
  have hexp : ∀ j, ∀ a ∈ w.pending j, w'.expireOf a = w.expireOf a := by
    intro j a ha
    rw [expireOf, expireOf, hother a (hne j a ha)]
  have hmem : ∀ j a, a ∈ w'.pending j ↔ (j = i ∧ a = timer) ∨ a ∈ w.pending j := by
    intro j a
    rw [hpending]
    by_cases hj : j = i
    · rw [hj, Function.update_self, OrderedSet.mem_place]
      simp
    · rw [Function.update_of_ne hj]
      simp [hj]
  refine ⟨hheld, ?_, ?_, ?_, ?_⟩
  · intro j
    have hasc := (h.ascending j).congr (hexp j)
    rw [hpending]
    by_cases hj : j = i
    · subst hj
      rw [Function.update_self]
      refine hasc.place fun a ha => ?_
      rw [hexp j a ha, expireOf_of_get hself]
      exact hkey a ha
    · rw [Function.update_of_ne hj]
      exact hasc
  · intro j a ha
    rcases (hmem j a).mp ha with ⟨rfl, rfl⟩ | ha
    · exact ⟨t, hself, hsrc, hstate⟩
    · rw [hother a (hne j a ha)]
      exact h.stored j a ha
  · intro a t' hget hst
    rw [hmem]
    by_cases ha : a = timer
    · rw [ha, hself] at hget
      rw [← Option.some.inj hget]
      exact Or.inl ⟨hsrc, ha⟩
    · rw [hother a ha] at hget
      exact Or.inr (h.pending a t' hget hst)
  · intro a t' hget
    by_cases ha : a = timer
    · rw [ha, hself] at hget
      rw [← Option.some.inj hget, hstate]
      exact KtimerState.noConfusion
    · rw [hother a ha] at hget
      exact h.idle a t' hget

/-- Removing a pending timer by its key removes this timer only. -/
theorem mem_erase_iff (h : Inv w) (ht : w.timers.get timer = some t) (hstate : t.state = .pending)
    (a : ℕ) :
    a ∈ OrderedSet.erase w.expireOf t.expire (w.pending t.src) ↔
      a ∈ w.pending t.src ∧ a ≠ timer := by
  have hmem := h.pending timer t ht hstate
  rw [OrderedSet.mem_erase]
  refine and_congr_right fun ha => not_congr ?_
  constructor
  · intro hkey
    exact (h.ascending t.src).eq_of_key_eq ha hmem (hkey.trans (expireOf_of_get ht).symm)
  · intro hat
    rw [hat]
    exact expireOf_of_get ht

/-- A pending timer taken out of its tree. -/
theorem takeOut (h : Inv w) (ht : w.timers.get timer = some t) (hstate : t.state = .pending)
    (hheld : ∀ i, w'.held i = false)
    (hother : ∀ a, a ≠ timer → w'.timers.get a = w.timers.get a)
    (hself : ∀ t, w'.timers.get timer = some t → t.state ≠ .pending ∧ t.state ≠ .running)
    (hpending : w'.pending = Function.update w.pending t.src
      (OrderedSet.erase w.expireOf t.expire (w.pending t.src))) : Inv w' := by
  have hmem : ∀ j a, a ∈ w'.pending j ↔ a ∈ w.pending j ∧ a ≠ timer := by
    intro j a
    rw [hpending]
    by_cases hj : j = t.src
    · rw [hj, Function.update_self]
      exact h.mem_erase_iff ht hstate a
    · rw [Function.update_of_ne hj]
      refine ⟨fun ha => ⟨ha, ?_⟩, And.left⟩
      rintro rfl
      obtain ⟨t', ht', hsrc, -⟩ := h.stored j a ha
      rw [Option.some.inj (ht'.symm.trans ht)] at hsrc
      exact hj hsrc.symm
  refine ⟨hheld, ?_, ?_, ?_, ?_⟩
  · intro j
    have hasc : OrderedSet.Ascending w.expireOf (w'.pending j) := by
      rw [hpending]
      by_cases hj : j = t.src
      · rw [hj, Function.update_self]
        exact (h.ascending t.src).erase
      · rw [Function.update_of_ne hj]
        exact h.ascending j
    refine hasc.congr fun a ha => ?_
    rw [expireOf, expireOf, hother a ((hmem j a).mp ha).2]
  · intro j a ha
    obtain ⟨ha, hat⟩ := (hmem j a).mp ha
    rw [hother a hat]
    exact h.stored j a ha
  · intro a t' hget hst
    by_cases ha : a = timer
    · rw [ha] at hget
      exact absurd hst (hself t' hget).1
    · rw [hother a ha] at hget
      exact (hmem _ a).mpr ⟨h.pending a t' hget hst, ha⟩
  · intro a t' hget
    by_cases ha : a = timer
    · rw [ha] at hget
      exact (hself t' hget).2
    · rw [hother a ha] at hget
      exact h.idle a t' hget

theorem held_update (h : Inv w) (i j : KtimerSrc) :
    Function.update (Function.update w.held i true) i false j = false := by
  rw [Function.update_idem]
  by_cases hj : j = i
  · rw [hj, Function.update_self]
  · rw [Function.update_of_ne hj]
    exact h.free j

/-- **Starting** a timer keeps the invariant: it is stored and pending, or refused
and as before. -/
theorem start_spec (h : Inv w) (ht : w.timers.get timer = some t) (now : ℕ) :
    ∃ ret w', w.start timer now = some (ret, w') ∧ Inv w' := by
  by_cases hinit : t.state = .init
  · have hout := h.notMem ht (by rw [hinit]; exact KtimerState.noConfusion)
    -- the world in which the tree is searched
    let w₁ : World :=
      (w.put timer fun t => { t with expire := (t.expire + now) % 2 ^ 64 }).locked t.src
    have hlock : (w.put timer fun t => { t with expire := (t.expire + now) % 2 ^ 64 }).lock t.src =
        some w₁ := by
      rw [lock]
      exact if_neg (by simpa [put] using h.free t.src)
    have hget₁ : w₁.timers.get timer = some { t with expire := (t.expire + now) % 2 ^ 64 } := by
      simp [w₁, locked, put, ht]
    have hother₁ : ∀ a, a ≠ timer → w₁.timers.get a = w.timers.get a :=
      fun a ha => Heap.get_map_of_ne _ _ _ ha
    have hexp₁ : ∀ a ∈ w.pending t.src, w₁.expireOf a = w.expireOf a := by
      intro a ha
      have hat : a ≠ timer := fun hat => hout t.src (hat ▸ ha)
      rw [expireOf, expireOf, hother₁ a hat]
    rw [start, ht]
    simp only [Option.bind_eq_bind, Option.bind_some, if_pos hinit, hlock]
    cases hins : OrderedSet.insert w₁.expireOf timer (w₁.pending t.src) with
    | none =>
        simp only [rbInsert, hins]
        refine ⟨_, _, rfl, frame timer h hout (h.held_update t.src) ?_ ?_ ?_⟩
        · exact Function.update_eq_self t.src w.pending
        · intro a ha
          exact (Heap.get_map_of_ne _ _ _ ha).trans (hother₁ a ha)
        · intro t' ht'
          change ((w₁.timers.map timer _).get timer) = some t' at ht'
          rw [Heap.get_map_self, hget₁] at ht'
          rw [← Option.some.inj ht']
          exact ⟨by simp [hinit], by simp [hinit]⟩
    | some s =>
        simp only [rbInsert, hins]
        have hfree : OrderedSet.lookup w₁.expireOf (w₁.expireOf timer) (w₁.pending t.src) =
            none := by
          by_contra hne
          rw [OrderedSet.insert, if_pos (Option.isSome_iff_ne_none.mpr hne)] at hins
          cases hins
        have hs : s = OrderedSet.place w₁.expireOf timer (w₁.pending t.src) := by
          rw [OrderedSet.insert, hfree] at hins
          exact (Option.some.inj hins).symm
        refine ⟨_, _, rfl, h.store hout (h.held_update t.src) ?_
          (t := { t with expire := (t.expire + now) % 2 ^ 64, state := .pending }) ?_ rfl rfl ?_ ?_⟩
        · intro a ha
          exact (Heap.get_map_of_ne _ _ _ ha).trans (hother₁ a ha)
        · change (w₁.timers.map timer _).get timer = _
          rw [Heap.get_map_self, hget₁]
          rfl
        · rw [expireOf_put_state]
          exact congrArg (Function.update w.pending t.src) hs
        · intro a ha
          rw [← hexp₁ a ha]
          have := OrderedSet.lookup_eq_none_iff.mp hfree a ha
          rwa [expireOf_of_get hget₁] at this
  · refine ⟨.noent, w, ?_, h⟩
    simp [start, ht, hinit]

/-- The search of `kylin_rb_unlink` in a state that keeps timers apart: it finds the
timer itself if that is pending, and nothing otherwise. -/
theorem lookup_eq (h : Inv w) (ht : w.timers.get timer = some t)
    (hapart : t.state = .pending ∨ ∀ other ∈ w.pending t.src, w.expireOf other ≠ t.expire) :
    OrderedSet.lookup w.expireOf t.expire (w.pending t.src) =
      if t.state = .pending then some timer else none := by
  by_cases hstate : t.state = .pending
  · rw [if_pos hstate]
    exact (OrderedSet.lookup_eq_some_iff (h.ascending t.src)).mpr
      ⟨h.pending timer t ht hstate, expireOf_of_get ht⟩
  · rw [if_neg hstate]
    exact OrderedSet.lookup_eq_none_iff.mpr (hapart.resolve_left hstate)

/-- Where nothing compares equal, removal by key changes nothing. -/
theorem erase_eq_self (hkey : ∀ other ∈ w.pending t.src, w.expireOf other ≠ t.expire) :
    OrderedSet.erase w.expireOf t.expire (w.pending t.src) = w.pending t.src := by
  rw [OrderedSet.erase, List.filter_eq_self]
  intro a ha
  simpa using hkey a ha

theorem rbUnlink_eq (h : Inv w) (ht : w.timers.get timer = some t)
    (hapart : t.state = .pending ∨ ∀ other ∈ w.pending t.src, w.expireOf other ≠ t.expire) :
    (w.locked t.src).rbUnlink t.src timer =
      (if t.state = .pending then some timer else none,
        (w.locked t.src).setPending t.src
          (OrderedSet.erase w.expireOf t.expire (w.pending t.src))) := by
  have hkey : (w.locked t.src).expireOf timer = t.expire := expireOf_of_get ht
  rw [rbUnlink, hkey, ← h.lookup_eq ht hapart]
  rfl

/-- What a removal by key leaves in the trees. -/
theorem mem_pending_erase (h : Inv w) (ht : w.timers.get timer = some t)
    (hapart : t.state = .pending ∨ ∀ other ∈ w.pending t.src, w.expireOf other ≠ t.expire)
    (i : KtimerSrc) (other : ℕ) (hne : other ≠ timer) (hmem : other ∈ w.pending i) :
    other ∈ Function.update w.pending t.src
      (OrderedSet.erase w.expireOf t.expire (w.pending t.src)) i := by
  by_cases hi : i = t.src
  · subst hi
    rw [Function.update_self]
    by_cases hstate : t.state = .pending
    · exact (h.mem_erase_iff ht hstate other).mpr ⟨hmem, hne⟩
    · rwa [erase_eq_self (hapart.resolve_left hstate)]
  · rwa [Function.update_of_ne hi]

/-- A removal that finds nothing. -/
theorem missed (h : Inv w) (ht : w.timers.get timer = some t) (hstate : t.state ≠ .pending)
    (hapart : ∀ other ∈ w.pending t.src, w.expireOf other ≠ t.expire) :
    Inv (((w.locked t.src).setPending t.src
      (OrderedSet.erase w.expireOf t.expire (w.pending t.src))).unlock t.src) := by
  refine frame timer h (h.notMem ht hstate) (h.held_update t.src) ?_ (fun _ _ => rfl) ?_
  · change Function.update w.pending t.src _ = _
    rw [erase_eq_self hapart, Function.update_eq_self]
  · intro t' ht'
    rw [Option.some.inj (ht'.symm.trans ht)]
    exact ⟨hstate, h.idle timer t ht⟩

/-- **Stopping** a timer that is kept apart. -/
theorem stop_spec (h : Inv w) (ht : w.timers.get timer = some t)
    (hapart : t.state = .pending ∨ ∀ other ∈ w.pending t.src, w.expireOf other ≠ t.expire) :
    ∃ ret w', w.stop timer = some (ret, w') ∧ Inv w' ∧
      ∀ i other, other ≠ timer → other ∈ w.pending i → other ∈ w'.pending i := by
  have hidle := h.idle timer t ht
  have hkeep := h.mem_pending_erase ht hapart
  rw [stop, ht]
  simp only [Option.bind_eq_bind, Option.bind_some, if_neg hidle, h.lock_eq,
    h.rbUnlink_eq ht hapart]
  by_cases hstate : t.state = .pending
  · simp only [if_pos hstate]
    refine ⟨_, _, rfl, h.takeOut ht hstate (h.held_update t.src) ?_ ?_ rfl, hkeep⟩
    · exact fun a ha => Heap.get_map_of_ne _ _ _ ha
    · intro t' ht'
      change (w.timers.map timer _).get timer = some t' at ht'
      rw [Heap.get_map_self, ht] at ht'
      rw [← Option.some.inj ht']
      exact ⟨KtimerState.noConfusion, KtimerState.noConfusion⟩
  · simp only [if_neg hstate]
    exact ⟨_, _, rfl, h.missed ht hstate (hapart.resolve_left hstate), hkeep⟩

/-- **Destroying** a timer that is kept apart. -/
theorem destroy_spec (h : Inv w) (ht : w.timers.get timer = some t)
    (hapart : t.state = .pending ∨ ∀ other ∈ w.pending t.src, w.expireOf other ≠ t.expire) :
    ∃ w', w.destroy timer = some w' ∧ Inv w' ∧
      ∀ i other, other ≠ timer → other ∈ w.pending i → other ∈ w'.pending i := by
  have hidle := h.idle timer t ht
  have hkeep := h.mem_pending_erase ht hapart
  rw [destroy, ht]
  simp only [Option.bind_eq_bind, Option.bind_some, if_neg hidle, h.lock_eq, rbRemove,
    h.rbUnlink_eq ht hapart]
  by_cases hstate : t.state = .pending
  · have hfree : ((w.locked t.src).setPending t.src
        (OrderedSet.erase w.expireOf t.expire (w.pending t.src))).timers.free timer =
          some ⟨Function.update w.timers.get timer none⟩ :=
      Heap.free_of_isSome w.timers (by rw [ht]; rfl)
    simp only [if_pos hstate, hfree, Option.map_some, Option.bind_some]
    refine ⟨_, rfl, h.takeOut ht hstate (h.held_update t.src) ?_ ?_ rfl, hkeep⟩
    · exact fun a ha => Function.update_of_ne ha _ _
    · intro t' ht'
      change Function.update w.timers.get timer none timer = some t' at ht'
      rw [Function.update_self] at ht'
      cases ht'
  · simp only [if_neg hstate, Option.bind_some]
    exact ⟨_, rfl, h.missed ht hstate (hapart.resolve_left hstate), hkeep⟩

/-- **One call** that is valid and keeps timers apart. -/
theorem step_spec (h : Inv w) {c : Call} (hv : w.Valid c) (ha : w.Apart c) :
    ∃ r w', w.step c = some (r, w') ∧ Inv w' ∧ OnlyItself ⟨w, c, r, w'⟩ := by
  cases c with
  | create timer expire src type => exact ⟨_, _, rfl, h.create hv expire src type, trivial⟩
  | start timer now =>
      obtain ⟨t, ht⟩ := Option.isSome_iff_exists.mp hv
      obtain ⟨ret, w', hs, h'⟩ := h.start_spec ht now
      exact ⟨some ret, w', by simp [step, hs], h', trivial⟩
  | stop timer =>
      obtain ⟨t, ht⟩ := Option.isSome_iff_exists.mp hv
      obtain ⟨ret, w', hs, h', hkeep⟩ := h.stop_spec ht (ha t ht)
      exact ⟨some ret, w', by simp [step, hs], h', hkeep⟩
  | destroy timer =>
      obtain ⟨t, ht⟩ := Option.isSome_iff_exists.mp hv
      obtain ⟨w', hs, h', hkeep⟩ := h.destroy_spec ht (ha t ht)
      exact ⟨none, w', by simp [step, hs], h', hkeep⟩

end Inv

/-- **Timer states agree with the trees** along every run that keeps timers apart;
no call takes out a timer other than its own, and every such call returns. -/
theorem run_agrees {tr : List (Step World Call (Option Kerr))} {w : World}
    (h : Run step (fun w c => w.Valid c ∧ w.Apart c) init tr w) :
    w.Agrees ∧ (∀ e ∈ tr, OnlyItself e) ∧
      ∀ c, w.Valid c → w.Apart c → (w.step c).isSome := by
  have hinv : Inv w ∧ ∀ e ∈ tr, OnlyItself e := by
    refine h.invariant_steps inv_init ?_
    intro w c r w' hI hok hs
    obtain ⟨r', w'', hs', hI', honly⟩ := hI.step_spec hok.1 hok.2
    rw [hs'] at hs
    obtain ⟨rfl, rfl⟩ := Prod.mk.inj (Option.some.inj hs)
    exact ⟨hI', honly⟩
  refine ⟨hinv.1.agrees, hinv.2, ?_⟩
  intro c hv ha
  obtain ⟨r, w', hs, -⟩ := hinv.1.step_spec hv ha
  simp [hs]

/-- Two timers started at different times; the first is stopped and destroyed. -/
theorem run_agrees_two :
    ∃ (w : World) (t : Ktimer), w.timers.get 2 = some t ∧ t.state = .pending ∧
      w.pending .tsc = [2] ∧ w.Agrees := by
  have hrun : Run step (fun w c => w.Valid c ∧ w.Apart c) init _ _ :=
    run_of_runList [.create 1 5 .tsc .single, .create 2 5 .tsc .single, .start 1 100,
      .start 2 200, .stop 1, .destroy 1] rfl (by
        simp only [List.forall_mem_cons]
        refine ⟨⟨rfl, trivial⟩, ⟨rfl, trivial⟩, ⟨rfl, trivial⟩, ⟨rfl, trivial⟩, ⟨rfl, ?_⟩,
          ⟨rfl, ?_⟩, by simp⟩
        · rintro t ⟨⟩
          exact Or.inl rfl
        · rintro t ⟨⟩
          exact Or.inr (by decide))
  exact ⟨_, _, rfl, rfl, rfl, (run_agrees hrun).1⟩

/-- A timer never started, with a delay equal to the deadline of another: stopping it
takes the other one out of the tree. -/
theorem stop_takes_another :
    ∃ (tr : List (Step World Call (Option Kerr))) (w : World),
      Run step Valid init tr w ∧ ¬ w.Agrees ∧ ∃ e ∈ tr, ¬ OnlyItself e := by
  refine ⟨_, _, run_of_runList [.create 1 5 .tsc .single, .start 1 100,
    .create 2 105 .tsc .single, .stop 2] rfl (by
      simp only [List.forall_mem_cons]
      exact ⟨rfl, rfl, rfl, rfl, by simp⟩), ?_, ?_⟩
  · intro h
    exact absurd ((h 1 _ rfl).mp rfl) (by decide)
  · refine ⟨_, List.mem_cons_of_mem _ (List.mem_cons_of_mem _ (List.mem_cons_of_mem _
      List.mem_cons_self)), fun h => ?_⟩
    exact absurd (h .tsc 1 (by decide) (by decide)) (by decide)

end World

end Ktimer

end Kylin
