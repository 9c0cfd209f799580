import Kylin.Timer.Schedule

/-!
# The locks of the timer trees

Every tree `timer_pending_rb[i]` is guarded by `lock[i]`.  What a caller does to the
locks and trees is in the log, so the discipline is a property of the log: `hold`
follows one lock through it and has no answer for an access or an unlock by a caller
that does not hold the lock.

Here the trees are not taken for what they are meant to be.  A tree function may fail
for lack of memory and need not come back, `kylin_rb_insert` frees a timer that it
refuses because an equal one is stored (`Krb.World.insert_rejected`), and
`kylin_rb_min` returns a null pointer, whatever the tree holds
(`Krb.World.run_min`).  So what a caller has done is an `Except`: the world it has
returned with, or the one that it did not get further than.

`kylin_timer_stop` and `kylin_timer_destroy` keep the discipline, and
`kylin_timer_start` does but for one case: when the timer is refused, the lock that is
given back is the one that freed memory names.  `__kylin_timer_schedule` gives its lock
back inside the loop only, and the loop has no turn.

## Main definitions

* `hold`, `Disciplined` — the discipline.
* `Answers` — what the trees, the allocator and freed memory answer.
* `startTrace`, `stopTrace`, `destroyTrace`, `passTrace` — the functions, as far as they went.
* `Entry`, `LockOk` — the functions that use the locks, and what they should do.

## Main results

* `startTrace_eq`, `stopTrace_eq`, `destroyTrace_eq`, `scheduleTrace_toOption` — with the trees
  taken for ordered sets, these are the functions.
* `lockOk_iff` — when the discipline is kept.
-/

namespace Kylin.Ktimer.World

open Lib

/-- Whether its caller holds the lock of `i` after an event; `none` is an access to the
tree or an unlock without the lock. -/
def hold (i : KtimerSrc) (held : Bool) : Event → Option Bool
  | .lock j => some (held || j = i)
  | .unlock j => if j = i then (if held then some false else none) else some held
  | .access j => if j = i ∧ held = false then none else some held
  | .exec _ => some held

/-- The world a trace has reached, at its end or when it was cut. -/
def reached : Except World World → World
  | .ok w => w
  | .error w => w

/-- **The lock discipline** of a caller that started in `w`: it accesses trees and gives
locks back only while it holds the lock, and at its end all locks are free. -/
def Disciplined (w : World) (r : Except World World) : Prop :=
  ∃ new, (reached r).log = w.log ++ new ∧ ∀ i, ∃ held, new.foldlM (hold i) false = some held ∧
    ∀ w', r = .ok w' → held = false ∧ w'.held i = false

/-! ## The calls as far as they went -/

/-- What a call meets besides the timers: whether there is memory for a node of a tree, whether
the tree functions come back, and what is read for `src` from a timer that was freed. -/
structure Answers where
  memory : Bool
  returns : Bool
  stale : KtimerSrc

/-- `timer->src`. -/
def srcOf (w : World) (timer : ℕ) (stale : KtimerSrc) : KtimerSrc :=
  (w.timers.get timer).elim stale src

/-- `kylin_rb_insert` on the tree of `i`, with the timer freed when an equal one is stored. -/
def insertTrace (ans : Answers) (w : World) (i : KtimerSrc) (timer : ℕ) :
    Except World (Bool × World) :=
  if ans.returns = false then .error (w.setPending i (w.pending i))
  else if ans.memory = false then .ok (false, w.setPending i (w.pending i))
  else match w.rbInsert i timer with
    | (true, w) => .ok (true, w)
    | (false, w) =>
        match w.timers.free timer with
        | none => .error w
        | some h => .ok (false, { w with timers := h })

/-- A timer with its deadline in place of its delay. -/
def armed (w : World) (timer now : ℕ) : World :=
  w.put timer fun t => { t with expire := (t.expire + now) % 2 ^ 64 }

/-- `kylin_timer_start`. -/
def startTrace (ans : Answers) (w : World) (timer now : ℕ) : Except World World :=
  match w.timers.get timer with
  | none => .error w
  | some t =>
      if t.state = .init then
        let w := w.armed timer now
        match w.lock t.src with
        | none => .error w
        | some w =>
            match insertTrace ans w t.src timer with
            | .error w => .error w
            | .ok (inserted, w) =>
                let w := w.unlock (w.srcOf timer ans.stale)
                if inserted then .ok (w.put timer fun t => { t with state := .pending })
                else .ok (w.put timer fun t' => { t' with expire := t.expire })
      else .ok w

/-- `kylin_timer_stop`. -/
def stopTrace (ans : Answers) (w : World) (timer : ℕ) : Except World World :=
  match w.timers.get timer with
  | none => .error w
  | some t =>
      if t.state = .running then .ok w
      else match w.lock t.src with
        | none => .error w
        | some w =>
            if ans.returns = false then .error (w.setPending t.src (w.pending t.src))
            else match w.rbUnlink t.src timer with
              | (none, w) => .ok (w.unlock t.src)
              | (some _, w) => .ok ((w.unlock t.src).put timer fun t => { t with state := .stop })

/-- `kylin_timer_destroy`, which waits for ever for a running timer. -/
def destroyTrace (ans : Answers) (w : World) (timer : ℕ) : Except World World :=
  match w.timers.get timer with
  | none => .error w
  | some t =>
      if t.state = .running then .error w
      else match w.lock t.src with
        | none => .error w
        | some w =>
            if ans.returns = false then .error (w.setPending t.src (w.pending t.src))
            else match w.rbRemove t.src timer with
              | none => .error (w.setPending t.src (w.pending t.src))
              | some w => .ok (w.unlock t.src)

/-! ## Passes as far as they went -/

/-- `kylin_rb_min`: no function writes the field that it returns. -/
def kylinRbMin (_ : List ℕ) : Option ℕ := none

/-- `insertBump`, with the world reached when `fuel` turns were not enough. -/
def insertBumpTrace (i : KtimerSrc) (timer : ℕ) : ℕ → World → Except World World
  | 0, w => .error w
  | fuel + 1, w =>
      match w.rbInsert i timer with
      | (true, w) => .ok w
      | (false, w) =>
          insertBumpTrace i timer fuel
            (w.put timer fun t => { t with expire := (t.expire + 1) % 2 ^ 64 })

/-- `scheduleLoop` with another `kylin_rb_min`, and with the world reached when `fuel` turns were
not enough. -/
def scheduleTrace (min : List ℕ → Option ℕ) (i : KtimerSrc) (now : ℕ) :
    ℕ → World → Except World World
  | 0, w => .error w
  | fuel + 1, w =>
      let w := w.setPending i (w.pending i)
      match min (w.pending i) with
      | none => .ok w
      | some timer =>
          match w.timers.get timer with
          | none => .error w
          | some t =>
              if now < t.expire then .ok (w.unlock i)
              else
                let w := w.runTimer i timer
                if t.period = 0 then
                  let w := w.put timer fun t =>
                    { t with expire := (t.period + now) % 2 ^ 64, state := .pending }
                  match w.lock i with
                  | none => .error w
                  | some w =>
                      match insertBumpTrace i timer fuel w with
                      | .error w => .error w
                      | .ok w => scheduleTrace min i now fuel (w.unlock i)
                else scheduleTrace min i now fuel (w.put timer fun t => { t with state := .stop })

/-- The pass of `__kylin_timer_schedule` over the source `i`. -/
def passTrace (fuel : ℕ) (w : World) (i : KtimerSrc) (now : ℕ) : Except World World :=
  match w.lock i with
  | none => .error w
  | some w => scheduleTrace kylinRbMin i now fuel w

theorem insertBumpTrace_toOption (i : KtimerSrc) (timer : ℕ) :
    ∀ fuel w, (insertBumpTrace i timer fuel w).toOption = insertBump i timer fuel w := by
  intro fuel
  induction fuel with
  | zero => exact fun _ => rfl
  | succ fuel ih =>
      intro w
      rw [insertBumpTrace, insertBump]
      cases w.rbInsert i timer with
      | mk inserted w₁ =>
          cases inserted with
          | true => rfl
          | false => exact ih _

/-- **With the least timer, a trace that ends is the loop.** -/
theorem scheduleTrace_toOption (i : KtimerSrc) (now : ℕ) :
    ∀ fuel w, (scheduleTrace List.head? i now fuel w).toOption = scheduleLoop i now fuel w := by
  intro fuel
  induction fuel with
  | zero => exact fun _ => rfl
  | succ fuel ih =>
      intro w
      simp only [scheduleTrace, scheduleLoop]
      cases hp : (w.setPending i (w.pending i)).pending i with
      | nil => rfl
      | cons timer rest =>
          dsimp only [List.head?_cons]
          cases ht : (w.setPending i (w.pending i)).timers.get timer with
          | none => rfl
          | some t =>
              simp only [Option.bind_eq_bind, Option.bind_some]
              by_cases hdue : now < t.expire
              · rw [if_pos hdue, if_pos hdue]
                rfl
              · rw [if_neg hdue, if_neg hdue, get_runTimer_self i ht, Option.bind_some]
                by_cases hperiod : t.period = 0
                · rw [if_pos hperiod, if_pos hperiod]
                  cases hl : ((World.runTimer _ i timer).put timer _).lock i with
                  | none => rfl
                  | some w₁ =>
                      rw [Option.bind_some, ← insertBumpTrace_toOption]
                      dsimp only
                      cases hb : insertBumpTrace i timer fuel w₁ with
                      | error => rfl
                      | ok w₂ => exact ih _
                · rw [if_neg hperiod, if_neg hperiod]
                  exact ih _

/-! ## Ordered sets -/

/-- The trees have memory and come back. -/
def plain : Answers := ⟨true, true, .tsc⟩

theorem rbInsert_spec (w : World) (i : KtimerSrc) (timer : ℕ) :
    (w.rbInsert i timer).2.log = w.log ++ [.access i] ∧
      (w.rbInsert i timer).2.held = w.held ∧ (w.rbInsert i timer).2.timers = w.timers := by
  rw [rbInsert]
  split <;> exact ⟨rfl, rfl, rfl⟩

section Plain
variable {w w' : World} {timer : ℕ} {t : Ktimer}

/-- The source of a timer that is in memory. -/
theorem srcOf_armed (ht : w.timers.get timer = some t) {now : ℕ}
    (h : w'.timers = (w.armed timer now).timers) (stale : KtimerSrc) :
    w'.srcOf timer stale = t.src := by
  rw [srcOf, h, armed, put, Heap.get_map_self, ht]
  rfl

theorem timers_of_lock {i : KtimerSrc} (h : w.lock i = some w') : w'.timers = w.timers := by
  rw [lock] at h
  split at h
  · cases h
  · rw [← Option.some.inj h]
    rfl

/-- **A timer that is not refused**: the trace is the call on an ordered set. -/
theorem startTrace_eq {now : ℕ} (h : w.start timer now = some (.ok, w')) :
    startTrace plain w timer now = .ok w' := by
  obtain ⟨t, ht, h⟩ := Option.bind_eq_some_iff.mp h
  by_cases hstate : t.state = .init
  · rw [if_pos hstate] at h
    obtain ⟨w₁, hlock, h⟩ := Option.bind_eq_some_iff.mp h
    change (w.armed timer now).lock t.src = some w₁ at hlock
    have htimers := (rbInsert_spec w₁ t.src timer).2.2.trans (timers_of_lock hlock)
    cases hins : w₁.rbInsert t.src timer with
    | mk inserted w₂ =>
        rw [hins] at h htimers
        cases inserted with
        | false => cases h
        | true =>
            cases h
            simp [startTrace, ht, hstate, hlock, insertTrace, plain, hins, srcOf_armed ht htimers]
  · rw [if_neg hstate] at h
    cases h

theorem stopTrace_eq {ret : Kerr} (h : w.stop timer = some (ret, w')) :
    stopTrace plain w timer = .ok w' := by
  obtain ⟨t, ht, h⟩ := Option.bind_eq_some_iff.mp h
  by_cases hstate : t.state = .running
  · rw [if_pos hstate] at h
    cases h
    simp [stopTrace, ht, hstate]
  · rw [if_neg hstate] at h
    obtain ⟨w₁, hlock, h⟩ := Option.bind_eq_some_iff.mp h
    cases hun : w₁.rbUnlink t.src timer with
    | mk found w₂ =>
        rw [hun] at h
        cases found <;> cases h <;> simp [stopTrace, ht, hstate, hlock, plain, hun]

theorem destroyTrace_eq (h : w.destroy timer = some w') :
    destroyTrace plain w timer = .ok w' := by
  obtain ⟨t, ht, h⟩ := Option.bind_eq_some_iff.mp h
  by_cases hstate : t.state = .running
  · rw [if_pos hstate] at h
    cases h
  · rw [if_neg hstate] at h
    obtain ⟨w₁, hlock, h⟩ := Option.bind_eq_some_iff.mp h
    obtain ⟨w₂, hremove, h⟩ := Option.bind_eq_some_iff.mp h
    cases h
    simp [destroyTrace, ht, hstate, hlock, plain, hremove]

end Plain

/-! ## The discipline -/

/-- What uses the locks: the three calls on a timer, one pass, and the thread with its
passes over all sources. -/
inductive Entry
  | start (timer now : ℕ)
  | stop (timer : ℕ)
  | destroy (timer : ℕ)
  | pass (i : KtimerSrc) (now : ℕ)
  | schedule (getCycle : KtimerSrc → ℕ)

/-- Every one of some passes made in a row keeps the discipline. -/
def PassesOk (fuel : ℕ) (getCycle : KtimerSrc → ℕ) : World → List KtimerSrc → Prop
  | _, [] => True
  | w, i :: is => Disciplined w (passTrace fuel w i (getCycle i)) ∧
      ∀ w', passTrace fuel w i (getCycle i) = .ok w' → PassesOk fuel getCycle w' is

/-- The trees and locks between two calls: free locks, and trees of timers. -/
structure Settled (w : World) : Prop where
  free : ∀ i, w.held i = false
  stored : ∀ i, ∀ timer ∈ w.pending i, (w.timers.get timer).isSome

/-- The timer a call is about exists. -/
def OnTimer (w : World) : Entry → Prop
  | .start timer _ | .stop timer | .destroy timer => (w.timers.get timer).isSome
  | .pass _ _ | .schedule _ => True

/-- A call that has kept the discipline as far as it went, and returns when the trees do. -/
def Keeps (w : World) (ans : Answers) (r : Except World World) : Prop :=
  Disciplined w r ∧ (ans.returns = true → ∃ w', r = .ok w')

/-- **The discipline is kept**, whatever the trees answer, except that
`kylin_timer_destroy` waits for a timer that is running before it does anything. -/
def LockOk (w : World) : Entry → Prop
  | .start timer now => ∀ ans, Keeps w ans (startTrace ans w timer now)
  | .stop timer => ∀ ans, Keeps w ans (stopTrace ans w timer)
  | .destroy timer => (∃ t, w.timers.get timer = some t ∧ t.state = .running) ∨
      ∀ ans, Keeps w ans (destroyTrace ans w timer)
  | .pass i now => ∀ fuel, Disciplined w (passTrace fuel w i now)
  | .schedule getCycle => ∀ fuel, PassesOk fuel getCycle w [.tsc, .hpet, .soft]

/-- A timer that is to be started has a deadline that no timer in its tree has; and the entry is
no pass. -/
def Distinct (w : World) : Entry → Prop
  | .start timer now => ∀ t, w.timers.get timer = some t → t.state = .init →
      ∀ other ∈ w.pending t.src,
        (w.armed timer now).expireOf other ≠ (w.armed timer now).expireOf timer
  | .stop _ | .destroy _ => True
  | .pass _ _ | .schedule _ => False

/-- The log of a balanced access keeps the discipline. -/
theorem foldlM_hold_balanced (i j : KtimerSrc) :
    [Event.lock j, .access j, .unlock j].foldlM (hold i) false = some false := by
  by_cases h : j = i <;> simp [hold, h]

/-- Nothing but the lock of `j` changed, and it is free again. -/
theorem Keeps.balanced {w w' : World} {ans : Answers} (j : KtimerSrc) (hw : w.Settled)
    (hlog : w'.log = w.log ++ [.lock j, .access j, .unlock j])
    (hheld : w'.held = Function.update (Function.update w.held j true) j false) :
    Keeps w ans (.ok w') := by
  refine ⟨⟨[.lock j, .access j, .unlock j], hlog, ?_⟩, fun _ => ⟨w', rfl⟩⟩
  intro i
  refine ⟨false, foldlM_hold_balanced i j, ?_⟩
  intro w'' h
  obtain rfl := Except.ok.inj h
  refine ⟨rfl, ?_⟩
  rw [hheld]
  by_cases h : i = j
  · rw [h, Function.update_self]
  · rw [Function.update_of_ne h, Function.update_of_ne h, hw.free]

/-- A tree function that does not come back. -/
theorem Keeps.stuck {w w' : World} {ans : Answers} (j : KtimerSrc)
    (hlog : w'.log = w.log ++ [.lock j, .access j]) (hans : ans.returns = false) :
    Keeps w ans (.error w') := by
  refine ⟨⟨[.lock j, .access j], hlog, ?_⟩, fun h => ?_⟩
  · intro i
    refine ⟨j = i, ?_, nofun⟩
    by_cases h : j = i <;> simp [hold, h]
  · rw [hans] at h
    cases h

/-- A call that does nothing to locks and trees. -/
theorem Keeps.refl {w : World} {ans : Answers} (hw : w.Settled) : Keeps w ans (.ok w) := by
  refine ⟨⟨[], (List.append_nil _).symm, ?_⟩, fun _ => ⟨w, rfl⟩⟩
  intro i
  refine ⟨false, rfl, ?_⟩
  intro w' h
  obtain rfl := Except.ok.inj h
  exact ⟨rfl, hw.free i⟩

namespace Settled
variable {w : World} {timer : ℕ} {t : Ktimer}

theorem lock_eq (hw : w.Settled) (i : KtimerSrc) : w.lock i = some (w.locked i) := by
  rw [lock, hw.free]
  rfl

theorem lock_armed (hw : w.Settled) (now : ℕ) (i : KtimerSrc) :
    (w.armed timer now).lock i = some ((w.armed timer now).locked i) := by
  rw [lock, if_neg]
  simp [armed, put, hw.free]

/-- The insertion of a timer: what it was refused for is an equal timer. -/
theorem rbInsert_armed (t : Ktimer) (now : ℕ) :
    (((w.armed timer now).locked t.src).rbInsert t.src timer).1 = true ↔
      ∀ other ∈ w.pending t.src,
        (w.armed timer now).expireOf other ≠ (w.armed timer now).expireOf timer := by
  have hpending : ((w.armed timer now).locked t.src).pending t.src = w.pending t.src := rfl
  have hkey : ((w.armed timer now).locked t.src).expireOf = (w.armed timer now).expireOf := rfl
  rw [rbInsert, hpending, hkey, ← OrderedSet.lookup_eq_none_iff]
  unfold OrderedSet.insert
  cases OrderedSet.lookup (w.armed timer now).expireOf ((w.armed timer now).expireOf timer)
    (w.pending t.src) <;> simp

/-- **Starting a timer** keeps the discipline when no equal one is stored. -/
theorem lockOk_start (hw : w.Settled) {now : ℕ} (he : w.OnTimer (.start timer now))
    (h : w.Distinct (.start timer now)) : w.LockOk (.start timer now) := by
  intro ans
  obtain ⟨t, ht⟩ := Option.isSome_iff_exists.mp he
  by_cases hstate : t.state = .init
  · have hins := (rbInsert_armed t now).mpr (h t ht hstate)
    obtain ⟨hlog, hheld, htimers⟩ := rbInsert_spec ((w.armed timer now).locked t.src) t.src timer
    simp only [startTrace, ht, if_pos hstate, hw.lock_armed, insertTrace]
    cases hret : ans.returns with
    | false => exact .stuck t.src (by simp [setPending, locked, armed, put]) hret
    | true =>
        rw [if_neg (by simp)]
        cases ans.memory with
        | false =>
            rw [if_pos rfl]
            dsimp only
            have hsrc : (((w.armed timer now).locked t.src).setPending t.src
                (((w.armed timer now).locked t.src).pending t.src)).srcOf timer ans.stale =
                  t.src := srcOf_armed ht rfl _
            rw [if_neg (by simp), hsrc]
            refine .balanced t.src hw ?_ ?_
            · simp [put, unlock, setPending, locked, armed]
            · simp [put, unlock, setPending, locked, armed]
        | true =>
            rw [if_neg (by simp)]
            cases hr : ((w.armed timer now).locked t.src).rbInsert t.src timer with
            | mk inserted w₂ =>
                rw [hr] at hins hlog hheld htimers
                obtain rfl : inserted = true := hins
                dsimp only at hlog hheld ⊢
                rw [srcOf_armed ht htimers, if_pos rfl]
                refine .balanced t.src hw ?_ ?_
                · simp [put, unlock, hlog, locked, armed]
                · simp [put, unlock, hheld, locked, armed]
  · simp only [startTrace, ht, if_neg hstate]
    exact .refl hw

/-- No source is the only one. -/
theorem exists_ne (i : KtimerSrc) : ∃ j, i ≠ j := by
  cases i
  · exact ⟨.hpet, nofun⟩
  · exact ⟨.tsc, nofun⟩
  · exact ⟨.tsc, nofun⟩

/-- **A timer that is refused** is freed, and the lock that is given back may be any. -/
theorem not_lockOk_start (hw : w.Settled) {now : ℕ} (ht : w.timers.get timer = some t)
    (hstate : t.state = .init)
    (hins : (((w.armed timer now).locked t.src).rbInsert t.src timer).1 = false) :
    ¬ w.LockOk (.start timer now) := by
  intro h
  obtain ⟨stale, hne⟩ := exists_ne t.src
  obtain ⟨hlog, -, htimers⟩ := rbInsert_spec ((w.armed timer now).locked t.src) t.src timer
  cases hr : ((w.armed timer now).locked t.src).rbInsert t.src timer with
  | mk inserted w₂ =>
      rw [hr] at hins hlog htimers
      obtain rfl : inserted = false := hins
      dsimp only at hlog
      have hlive : (w₂.timers.get timer).isSome := by
        rw [htimers]
        change ((w.timers.map timer _).get timer).isSome
        rw [Heap.isSome_get_map, ht]
        rfl
      have hstart : ∃ f, startTrace ⟨true, true, stale⟩ w timer now =
          .ok ((({ w₂ with timers := ⟨Function.update w₂.timers.get timer none⟩ } :
            World).unlock stale).put timer f) := by
        have hlock : (w.armed timer now).lock t.src = _ := hw.lock_armed now t.src
        simp only [startTrace, ht, if_pos hstate, hlock, insertTrace, hr,
          Heap.free_of_isSome _ hlive]
        simp [srcOf]
      obtain ⟨f, hstart⟩ := hstart
      obtain ⟨⟨new, hnew, hok⟩, -⟩ := h ⟨true, true, stale⟩
      obtain ⟨held, hheld, -⟩ := hok stale
      rw [hstart] at hnew
      have hbad : w.log ++ [.lock t.src, .access t.src, .unlock stale] = w.log ++ new := by
        rw [← hnew]
        simp [reached, put, unlock, hlog, locked, armed]
      rw [← List.append_cancel_left hbad] at hheld
      simp [hold, hne] at hheld

/-- Looking for a timer to take out is one access. -/
theorem rbUnlink_locked (w : World) (i : KtimerSrc) (timer : ℕ) :
    ((w.locked i).rbUnlink i timer).2.log = w.log ++ [.lock i, .access i] ∧
      ((w.locked i).rbUnlink i timer).2.held = Function.update w.held i true := by
  refine ⟨?_, rfl⟩
  simp [rbUnlink, setPending, locked]

theorem lockOk_stop (hw : w.Settled) (he : w.OnTimer (.stop timer)) : w.LockOk (.stop timer) := by
  intro ans
  obtain ⟨t, ht⟩ := Option.isSome_iff_exists.mp he
  by_cases hstate : t.state = .running
  · simp only [stopTrace, ht, if_pos hstate]
    exact .refl hw
  · simp only [stopTrace, ht, if_neg hstate, hw.lock_eq]
    cases hret : ans.returns with
    | false => exact .stuck t.src (by simp [setPending, locked]) hret
    | true =>
        rw [if_neg (by simp)]
        obtain ⟨hlog, hheld⟩ := rbUnlink_locked w t.src timer
        cases hun : (w.locked t.src).rbUnlink t.src timer with
        | mk found w₂ =>
            rw [hun] at hlog hheld
            dsimp only at hlog hheld
            have hlog' : (w₂.unlock t.src).log =
                w.log ++ [.lock t.src, .access t.src, .unlock t.src] := by simp [unlock, hlog]
            have hheld' : (w₂.unlock t.src).held =
                Function.update (Function.update w.held t.src true) t.src false := by
              simp [unlock, hheld]
            cases found with
            | none => exact .balanced t.src hw hlog' hheld'
            | some _ => exact .balanced t.src hw hlog' hheld'

theorem lockOk_destroy (hw : w.Settled) (he : w.OnTimer (.destroy timer)) :
    w.LockOk (.destroy timer) := by
  obtain ⟨t, ht⟩ := Option.isSome_iff_exists.mp he
  by_cases hstate : t.state = .running
  · exact .inl ⟨t, ht, hstate⟩
  · right
    intro ans
    simp only [destroyTrace, ht, if_neg hstate, hw.lock_eq]
    cases hret : ans.returns with
    | false => exact .stuck t.src (by simp [setPending, locked]) hret
    | true =>
        rw [if_neg (by simp)]
        -- what is found in the tree is a timer, so it can be freed
        have hremove : ∃ w₂, (w.locked t.src).rbRemove t.src timer = some w₂ ∧
            w₂.log = w.log ++ [.lock t.src, .access t.src] ∧
            w₂.held = Function.update w.held t.src true := by
          obtain ⟨hlog, hheld⟩ := rbUnlink_locked w t.src timer
          rw [rbRemove]
          cases hun : (w.locked t.src).rbUnlink t.src timer with
          | mk found w₂ =>
              have hfound : found = OrderedSet.lookup w.expireOf (w.expireOf timer)
                  (w.pending t.src) := (congrArg Prod.fst hun).symm
              have htimers : w₂.timers = w.timers := (congrArg (timers ∘ Prod.snd) hun).symm
              rw [hun] at hlog hheld
              cases found with
              | none => exact ⟨w₂, rfl, hlog, hheld⟩
              | some a =>
                  have hlive : (w₂.timers.get a).isSome := by
                    rw [htimers]
                    exact hw.stored t.src a (List.mem_of_find?_eq_some hfound.symm)
                  simp only [Heap.free_of_isSome _ hlive, Option.map_some]
                  exact ⟨_, rfl, hlog, hheld⟩
        obtain ⟨w₂, hremove, hlog, hheld⟩ := hremove
        rw [hremove]
        refine .balanced t.src hw ?_ ?_
        · simp [unlock, hlog]
        · simp [unlock, hheld]

/-- A pass: the loop has no turn, and the lock is not given back. -/
theorem passTrace_one (hw : w.Settled) (i : KtimerSrc) (now : ℕ) :
    passTrace 1 w i now = .ok ((w.locked i).setPending i (w.pending i)) := by
  rw [passTrace, hw.lock_eq]
  rfl

theorem not_disciplined_pass (hw : w.Settled) (i : KtimerSrc) (now : ℕ) :
    ¬ Disciplined w (passTrace 1 w i now) := by
  rintro ⟨new, -, hok⟩
  rw [hw.passTrace_one] at hok
  obtain ⟨_, _, hend⟩ := hok i
  have hheld : (w.locked i).held i = false := (hend _ rfl).2
  simp [locked] at hheld

end Settled

/-- **When the lock discipline is kept**: by a start exactly when no timer in the tree has the
deadline of the timer that is started, always by the two other calls, and never by a pass. -/
theorem lockOk_iff {w : World} {e : Entry} (hw : w.Settled) (he : w.OnTimer e) :
    w.LockOk e ↔ w.Distinct e := by
  cases e with
  | start timer now =>
      refine ⟨fun h t ht hstate => ?_, hw.lockOk_start he⟩
      rw [← Settled.rbInsert_armed t now]
      by_contra hins
      exact hw.not_lockOk_start ht hstate (Bool.not_eq_true _ ▸ hins) h
  | stop timer => exact iff_of_true (hw.lockOk_stop he) trivial
  | destroy timer => exact iff_of_true (hw.lockOk_destroy he) trivial
  | pass i now => exact iff_of_false (fun h => hw.not_disciplined_pass i now (h 1)) id
  | schedule getCycle => exact iff_of_false (fun h => hw.not_disciplined_pass .tsc _ (h 1).1) id

/-- Timer 1 with deadline 5 in the tree, and timer 2 with the delay 7 not yet started. -/
def oneOfTwo : World where
  timers := ⟨fun a => if a = 1 then some ⟨5, 0, .tsc, .single, .pending⟩
    else if a = 2 then some ⟨7, 0, .tsc, .single, .init⟩ else none⟩
  pending := fun i => if i = .tsc then [1] else []
  held := fun _ => false
  log := []

theorem settled_oneOfTwo : oneOfTwo.Settled where
  free := fun _ => rfl
  stored := by
    intro i timer hmem
    cases i with
    | tsc =>
        obtain rfl := List.mem_singleton.mp hmem
        rfl
    | hpet => cases hmem
    | soft => cases hmem

/-- Timer 2 is started when it is due at another time than timer 1. -/
theorem lockOk_iff_later : oneOfTwo.LockOk (.start 2 0) := by
  refine (lockOk_iff (e := .start 2 0) settled_oneOfTwo rfl).mpr ?_
  intro t ht _ other hother
  obtain rfl := Option.some.inj ht
  obtain rfl := List.mem_singleton.mp hother
  decide

/-- Right after `kylin_timer_init`, a pass takes a lock and does not give it back; and timer 2,
started when the clock makes it due with timer 1, is freed before its source is read. -/
theorem not_lockOk_init : (init.Settled ∧ ¬ init.LockOk (.pass .tsc 0)) ∧
    oneOfTwo.Settled ∧ ¬ oneOfTwo.LockOk (.start 2 (2 ^ 64 - 2)) := by
  have hw : init.Settled := ⟨fun _ => rfl, fun _ _ h => by cases h⟩
  refine ⟨⟨hw, fun h => hw.not_disciplined_pass .tsc 0 (h 1)⟩, settled_oneOfTwo, ?_⟩
  exact settled_oneOfTwo.not_lockOk_start (t := ⟨7, 0, .tsc, .single, .init⟩) rfl rfl (by decide)

end Kylin.Ktimer.World
