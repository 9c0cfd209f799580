import Kylin.Timer.Timer

/-!
# The timer thread

`__kylin_timer_schedule` visits every time source once: it takes the least timer out
of the tree while that is due, runs its callback, and then either puts it back or
stops it.  Callbacks do not touch the timers, so running one is an event of the
log.

The test that chooses between the two is the wrong way round: timers with a period
are stopped, and those without one are put back at the current time, where they are
due again.  `exists_passOk_iff` says when a pass still does what it should: exactly
when every due timer has a period so long that its next deadline overflows.

## Main definitions

* `insertBump`, `scheduleLoop`, `schedulePass`, `schedule` — the thread.
* `execs` — the callbacks in a stretch of the log.
* `PassOk` — what a pass over one source should do.
-/

namespace Kylin.Ktimer.World

open Lib

/-- `while(!kylin_rb_insert(...)) cur_timer->expire++`. -/
def insertBump (i : KtimerSrc) (timer : ℕ) : ℕ → World → Option World
  | 0, _ => none
  | fuel + 1, w =>
      match w.rbInsert i timer with
      | (true, w) => some w
      | (false, w) =>
          insertBump i timer fuel
            (w.put timer fun t => { t with expire := (t.expire + 1) % 2 ^ 64 })

/-- Run the callback of a timer. -/
def exec (w : World) (timer : ℕ) : World := { w with log := w.log ++ [.exec timer] }

/-- The body of the loop for a timer that is due, up to its callback: out of the tree,
unlocked, running. -/
def runTimer (w : World) (i : KtimerSrc) (timer : ℕ) : World :=
  (((w.rbUnlink i timer).2.unlock i).put timer fun t => { t with state := .running }).exec timer

/-- The loop over one tree; `none` when `fuel` turns were not enough. -/
def scheduleLoop (i : KtimerSrc) (now : ℕ) : ℕ → World → Option World
  | 0, _ => none
  | fuel + 1, w =>
      -- `kylin_rb_min`
      let w := w.setPending i (w.pending i)
      match w.pending i with
      | [] => some w
      | timer :: _ => do
          let t ← w.timers.get timer
          if now < t.expire then some (w.unlock i)
          else
            let w := w.runTimer i timer
            let t ← w.timers.get timer
            if t.period = 0 then
              let w := w.put timer fun t =>
                { t with expire := (t.period + now) % 2 ^ 64, state := .pending }
              let w ← w.lock i
              let w ← insertBump i timer fuel w
              scheduleLoop i now fuel (w.unlock i)
            else scheduleLoop i now fuel (w.put timer fun t => { t with state := .stop })

/-- The pass of `__kylin_timer_schedule` over the source `i`, with `now` what its
clock reads. -/
def schedulePass (fuel : ℕ) (w : World) (i : KtimerSrc) (now : ℕ) : Option World := do
  let w ← w.lock i
  scheduleLoop i now fuel w

/-- `__kylin_timer_schedule`. -/
def schedule (fuel : ℕ) (w : World) (getCycle : KtimerSrc → ℕ) : Option World := do
  let w ← schedulePass fuel w .tsc (getCycle .tsc)
  let w ← schedulePass fuel w .hpet (getCycle .hpet)
  schedulePass fuel w .soft (getCycle .soft)

/-! ## One pass -/

/-- The callbacks run in a stretch of the log. -/
def execs (log : List Event) : List ℕ :=
  log.filterMap fun e =>
    match e with
    | .exec timer => some timer
    | _ => none

/-- A source ready for a pass: a free lock, and a tree of pending timers. -/
structure Ready (w : World) (i : KtimerSrc) : Prop where
  free : w.held i = false
  ascending : OrderedSet.Ascending w.expireOf (w.pending i)
  stored : ∀ timer ∈ w.pending i, ∃ t, w.timers.get timer = some t ∧ t.state = .pending

/-- **What a pass should do**: run the timers that are due, each once, in ascending
order; and leave those without a period stopped and out of the tree, and those with
one pending, in the tree, with a later deadline. -/
structure PassOk (i : KtimerSrc) (now : ℕ) (w w' : World) : Prop where
  ran : ∃ new, w'.log = w.log ++ new ∧
    (execs new).Pairwise (fun a b => w.expireOf a < w.expireOf b) ∧
    ∀ timer, timer ∈ execs new ↔ timer ∈ w.pending i ∧ w.expireOf timer ≤ now
  after : ∀ timer ∈ w.pending i, ∀ t, w.timers.get timer = some t → t.expire ≤ now →
    ∃ t', w'.timers.get timer = some t' ∧
      (t.period = 0 → t'.state = .stop ∧ timer ∉ w'.pending i) ∧
      (0 < t.period → now + t.period < 2 ^ 64 →
        t'.state = .pending ∧ timer ∈ w'.pending i ∧ now < t'.expire)

@[simp] theorem execs_append (l l' : List Event) : execs (l ++ l') = execs l ++ execs l' :=
  List.filterMap_append

section Frame
variable {w : World} {timer : ℕ} (i : KtimerSrc)

/-- The log of the loop body. -/
theorem log_runTimer : (w.runTimer i timer).log =
    w.log ++ [.access i, .unlock i, .exec timer] := by
  simp [runTimer, exec, put, unlock, rbUnlink, setPending]

theorem get_runTimer_self {t : Ktimer} (ht : w.timers.get timer = some t) :
    (w.runTimer i timer).timers.get timer = some { t with state := .running } := by
  change (w.timers.map timer _).get timer = _
  rw [Heap.get_map_self, ht]
  rfl

theorem get_runTimer_of_ne {a : ℕ} (ha : a ≠ timer) :
    (w.runTimer i timer).timers.get a = w.timers.get a := Heap.get_map_of_ne _ _ _ ha

end Frame

/-! ## What a pass leaves behind -/

/-- Steps that run no callback and change at most deadlines. -/
def Quiet (w w' : World) : Prop :=
  (∃ l, w'.log = w.log ++ l ∧ execs l = []) ∧
    ∀ a t', w'.timers.get a = some t' →
      ∃ t, w.timers.get a = some t ∧ t.period = t'.period ∧ t.state = t'.state

theorem Quiet.of_timers_eq {w w' : World} {l : List Event} (hlog : w'.log = w.log ++ l)
    (hl : execs l = []) (htimers : w'.timers = w.timers) : Quiet w w' := by
  refine ⟨⟨l, hlog, hl⟩, fun a t' ht' => ⟨t', ?_, rfl, rfl⟩⟩
  rw [← htimers]
  exact ht'

theorem Quiet.trans {w w' w'' : World} (h : Quiet w w') (h' : Quiet w' w'') : Quiet w w'' := by
  obtain ⟨⟨l, hlog, hl⟩, ht⟩ := h
  obtain ⟨⟨l', hlog', hl'⟩, ht'⟩ := h'
  refine ⟨⟨l ++ l', ?_, by simp [hl, hl']⟩, ?_⟩
  · rw [hlog', hlog, List.append_assoc]
  · intro a t'' hget
    obtain ⟨t', hget', hperiod', hstate'⟩ := ht' a t'' hget
    obtain ⟨t, hget, hperiod, hstate⟩ := ht a t' hget'
    exact ⟨t, hget, hperiod.trans hperiod', hstate.trans hstate'⟩

theorem quiet_put_expire (w : World) (timer : ℕ) (f : Ktimer → ℕ) :
    Quiet w (w.put timer fun t => { t with expire := f t }) := by
  refine ⟨⟨[], by simp [put], rfl⟩, fun a t' ht' => ?_⟩
  rw [put, Heap.get_map] at ht'
  by_cases ha : a = timer
  · rw [if_pos ha] at ht'
    obtain ⟨t, ht, rfl⟩ := Option.map_eq_some_iff.mp ht'
    exact ⟨t, ht, rfl, rfl⟩
  · rw [if_neg ha] at ht'
    exact ⟨t', ht', rfl, rfl⟩

theorem quiet_rbInsert (w : World) (i : KtimerSrc) (timer : ℕ) :
    Quiet w (w.rbInsert i timer).2 := by
  rw [rbInsert]
  split <;> exact .of_timers_eq (l := [.access i]) rfl rfl rfl

theorem quiet_lock {w w' : World} {i : KtimerSrc} (h : w.lock i = some w') : Quiet w w' := by
  rw [lock] at h
  split at h
  · cases h
  · rw [← Option.some.inj h]
    exact .of_timers_eq (l := [.lock i]) rfl rfl rfl

theorem quiet_insertBump {i : KtimerSrc} {timer : ℕ} :
    ∀ {fuel : ℕ} {w w' : World}, insertBump i timer fuel w = some w' → Quiet w w' := by
  intro fuel
  induction fuel with
  | zero =>
      intro w w' h
      cases h
  | succ fuel ih =>
      intro w w' h
      have hq := quiet_rbInsert w i timer
      rw [insertBump] at h
      split at h
      case h_1 w₁ hins =>
        rw [hins] at hq
        rw [← Option.some.inj h]
        exact hq
      case h_2 w₁ hins =>
        rw [hins] at hq
        exact (hq.trans (quiet_put_expire w₁ timer _)).trans (ih h)

/-- What holds during a pass that started in `w₀` and has logged `new`: periods are
as they were, and a timer that has run is pending without a period and stopped with
one. -/
structure Progress (w₀ w : World) (new : List Event) : Prop where
  log : w.log = w₀.log ++ new
  period : ∀ a t, w.timers.get a = some t →
    ∃ t₀, w₀.timers.get a = some t₀ ∧ t₀.period = t.period
  state : ∀ a ∈ execs new, ∀ t, w.timers.get a = some t →
    t.state = if t.period = 0 then .pending else .stop

namespace Progress
variable {w₀ w w' : World} {new : List Event} {timer : ℕ} {t t' : Ktimer}

theorem refl (w : World) : Progress w w [] where
  log := (List.append_nil _).symm
  period := fun _ t ht => ⟨t, ht, rfl⟩
  state := fun _ h => by cases h

theorem quiet (h : Progress w₀ w new) (hq : Quiet w w') : ∃ new', Progress w₀ w' new' := by
  obtain ⟨⟨l, hlog, hl⟩, ht⟩ := hq
  refine ⟨new ++ l, ?_, ?_, ?_⟩
  · rw [hlog, h.log, List.append_assoc]
  · intro a t' hget
    obtain ⟨t, hget', hperiod, -⟩ := ht a t' hget
    obtain ⟨t₀, hget₀, hperiod₀⟩ := h.period a t hget'
    exact ⟨t₀, hget₀, hperiod₀.trans hperiod⟩
  · intro a ha t' hget
    rw [execs_append, hl, List.append_nil] at ha
    obtain ⟨t, hget', hperiod, hstate⟩ := ht a t' hget
    rw [← hstate, ← hperiod]
    exact h.state a ha t hget'

/-- A callback has run and its timer was put back or stopped by `f`. -/
theorem runTimer (h : Progress w₀ w new) (i : KtimerSrc) (ht : w.timers.get timer = some t)
    {f : Ktimer → Ktimer} (hperiod : ∀ s, (f s).period = s.period)
    (hstate : (f { t with state := .running }).state =
      if t.period = 0 then .pending else .stop) :
    Progress w₀ ((w.runTimer i timer).put timer f)
      (new ++ [.access i, .unlock i, .exec timer]) := by
  have hself : ((w.runTimer i timer).put timer f).timers.get timer =
      some (f { t with state := .running }) := by
    change ((w.runTimer i timer).timers.map timer f).get timer = _
    rw [Heap.get_map_self, get_runTimer_self i ht]
    rfl
  have hother : ∀ a, a ≠ timer →
      ((w.runTimer i timer).put timer f).timers.get a = w.timers.get a := by
    intro a ha
    exact (Heap.get_map_of_ne _ _ _ ha).trans (get_runTimer_of_ne i ha)
  refine ⟨?_, ?_, ?_⟩
  · change (w.runTimer i timer).log = _
    rw [log_runTimer, h.log, List.append_assoc]
  · intro a s hs
    by_cases ha : a = timer
    · rw [ha, hself] at hs
      rw [ha, ← Option.some.inj hs, hperiod]
      exact h.period timer t ht
    · rw [hother a ha] at hs
      exact h.period a s hs
  · intro a hmem s hs
    by_cases ha : a = timer
    · rw [ha, hself] at hs
      rw [← Option.some.inj hs, hperiod]
      exact hstate
    · rw [hother a ha] at hs
      have hold : a ∈ execs new := by
        simpa [execs, ha] using hmem
      exact h.state a hold s hs

end Progress

/-- Every pass makes progress. -/
theorem scheduleLoop_progress {i : KtimerSrc} {now : ℕ} {w₀ w' : World} :
    ∀ {fuel : ℕ} {w : World} {new : List Event}, Progress w₀ w new →
      scheduleLoop i now fuel w = some w' → ∃ new', Progress w₀ w' new' := by
  intro fuel
  induction fuel with
  | zero =>
      intro w new _ h
      cases h
  | succ fuel ih =>
      intro w new P h
      have hmin : Quiet w (w.setPending i (w.pending i)) :=
        .of_timers_eq (l := [.access i]) rfl rfl rfl
      obtain ⟨new₁, P₁⟩ := P.quiet hmin
      generalize hw₁ : w.setPending i (w.pending i) = w₁ at P₁
      rw [scheduleLoop] at h
      simp only [hw₁] at h
      cases hp : w₁.pending i with
      | nil =>
          simp only [hp] at h
          rw [← Option.some.inj h]
          exact ⟨new₁, P₁⟩
      | cons timer rest =>
          simp only [hp, Option.bind_eq_bind, Option.bind_eq_some_iff] at h
          obtain ⟨t, ht, h⟩ := h
          by_cases hdue : now < t.expire
          · rw [if_pos hdue] at h
            rw [← Option.some.inj h]
            exact P₁.quiet (.of_timers_eq (l := [.unlock i]) rfl rfl rfl)
          · rw [if_neg hdue] at h
            obtain ⟨t₂, ht₂, h⟩ := Option.bind_eq_some_iff.mp h
            have hrun := get_runTimer_self i ht
            obtain rfl : { t with state := .running } = t₂ := Option.some.inj (hrun.symm.trans ht₂)
            by_cases hperiod : t.period = 0
            · rw [if_pos hperiod] at h
              obtain ⟨w₂, hlock, h⟩ := Option.bind_eq_some_iff.mp h
              obtain ⟨w₃, hbump, h⟩ := Option.bind_eq_some_iff.mp h
              have P₂ := P₁.runTimer i ht (f := fun t =>
                { t with expire := (t.period + now) % 2 ^ 64, state := .pending })
                (fun _ => rfl) (by rw [if_pos hperiod])
              have hlocked : Quiet _ w₂ := quiet_lock hlock
              obtain ⟨new₃, P₃⟩ := P₂.quiet ((hlocked.trans (quiet_insertBump hbump)).trans
                (.of_timers_eq (l := [.unlock i]) rfl rfl rfl : Quiet w₃ (w₃.unlock i)))
              exact ih P₃ h
            · rw [if_neg hperiod] at h
              exact ih (P₁.runTimer i ht (f := fun t => { t with state := .stop })
                (fun _ => rfl) (by rw [if_neg hperiod])) h

/-- A turn that has run a timer with a period: the timer is stopped. -/
def stopped (w : World) (i : KtimerSrc) (timer : ℕ) : World :=
  ((w.setPending i (w.pending i)).runTimer i timer).put timer fun t => { t with state := .stop }

section Turn
variable {w : World} {i : KtimerSrc} {now timer : ℕ} {rest : List ℕ} {t : Ktimer}

theorem pending_look (w : World) (i : KtimerSrc) :
    (w.setPending i (w.pending i)).pending i = w.pending i :=
  Function.update_self _ _ _

theorem expireOf_stopped (w : World) (i : KtimerSrc) (timer : ℕ) :
    (w.stopped i timer).expireOf = w.expireOf :=
  (expireOf_put_state _ timer .stop).trans (expireOf_put_state _ timer .running)

theorem get_stopped_of_ne {a : ℕ} (ha : a ≠ timer) :
    (w.stopped i timer).timers.get a = w.timers.get a :=
  (Heap.get_map_of_ne _ _ _ ha).trans (get_runTimer_of_ne i ha)

theorem isSome_get_stopped (ht : w.timers.get timer = some t) {a : ℕ}
    (ha : (w.timers.get a).isSome) : ((w.stopped i timer).timers.get a).isSome := by
  have hget : (w.setPending i (w.pending i)).timers.get timer = some t := ht
  by_cases hat : a = timer
  · change (((w.setPending i (w.pending i)).runTimer i timer).timers.map timer _).get a |>.isSome
    rw [Heap.isSome_get_map, hat, get_runTimer_self i hget]
    rfl
  · rw [get_stopped_of_ne hat]
    exact ha

theorem pending_stopped (hs : w.pending i = timer :: rest)
    (hasc : OrderedSet.Ascending w.expireOf (timer :: rest)) :
    (w.stopped i timer).pending i = rest := by
  change Function.update (w.setPending i (w.pending i)).pending i
    (OrderedSet.erase w.expireOf (w.expireOf timer)
      ((w.setPending i (w.pending i)).pending i)) i = rest
  rw [Function.update_self, pending_look, hs]
  exact OrderedSet.erase_head hasc

theorem log_stopped (w : World) (i : KtimerSrc) (timer : ℕ) : (w.stopped i timer).log =
    w.log ++ [.access i, .access i, .unlock i, .exec timer] := by
  change ((w.setPending i (w.pending i)).runTimer i timer).log = _
  rw [log_runTimer]
  simp [setPending]

/-- The turn that finds the least timer not due. -/
theorem scheduleLoop_of_lt (hs : w.pending i = timer :: rest)
    (ht : w.timers.get timer = some t) (hdue : now < t.expire) (fuel : ℕ) :
    scheduleLoop i now (fuel + 1) w = some ((w.setPending i (w.pending i)).unlock i) := by
  have hpending := (w.pending_look i).trans hs
  rw [scheduleLoop]
  simp only [hpending]
  change (w.timers.get timer).bind _ = _
  rw [ht, Option.bind_some, if_pos hdue]

/-- The turn that runs a timer with a period. -/
theorem scheduleLoop_of_le (hs : w.pending i = timer :: rest)
    (ht : w.timers.get timer = some t) (hdue : ¬ now < t.expire) (hperiod : ¬ t.period = 0)
    (fuel : ℕ) :
    scheduleLoop i now (fuel + 1) w = scheduleLoop i now fuel (w.stopped i timer) := by
  have hpending := (w.pending_look i).trans hs
  have hget : (w.setPending i (w.pending i)).timers.get timer = some t := ht
  rw [scheduleLoop]
  simp only [hpending]
  change (w.timers.get timer).bind _ = _
  rw [ht, Option.bind_some, if_neg hdue]
  change (((w.setPending i (w.pending i)).runTimer i timer).timers.get timer).bind _ = _
  rw [get_runTimer_self i hget, Option.bind_some, if_neg hperiod]
  rfl

end Turn

/-- A pass over the timers due at `now` when all of these have a period: it stops them
one after the other. -/
theorem scheduleLoop_spec {i : KtimerSrc} (now : ℕ) :
    ∀ {s : List ℕ} {w : World}, w.pending i = s → OrderedSet.Ascending w.expireOf s →
      (∀ a ∈ s, ∃ t, w.timers.get a = some t ∧ (t.expire ≤ now → 0 < t.period)) →
      ∃ w' new, scheduleLoop i now (s.length + 1) w = some w' ∧ w'.log = w.log ++ new ∧
        execs new = s.filter (fun a => w.expireOf a ≤ now) ∧
        ∀ a, (w.timers.get a).isSome → (w'.timers.get a).isSome := by
  intro s
  induction s with
  | nil =>
      intro w hs _ _
      refine ⟨w.setPending i (w.pending i), [.access i], ?_, rfl, rfl, fun a ha => ha⟩
      simp [scheduleLoop, setPending, hs]
  | cons timer rest ih =>
      intro w hs hasc hstored
      obtain ⟨t, ht, hperiod⟩ := hstored timer List.mem_cons_self
      have hkey : w.expireOf timer = t.expire := expireOf_of_get ht
      obtain ⟨hlt, hasc'⟩ := List.pairwise_cons.mp hasc
      by_cases hdue : now < t.expire
      · -- the least timer is not due, so none is
        refine ⟨(w.setPending i (w.pending i)).unlock i, [.access i, .unlock i],
          scheduleLoop_of_lt hs ht hdue _, ?_, ?_, fun a ha => ha⟩
        · simp [unlock, setPending]
        · symm
          rw [show execs [.access i, .unlock i] = [] from rfl, List.filter_eq_nil_iff]
          intro a ha
          rcases List.mem_cons.mp ha with rfl | ha
          · simp [hkey, hdue]
          · have := hlt a ha
            rw [hkey] at this
            simp
            omega
      · have hne : ∀ a ∈ rest, a ≠ timer := by
          rintro a ha rfl
          exact lt_irrefl _ (hlt a ha)
        have hstored' : ∀ a ∈ rest, ∃ t, (w.stopped i timer).timers.get a = some t ∧
            (t.expire ≤ now → 0 < t.period) := by
          intro a ha
          rw [get_stopped_of_ne (hne a ha)]
          exact hstored a (List.mem_cons_of_mem timer ha)
        obtain ⟨w', new, hrun, hlog, hnew, hlive⟩ := ih (pending_stopped hs hasc)
          (by rw [expireOf_stopped]; exact hasc') hstored'
        have hpos : ¬ t.period = 0 := by
          have := hperiod (by omega)
          omega
        refine ⟨w', [.access i, .access i, .unlock i, .exec timer] ++ new, ?_, ?_, ?_, ?_⟩
        · exact (scheduleLoop_of_le hs ht hdue hpos _).trans hrun
        · rw [hlog, log_stopped, List.append_assoc]
        · have hself : w.expireOf timer ≤ now := by omega
          rw [execs_append, hnew, expireOf_stopped,
            List.filter_cons_of_pos (by simpa using hself)]
          rfl
        · exact fun a ha => hlive a (isSome_get_stopped ht ha)

theorem Ready.lock_eq {w : World} {i : KtimerSrc} (hw : w.Ready i) :
    w.lock i = some (w.locked i) := by
  rw [lock, hw.free]
  rfl

/-- A pass that is right has met due timers with a period only, and only such whose
next deadline overflows. -/
theorem PassOk.overflow {w w' : World} {i : KtimerSrc} {now fuel : ℕ} (hw : w.Ready i)
    (hrun : schedulePass fuel w i now = some w') (hok : PassOk i now w w') {timer : ℕ}
    (hmem : timer ∈ w.pending i) {t : Ktimer} (ht : w.timers.get timer = some t)
    (hdue : t.expire ≤ now) : 0 < t.period ∧ 2 ^ 64 ≤ now + t.period := by
  simp only [schedulePass, hw.lock_eq, Option.bind_eq_bind, Option.bind_some] at hrun
  obtain ⟨new₁, P₁⟩ := (Progress.refl w).quiet (quiet_lock hw.lock_eq)
  obtain ⟨new', P⟩ := scheduleLoop_progress P₁ hrun
  obtain ⟨new, hlog, -, hran⟩ := hok.ran
  obtain ⟨t', ht', hsingle, hperiodic⟩ := hok.after timer hmem t ht hdue
  -- the timer has run, so its last state is known
  have hexec : timer ∈ execs new' := by
    have hsame : new' = new := List.append_cancel_left (P.log.symm.trans hlog)
    rw [hsame, hran]
    exact ⟨hmem, by rw [expireOf_of_get ht]; exact hdue⟩
  have hstate := P.state timer hexec t' ht'
  obtain ⟨t₀, ht₀, hperiod₀⟩ := P.period timer t' ht'
  rw [← hperiod₀, Option.some.inj (ht₀.symm.trans ht)] at hstate
  by_cases hzero : t.period = 0
  · rw [if_pos hzero, (hsingle hzero).1] at hstate
    cases hstate
  · refine ⟨Nat.pos_of_ne_zero hzero, ?_⟩
    by_contra hlt
    rw [if_neg hzero, (hperiodic (Nat.pos_of_ne_zero hzero) (by omega)).1] at hstate
    cases hstate

/-- **When a pass is right.**  For every source ready for a pass and every clock value:
the pass ends, having run the due timers once each in ascending order and left them
as it should, exactly when each of them has a period and its next deadline
overflows, so that nothing is asked of it afterwards. -/
theorem exists_passOk_iff {w : World} {i : KtimerSrc} (hw : w.Ready i) (now : ℕ) :
    (∃ fuel w', schedulePass fuel w i now = some w' ∧ PassOk i now w w') ↔
      ∀ timer ∈ w.pending i, ∀ t, w.timers.get timer = some t → t.expire ≤ now →
        0 < t.period ∧ 2 ^ 64 ≤ now + t.period := by
  constructor
  · rintro ⟨fuel, w', hrun, hok⟩ timer hmem t ht hdue
    exact hok.overflow hw hrun hmem ht hdue
  · intro hcond
    obtain ⟨w', new, hrun, hlog, hnew, hlive⟩ :=
      scheduleLoop_spec (i := i) now (w := w.locked i) rfl hw.ascending (by
        intro a ha
        obtain ⟨t, ht, -⟩ := hw.stored a ha
        exact ⟨t, ht, fun hdue => (hcond a ha t ht hdue).1⟩)
    refine ⟨(w.pending i).length + 1, w', ?_, ?_, ?_⟩
    · simp only [schedulePass, hw.lock_eq, Option.bind_eq_bind, Option.bind_some]
      exact hrun
    · refine ⟨[.lock i] ++ new, ?_, ?_, ?_⟩
      · rw [hlog, ← List.append_assoc]
        rfl
      · rw [execs_append, hnew]
        exact List.Pairwise.filter _ hw.ascending
      · intro timer
        rw [execs_append, hnew]
        simp only [show execs [.lock i] = [] from rfl, List.nil_append, List.mem_filter,
          decide_eq_true_eq]
        rfl
    · intro timer hmem t ht hdue
      obtain ⟨hpos, hover⟩ := hcond timer hmem t ht hdue
      obtain ⟨t', ht'⟩ := Option.isSome_iff_exists.mp (hlive timer (by
        change (w.timers.get timer).isSome
        rw [ht]
        rfl))
      exact ⟨t', ht', fun h => by omega, fun _ h => by omega⟩

/-- A source with one pending timer. -/
theorem ready_singleton {w : World} {i : KtimerSrc} {timer : ℕ} {t : Ktimer}
    (hfree : w.held i = false) (hpending : w.pending i = [timer])
    (ht : w.timers.get timer = some t) (hstate : t.state = .pending) : w.Ready i := by
  refine ⟨hfree, ?_, ?_⟩
  · rw [hpending]
    exact List.pairwise_singleton _ _
  · intro a ha
    rw [hpending, List.mem_singleton] at ha
    exact ⟨t, ha ▸ ht, hstate⟩

/-- A timer with a period of five cycles, due three cycles before the clock wraps. -/
theorem exists_passOk_late :
    ∃ w, (init.create 1 5 .tsc .periodical).start 1 0 = some (.ok, w) ∧ w.Ready .tsc ∧
      ∃ fuel w', schedulePass fuel w .tsc (2 ^ 64 - 3) = some w' ∧
        PassOk .tsc (2 ^ 64 - 3) w w' := by
  suffices h : ∀ w, (init.create 1 5 .tsc .periodical).start 1 0 = some (.ok, w) →
      w.Ready .tsc ∧ ∃ fuel w', schedulePass fuel w .tsc (2 ^ 64 - 3) = some w' ∧
        PassOk .tsc (2 ^ 64 - 3) w w' from ⟨_, rfl, h _ rfl⟩
  intro w hw
  have hpending : w.pending .tsc = [1] := by
    cases hw
    rfl
  have hget : w.timers.get 1 = some ⟨5, 5, .tsc, .periodical, .pending⟩ := by
    cases hw
    rfl
  have hready : w.Ready .tsc := by
    refine ready_singleton ?_ hpending hget rfl
    cases hw
    rfl
  refine ⟨hready, (exists_passOk_iff hready _).mpr ?_⟩
  intro timer hmem t ht _
  rw [hpending, List.mem_singleton] at hmem
  rw [hmem, hget] at ht
  obtain rfl := Option.some.inj ht
  exact ⟨by decide, by decide⟩

/-- A timer without a period that is due: no pass over it is right. -/
theorem not_exists_passOk_single :
    ∃ w, (init.create 1 5 .tsc .single).start 1 0 = some (.ok, w) ∧ w.Ready .tsc ∧
      ¬ ∃ fuel w', schedulePass fuel w .tsc 10 = some w' ∧ PassOk .tsc 10 w w' := by
  suffices h : ∀ w, (init.create 1 5 .tsc .single).start 1 0 = some (.ok, w) →
      w.Ready .tsc ∧ ¬ ∃ fuel w', schedulePass fuel w .tsc 10 = some w' ∧ PassOk .tsc 10 w w' from
    ⟨_, rfl, h _ rfl⟩
  intro w hw
  have hpending : w.pending .tsc = [1] := by
    cases hw
    rfl
  have hget : w.timers.get 1 = some ⟨5, 0, .tsc, .single, .pending⟩ := by
    cases hw
    rfl
  have hready : w.Ready .tsc := by
    refine ready_singleton ?_ hpending hget rfl
    cases hw
    rfl
  refine ⟨hready, ?_⟩
  rintro ⟨fuel, w', hrun, hok⟩
  have hmem : 1 ∈ w.pending .tsc := by
    rw [hpending]
    exact List.mem_singleton.mpr rfl
  have hover := hok.overflow hready hrun hmem hget (by decide)
  exact absurd hover.1 (by decide)

end Kylin.Ktimer.World
