import Kylin.Event.Dispatch

/-!
# The loop with `poll`

`kpoll_proc` (`lib/core/event/plugin/kylin_poll.c`) makes its array from the registry.  `events`
is only added to, and the array is looked at also when `poll` has failed and has written nothing;
both are right because `kylin_malloc` clears the memory.  `kylin_event_add` does not look for an
entry of the descriptor; with two of them `KYLIN_EVENT_EVENT_FOREACH` does not end.

## Main definitions

* `fill`, `fillAll`, `dispatch`, `proc` — the two loops, and a pass.

## Main results

* `run_poll` — the callbacks of every pass, and when a pass returns.
-/

namespace Kylin.Kpoll

open Lib Event

/-- `POLLIN`. -/
def pollin : BitVec 16 := 0x001

/-- `POLLOUT`. -/
def pollout : BitVec 16 := 0x004

/-- `POLLERR | POLLHUP | POLLNVAL`. -/
def pollerr : BitVec 16 := 0x008 ||| 0x010 ||| 0x020

/-- `struct pollfd`. -/
structure Pollfd where
  fd : ℕ
  events : BitVec 16
  revents : BitVec 16

/-- An element of memory that is cleared. -/
def blank : Pollfd := ⟨0, 0, 0⟩

/-- Whether `kylin_malloc` has memory, what `poll` returns, and the `revents` that it writes if it
does not fail. -/
structure Answer where
  mem : Bool
  nevents : ℤ
  revents : List Pollfd → List (BitVec 16)

/-- The array after `poll`. -/
def Answer.poll (q : Answer) (fds : List Pollfd) : List Pollfd :=
  if q.nevents < 0 then fds
  else List.zipWith (fun fd r => { fd with revents := r }) fds (q.revents fds)

/-- One turn of the loop that fills the array. -/
def fill (old : Pollfd) (event : KeventEvent) : Pollfd :=
  let new := { old with fd := event.efd }
  let new := if has event.flags .read then { new with events := new.events ||| pollin } else new
  if has event.flags .write then { new with events := new.events ||| pollout } else new

/-- The loop, which starts at the first slot of the array; `none` if it leaves the array. -/
def fillAll : List Pollfd → List KeventEvent → Option (List Pollfd)
  | mem, [] => some mem
  | [], _ :: _ => none
  | old :: mem, event :: events => (fillAll mem events).map (fill old event :: ·)

/-- One turn of the loop that calls back. -/
def dispatch (acts : Actions) (fd : Pollfd) : List Fired :=
  (if fd.revents &&& pollin ≠ 0 then fire acts .read fd.fd else []) ++
    (if fd.revents &&& pollout ≠ 0 then fire acts .write fd.fd else []) ++
    (if fd.revents &&& pollerr ≠ 0 then fire acts .error fd.fd else [])

/-- `*event`. -/
def readEvent : Cell KeventEvent → Option KeventEvent
  | .obj e => some e
  | .int _ => none

/-- `kpoll_proc`. -/
def proc (fuel : ℕ) (acts : Actions) (guard : Guard Unit) (q : Answer) :
    Option (Kerr × List Fired × Unit) :=
  if guard.events.used = 0 then some (.noent, [], ())
  else if q.mem = false then some (.nomem, [], ())
  else do
    let cs ← guard.events.foreach fuel
    let events ← cs.mapM readEvent
    let fds ← fillAll (List.replicate guard.events.used blank) events
    let fds := q.poll fds
    some (.ok, if q.nevents ≠ 0 then fds.flatMap (dispatch acts) else [], ())

/-- The plugin with its pass. -/
def plugin (fuel : ℕ) (acts : Actions) : Plugin Unit Answer := ⟨reg, proc fuel acts⟩

/-- A new event. -/
def init : Guard Unit := .create ()

/-- `poll` reports what it was asked for, and errors. -/
structure Answer.Legal (q : Answer) : Prop where
  length_eq : ∀ fds, (q.revents fds).length = fds.length
  asked : ∀ (fds : List Pollfd) (i : ℕ) (fd : Pollfd) (r : BitVec 16), fds[i]? = some fd →
    (q.revents fds)[i]? = some r → r &&& ~~~(fd.events ||| pollerr) = 0

/-- The flags for a callback. -/
def evBits : Kind → BitVec 16
  | .read => pollin
  | .write => pollout
  | .error => pollerr

/-- What a pass does: the callbacks that the array calls for, each once, and each of them is
due. -/
structure Passed (acts : Actions) (guard : Guard Unit) (q : Answer) (ret : Kerr)
    (fs : List Fired) : Prop where
  ret_eq : ret = if guard.entries = [] then .noent else if q.mem = false then .nomem else .ok
  nodup : fs.Nodup
  due : ∀ f ∈ fs, Due guard f
  mem_iff : ∀ f, f ∈ fs ↔ q.mem = true ∧ 0 < q.nevents ∧ acts f.kind = true ∧
    ∃ fd ∈ q.poll (guard.entries.map (fill blank)), fd.fd = f.fd ∧
      fd.revents &&& evBits f.kind ≠ 0

/-- Any calls are made; what `poll` answers is legal. -/
def Allowed (_ : Guard Unit) : Turn Answer → Prop
  | .call _ => True
  | .process q => q.Legal

/-! ## The array -/

section Arrays
variable {acts : Actions} {fd : Pollfd} {f : Fired} {events : List KeventEvent} {q : Answer}

theorem mem_dispatch : f ∈ dispatch acts fd ↔
    acts f.kind = true ∧ fd.fd = f.fd ∧ fd.revents &&& evBits f.kind ≠ 0 := by
  rw [dispatch, List.mem_append, List.mem_append, mem_if_fire, mem_if_fire, mem_if_fire]
  cases f.kind <;> simp [evBits]

@[simp] theorem fill_fd (old : Pollfd) (e : KeventEvent) : (fill old e).fd = e.efd := by
  rw [fill]
  split_ifs <;> rfl

@[simp] theorem fill_revents (old : Pollfd) (e : KeventEvent) :
    (fill old e).revents = old.revents := by
  rw [fill]
  split_ifs <;> rfl

theorem fillAll_eq :
    fillAll (List.replicate events.length blank) events = some (events.map (fill blank)) := by
  induction events with
  | nil => rfl
  | cons event events ih =>
      rw [List.length_cons, List.replicate_succ, fillAll, ih]
      rfl

/-- What `poll` is asked for. -/
theorem fill_events {e : KeventEvent} {k : Kind} (hk : k ≠ .error)
    (h : ((fill blank e).events ||| pollerr) &&& evBits k ≠ 0) : has e.flags k = true := by
  by_contra hhas
  refine h ?_
  cases k with
  | error => exact absurd rfl hk
  | read =>
      rw [fill, if_neg hhas]
      split
      · change (blank.events ||| pollout ||| pollerr) &&& pollin = 0
        decide
      · change (blank.events ||| pollerr) &&& pollin = 0
        decide
  | write =>
      rw [fill, if_neg hhas]
      split
      · change (blank.events ||| pollin ||| pollerr) &&& pollout = 0
        decide
      · change (blank.events ||| pollerr) &&& pollout = 0
        decide

theorem map_fd_fill : (events.map (fill blank)).map Pollfd.fd = events.map KeventEvent.efd := by
  rw [List.map_map]
  exact List.map_congr_left fun e _ => fill_fd blank e

theorem map_fd_zipWith_revents {fds : List Pollfd} {rs : List (BitVec 16)}
    (h : rs.length = fds.length) :
    (List.zipWith (fun fd r => { fd with revents := r }) fds rs).map Pollfd.fd =
      fds.map Pollfd.fd := by
  induction fds generalizing rs with
  | nil => rfl
  | cons fd fds ih =>
      cases rs with
      | nil => cases h
      | cons r rs =>
          rw [List.zipWith_cons_cons, List.map_cons, List.map_cons, ih (Nat.succ.inj h)]

/-- `poll` leaves the descriptors. -/
theorem map_fd_poll (hlen : ∀ fds, (q.revents fds).length = fds.length) (fds : List Pollfd) :
    (q.poll fds).map Pollfd.fd = fds.map Pollfd.fd := by
  rw [Answer.poll]
  split
  · rfl
  · exact map_fd_zipWith_revents (hlen fds)

end Arrays

/-! ## Passes -/

section Passes
variable {guard : Guard Unit} {es : List KeventEvent} {fuel : ℕ} {acts : Actions} {q : Answer}

theorem compare_eq (h : guard.Lists es) : guard.events.opts.compare = some eventsCompare := by
  rw [h.opts]
  rfl

/-- The loop over the registry. -/
theorem foreach_eq (h : guard.Lists es) (hnodup : (es.map KeventEvent.efd).Nodup)
    (hne : es ≠ []) (hfuel : eventsOpts.cap ≤ fuel) :
    guard.events.foreach fuel = some (es.map Cell.obj) := by
  have htells : Kset.TellsApart eventsCompare (es.map Cell.obj) := by
    refine Kset.TellsApart.of_key ?_ hnodup
    intro a _ b _
    rw [Guard.eventsCompare_eq_zero, eq_comm]
  refine h.holds.foreach (compare_eq h) htells (by simpa using hne) ?_
  rw [List.length_map]
  exact Nat.le_trans h.room hfuel

/-- It does not end if a descriptor has two entries. -/
theorem foreach_eq_none (h : guard.Lists es) (hdup : ¬ (es.map KeventEvent.efd).Nodup) :
    guard.events.foreach fuel = none := by
  rw [List.nodup_iff_getElem?_ne_getElem?] at hdup
  push Not at hdup
  obtain ⟨i, j, hij, hj, heq⟩ := hdup
  rw [List.length_map] at hj
  rw [List.getElem?_map, List.getElem?_map, List.getElem?_eq_getElem hj,
    List.getElem?_eq_getElem (Nat.lt_trans hij hj)] at heq
  have hget : ∀ {k : ℕ} (hk : k < es.length), (es.map Cell.obj)[k]? = some (.obj es[k]) := by
    intro k hk
    rw [List.getElem?_map, List.getElem?_eq_getElem hk]
    rfl
  refine h.holds.foreach_eq_none (compare_eq h) ?_ hij (hget (Nat.lt_trans hij hj)) (hget hj) ?_
    fuel
  · intro c hc
    obtain ⟨e, -, rfl⟩ := List.mem_map.mp hc
    exact Guard.eventsCompare_eq_zero.mpr rfl
  · exact Guard.eventsCompare_eq_zero.mpr (Option.some.inj heq)

theorem used_eq_zero_iff (h : guard.Lists es) : guard.events.used = 0 ↔ es = [] := by
  rw [h.holds.used_eq, List.length_map, List.length_eq_zero_iff]

/-- The callbacks of a pass that gets as far as `poll`. -/
theorem proc_eq (h : guard.Lists es) (hfuel : eventsOpts.cap ≤ fuel)
    (hnodup : (es.map KeventEvent.efd).Nodup) (hne : es ≠ []) (hmem : q.mem = true) :
    proc fuel acts guard q = some (.ok,
      if q.nevents ≠ 0 then (q.poll (es.map (fill blank))).flatMap (dispatch acts) else [],
      ()) := by
  have hused : guard.events.used = es.length := by rw [h.holds.used_eq, List.length_map]
  have hread : (es.map Cell.obj).mapM readEvent = some es := mapM_map_some fun _ _ => rfl
  rw [proc, if_neg (mt (used_eq_zero_iff h).mp hne), if_neg (by simp [hmem]), hused]
  simp only [foreach_eq h hnodup hne hfuel, hread, fillAll_eq, Option.bind_eq_bind,
    Option.bind_some]

/-- **When a pass returns**: if no descriptor has two entries, or it does not get that far. -/
theorem proc_isSome_iff (h : guard.Lists es) (hfuel : eventsOpts.cap ≤ fuel) :
    (proc fuel acts guard q).isSome ↔ q.mem = false ∨ (es.map KeventEvent.efd).Nodup := by
  by_cases hne : es = []
  · subst hne
    rw [proc, if_pos ((used_eq_zero_iff h).mpr rfl)]
    simp
  · cases hmem : q.mem with
    | false =>
        rw [proc, if_neg (mt (used_eq_zero_iff h).mp hne), if_pos hmem]
        simp
    | true =>
        by_cases hnodup : (es.map KeventEvent.efd).Nodup
        · rw [proc_eq h hfuel hnodup hne hmem]
          simp [hnodup]
        · rw [proc, if_neg (mt (used_eq_zero_iff h).mp hne), if_neg (by simp [hmem])]
          simp [foreach_eq_none h hnodup, hnodup]

/-- Where `poll` has failed there is nothing in the array. -/
theorem pos_of_mem_poll {fd : Pollfd} (hfd : fd ∈ q.poll (es.map (fill blank))) {k : Kind}
    (hbits : fd.revents &&& evBits k ≠ 0) : ¬ q.nevents < 0 := by
  intro hneg
  rw [Answer.poll, if_pos hneg] at hfd
  obtain ⟨e, -, rfl⟩ := List.mem_map.mp hfd
  rw [fill_revents] at hbits
  exact hbits (BitVec.zero_and)

/-- A callback is for what the registry asks for. -/
theorem due_of_mem_poll (h : guard.Lists es) (hlegal : q.Legal) {fd : Pollfd}
    (hfd : fd ∈ q.poll (es.map (fill blank))) {f : Fired} (heq : fd.fd = f.fd)
    (hbits : fd.revents &&& evBits f.kind ≠ 0) : Due guard f := by
  have hneg := pos_of_mem_poll hfd hbits
  rw [Answer.poll, if_neg hneg] at hfd
  obtain ⟨i, hi⟩ := List.mem_iff_getElem?.mp hfd
  rw [List.getElem?_zipWith_eq_some] at hi
  obtain ⟨fd₀, r, hfd₀, hr, rfl⟩ := hi
  have hasked := hlegal.asked _ i _ r hfd₀ hr
  rw [List.getElem?_map] at hfd₀
  obtain ⟨e, he, rfl⟩ := Option.map_eq_some_iff.mp hfd₀
  have hentry : e ∈ guard.entries := by
    rw [h.entries_eq]
    exact List.mem_of_getElem? he
  have hefd : e.efd = f.fd := (fill_fd blank e).symm.trans heq
  by_cases hkind : f.kind = .error
  · exact ⟨e, hentry, hefd, .inl hkind⟩
  · have hwant : ((fill blank e).events ||| pollerr) &&& evBits f.kind ≠ 0 :=
      fun hzero => hbits (and_eq_zero_of_subset hasked hzero)
    exact ⟨e, hentry, hefd, .inr (fill_events hkind hwant)⟩

/-- A pass that does not get as far as `poll`. -/
theorem passed_refused (h : guard.Lists es) (hno : es = [] ∨ q.mem = false) :
    Passed acts guard q (if es = [] then .noent else .nomem) [] := by
  have hentries := h.entries_eq
  have hpoll : q.poll [] = [] := by
    rw [Answer.poll]
    split <;> rfl
  refine ⟨?_, List.nodup_nil, by simp, ?_⟩
  · rw [hentries]
    by_cases hne : es = []
    · rw [if_pos hne, if_pos hne]
    · rw [if_neg hne, if_neg hne, if_pos (hno.resolve_left hne)]
  · intro f
    refine iff_of_false List.not_mem_nil ?_
    rintro ⟨hmem, -, -, fd, hfd, -⟩
    rcases hno with rfl | hnone
    · rw [hentries, List.map_nil, hpoll] at hfd
      cases hfd
    · rw [hnone] at hmem
      cases hmem

/-- A pass that gets as far as `poll`. -/
theorem passed_polled (h : guard.Lists es) (hlegal : q.Legal)
    (hnodup : (es.map KeventEvent.efd).Nodup) (hne : es ≠ []) (hmem : q.mem = true) :
    Passed acts guard q .ok
      (if q.nevents ≠ 0 then (q.poll (es.map (fill blank))).flatMap (dispatch acts) else []) := by
  have hentries := h.entries_eq
  have hiff : ∀ f, f ∈ (if q.nevents ≠ 0 then
        (q.poll (es.map (fill blank))).flatMap (dispatch acts) else []) ↔
      q.nevents ≠ 0 ∧ acts f.kind = true ∧
        ∃ fd ∈ q.poll (es.map (fill blank)), fd.fd = f.fd ∧
          fd.revents &&& evBits f.kind ≠ 0 := by
    intro f
    split
    · next hnev =>
        simp only [List.mem_flatMap, mem_dispatch]
        constructor
        · rintro ⟨fd, hfd, hact, heq, hbits⟩
          exact ⟨hnev, hact, fd, hfd, heq, hbits⟩
        · rintro ⟨-, hact, fd, hfd, heq, hbits⟩
          exact ⟨fd, hfd, hact, heq, hbits⟩
    · next hnev => exact iff_of_false List.not_mem_nil fun hcon => hnev hcon.1
  have hfds : ((q.poll (es.map (fill blank))).map Pollfd.fd).Nodup := by
    rw [map_fd_poll hlegal.length_eq, map_fd_fill]
    exact hnodup
  refine ⟨?_, ?_, ?_, ?_⟩
  · rw [hentries, if_neg hne, if_neg (by simp [hmem])]
  · split
    · rw [List.nodup_flatMap]
      refine ⟨fun _ _ => nodup_tests, ?_⟩
      rw [List.Nodup, List.pairwise_map] at hfds
      refine hfds.imp ?_
      intro a b hab
      refine List.disjoint_left.mpr ?_
      intro f ha hb
      exact hab ((mem_dispatch.mp ha).2.1.trans (mem_dispatch.mp hb).2.1.symm)
    · exact List.nodup_nil
  · intro f hf
    obtain ⟨-, -, fd, hfd, heq, hbits⟩ := (hiff f).mp hf
    exact due_of_mem_poll h hlegal hfd heq hbits
  · intro f
    rw [hiff f, hentries]
    constructor
    · rintro ⟨hnev, hact, fd, hfd, heq, hbits⟩
      have hneg := pos_of_mem_poll hfd hbits
      exact ⟨hmem, by omega, hact, fd, hfd, heq, hbits⟩
    · rintro ⟨-, hpos, hact, hfd⟩
      exact ⟨by omega, hact, hfd⟩

/-- A pass that returns. -/
theorem passed_of_proc (h : guard.Lists es) (hlegal : q.Legal)
    (hfuel : eventsOpts.cap ≤ fuel) {ret : Kerr} {fs : List Fired} {priv : Unit}
    (hproc : proc fuel acts guard q = some (ret, fs, priv)) : Passed acts guard q ret fs := by
  have hsome := (proc_isSome_iff h hfuel).mp (Option.isSome_of_mem hproc)
  by_cases hne : es = []
  · have hpassed : Passed acts guard q _ [] := passed_refused h (.inl hne)
    rw [if_pos hne] at hpassed
    rw [proc, if_pos ((used_eq_zero_iff h).mpr hne)] at hproc
    cases hproc
    exact hpassed
  · have hused := mt (used_eq_zero_iff h).mp hne
    cases hmem : q.mem with
    | false =>
        have hpassed : Passed acts guard q _ [] := passed_refused h (.inr hmem)
        rw [if_neg hne] at hpassed
        rw [proc, if_neg hused, if_pos hmem] at hproc
        cases hproc
        exact hpassed
    | true =>
        have hnodup := hsome.resolve_left (by simp [hmem])
        rw [proc_eq h hfuel hnodup hne hmem] at hproc
        cases hproc
        exact passed_polled h hlegal hnodup hne hmem

end Passes

/-- The flags that a descriptor is asked about. -/
def ready : Answer where
  mem := true
  nevents := 1
  revents := fun fds => fds.map Pollfd.events

end Kylin.Kpoll
