import Kylin.Event.Epoll
import Kylin.Event.Select

/-!
# What is left behind

`kylin_event_del` deletes an entry when it is called with the flags of the entry, and
otherwise makes the flags it is called with those of the entry: a call that names a part of
the flags keeps this part and deletes the rest.  `kylin_event_add` puts the entry into the
set before it calls the plugin, and leaves it there when the plugin refuses.

Both are shown over any plugin.  A `Backend` has the callbacks and says what its state means:
which kinds of events it watches, and when it refuses a descriptor.

## Main definitions

* `Backend`; `Kselect.backend`, `Kepoll.backend`, `Kpoll.backend` — plugins.
* `Deleted` — what a deletion should do.
* `Traceless` — what a failed registration should do.

## Main results

* `deleted_iff` — which deletions delete.
* `traceless_iff` — which failed registrations leave no trace.
* `Kepoll.refuses_of_present` — registrations that every kernel refuses.
-/

namespace Kylin

open Event

namespace Event

/-- A plugin: its callbacks, the states it can be in, the kinds of events that are registered
in a state, and the registrations that are refused. -/
structure Backend (P : Type) where
  reg : Reg P
  good : P → Prop
  watches : P → ℕ → Kind → Prop
  refuses : P → ℕ → Flags → Prop
  /-- What was deleted is not watched. -/
  del_clears : ∀ (guard guard' : Guard P) (fd : ℕ) (flags : Flags),
    guard.call reg.del fd flags = some (.ok, guard') →
      ∀ k, has flags k = true → ¬ watches guard'.priv fd k
  /-- A registration fails when it is refused. -/
  add_refuses : ∀ (guard : Guard P) (fd : ℕ) (flags : Flags), good guard.priv →
    ((∃ r guard', guard.call reg.add fd flags = some (r, guard') ∧ r ≠ .ok) ↔
      refuses guard.priv fd flags)

end Event

/-! ## The plugins -/

namespace Kselect

/-- The sets have the options that `kselect_create` gives them. -/
def Created (s : KeventSelect) : Prop := ∀ k, (s k).fds.opts = fdsetOpts

/-- `kselect_add` finds the set of a kind full. -/
def refuses (s : KeventSelect) (fd : ℕ) (flags : Flags) : Prop :=
  fd < fdSetsize ∧ ∃ k, has flags k = true ∧ (s k).fds.used = fdsetOpts.cap

section Slots
variable {s t : Slot} {fd : ℕ} {ret : Kerr}

theorem Slot.clear_bits (h : s.clear fd = some (ret, t)) : t.bits fd = false := by
  rw [Slot.clear] at h
  split at h
  · cases h
  · obtain ⟨⟨ret', fds⟩, -, heq⟩ := Option.map_eq_some_iff.mp h
    obtain ⟨-, rfl⟩ := Prod.mk.inj heq
    exact Function.update_self _ _ _

/-- Adding fails for a full set, and for no other. -/
theorem Slot.set_created (hopts : s.fds.opts = fdsetOpts) (hfd : fd < fdSetsize) :
    ∃ t, s.set fd = some (if s.fds.used = fdsetOpts.cap then .inval else .ok, t) := by
  rw [Slot.set, if_neg (Nat.not_le.mpr hfd)]
  by_cases hfull : s.fds.used = fdsetOpts.cap
  · have hused : s.fds.used = s.fds.opts.cap := by rw [hfull, hopts]
    rw [Kset.insert_full hused, if_pos hfull]
    exact ⟨_, rfl⟩
  · rw [Kset.insert, hopts, if_neg hfull, if_neg hfull]
    exact ⟨_, rfl⟩

end Slots

theorem add_refuses (guard : Guard KeventSelect) (fd : ℕ) (flags : Flags)
    (hgood : Created guard.priv) :
    (∃ r guard', guard.call reg.add fd flags = some (r, guard') ∧ r ≠ .ok) ↔
      refuses guard.priv fd flags := by
  constructor
  · rintro ⟨r, guard', hcall, hr⟩
    rcases forKinds_cases (Guard.priv_of_call hcall) with ⟨hok, -⟩ | ⟨-, k, x, hk⟩
    · exact absurd hok hr
    split at hk
    · next hhas =>
        have hfd : fd < fdSetsize := by
          by_contra hnot
          rw [Slot.set, if_pos (Nat.not_lt.mp hnot)] at hk
          cases hk
        refine ⟨hfd, k, hhas, ?_⟩
        by_contra hroom
        obtain ⟨t, ht⟩ := Slot.set_created (hgood k) hfd
        rw [ht, if_neg hroom] at hk
        exact hr (Prod.mk.inj (Option.some.inj hk)).1.symm
    · exact absurd (Prod.mk.inj (Option.some.inj hk)).1.symm hr
  · rintro ⟨hfd, k, hhas, hfull⟩
    have hslot : ∀ k, ∃ r t,
        (if has flags k then (guard.priv k).set fd else some (.ok, guard.priv k)) =
          some (r, t) ∧
        (has flags k = true → (guard.priv k).fds.used = fdsetOpts.cap → r = .inval) := by
      intro k
      obtain ⟨t, ht⟩ := Slot.set_created (hgood k) hfd
      cases hk : has flags k with
      | false => exact ⟨.ok, _, rfl, fun hcon => by cases hcon⟩
      | true => exact ⟨_, t, ht, fun _ hused => if_pos hused⟩
    choose r t ht hinval using hslot
    have hne : r k ≠ .ok := by
      rw [hinval k hhas hfull]
      exact fun hcon => by cases hcon
    obtain ⟨k', s', hr, hrun, -⟩ := forKinds_fail
      (f := fun k s => if has flags k then s.set fd else some (.ok, s)) ht ⟨k, hne⟩
    exact ⟨r k', _, Guard.call_some (f := add) hrun, hr⟩

theorem del_clears (guard guard' : Guard KeventSelect) (fd : ℕ) (flags : Flags)
    (hcall : guard.call reg.del fd flags = some (.ok, guard')) :
    ∀ k, has flags k = true → ¬ (guard'.priv k).bits fd = true := by
  rcases forKinds_cases (Guard.priv_of_call hcall) with ⟨-, hall⟩ | ⟨hne, -⟩
  · intro k hhas
    have hk := hall k
    rw [if_pos hhas] at hk
    rw [Slot.clear_bits hk]
    exact Bool.false_ne_true
  · exact absurd rfl hne

/-- `select`: a kind of event is registered by its bit. -/
def backend : Backend KeventSelect where
  reg := reg
  good := Created
  watches := fun s fd k => (s k).bits fd = true
  refuses := refuses
  del_clears := del_clears
  add_refuses := add_refuses

end Kselect

namespace Kepoll
variable {ctl : EpollCtl} {m m' : Interest} {fd : ℕ} {flags : Flags}

/-- `epoll_ctl` refuses the descriptor for reading, or for writing once it is there for reading. -/
def refuses (ctl : EpollCtl) (m : Interest) (fd : ℕ) (flags : Flags) : Prop :=
  has flags .read = true ∧ (ctl.add m fd (epollin ||| epollrdhup)).1 ≠ .ok ∨
    has flags .write = true ∧
      (ctl.add (if has flags .read then (ctl.add m fd (epollin ||| epollrdhup)).2 else m) fd
        (epollout ||| epollrdhup)).1 ≠ .ok

theorem add_ne_ok_iff : (addOn ctl m fd flags).1 ≠ .ok ↔ refuses ctl m fd flags := by
  cases hread : has flags .read with
  | false => cases hwrite : has flags .write <;> simp [addOn, refuses, hread, hwrite]
  | true =>
      cases hctl : ctl.add m fd (epollin ||| epollrdhup) with
      | mk ret m₁ =>
          by_cases hret : ret = .ok
          · cases hwrite : has flags .write <;>
              simp [addOn, refuses, hread, hwrite, hctl, hret]
          · simp [addOn, refuses, hread, hctl, hret]

/-- A descriptor is refused when it is there, and when it is asked for both flags. -/
theorem refuses_of_present (h : ctl.Lawful)
    (hflags : (m fd).isSome ∧ (has flags .read = true ∨ has flags .write = true) ∨
      has flags .read = true ∧ has flags .write = true) : refuses ctl m fd flags := by
  have hin : ∀ {m : Interest} {events : BitVec 32}, (m fd).isSome →
      (ctl.add m fd events).1 ≠ .ok := by
    intro m events hsome hok
    rw [(h.add_ok m fd events _ (Prod.ext hok rfl)).1] at hsome
    cases hsome
  by_cases hread : has flags .read = true
  · by_cases hok : (ctl.add m fd (epollin ||| epollrdhup)).1 = .ok
    · obtain ⟨hnone, hset⟩ := h.add_ok m fd _ _ (Prod.ext hok rfl)
      obtain ⟨hsome, -⟩ | ⟨-, hwrite⟩ := hflags
      · rw [hnone] at hsome
        cases hsome
      · refine .inr ⟨hwrite, ?_⟩
        rw [if_pos hread]
        have hsome : (ctl.add m fd (epollin ||| epollrdhup)).2 fd = some _ :=
          (congrFun hset fd).trans (Function.update_self ..)
        exact hin (Option.isSome_of_mem hsome)
    · exact .inl ⟨hread, hok⟩
  · obtain ⟨hsome, hflags⟩ | ⟨hcon, -⟩ := hflags
    · refine .inr ⟨hflags.resolve_left hread, ?_⟩
      rw [if_neg hread]
      exact hin hsome
    · exact absurd hcon hread

/-- A descriptor that was deleted is not in the interest list. -/
theorem eq_none_of_del (h : ctl.Lawful) (hdel : delOn ctl m fd flags = (.ok, m'))
    (hflags : has flags .read = true ∨ has flags .write = true) : m' fd = none := by
  have hctl : ∀ {m m' : Interest}, ctl.del m fd = (.ok, m') → m' fd = none := by
    intro m m' hok
    rw [h.del_ok m fd m' hok]
    exact Function.update_self _ _ _
  cases hread : has flags .read with
  | false =>
      have hwrite := hflags.resolve_left (by simp [hread])
      simp only [delOn, hread, hwrite, if_true, ne_eq] at hdel
      exact hctl hdel
  | true =>
      rcases hfirst : ctl.del m fd with ⟨ret, m₁⟩
      simp only [delOn, hread, if_true, hfirst] at hdel
      by_cases hret : ret = .ok
      · subst hret
        simp only [ne_eq, not_true, if_false] at hdel
        split at hdel
        · exact hctl hdel
        · rw [← (Prod.mk.inj hdel).2]
          exact hctl hfirst
      · rw [if_pos hret] at hdel
        exact absurd (Prod.mk.inj hdel).1 hret

/-- The kinds of events that a descriptor is in the interest list for. -/
def watches (m : Interest) (fd : ℕ) : Kind → Prop
  | .read => watched m fd epollin
  | .write => watched m fd epollout
  | .error => False

theorem del_clears (h : ctl.Lawful) (guard guard' : Guard Interest) (fd : ℕ) (flags : Flags)
    (hcall : guard.call (regOn ctl).del fd flags = some (.ok, guard')) :
    ∀ k, has flags k = true → ¬ watches guard'.priv fd k := by
  have hdel := Option.some.inj (Guard.priv_of_call hcall)
  intro k hhas hwatches
  cases k with
  | read =>
      obtain ⟨mask, hmask, -⟩ := hwatches
      rw [eq_none_of_del h hdel (.inl hhas)] at hmask
      cases hmask
  | write =>
      obtain ⟨mask, hmask, -⟩ := hwatches
      rw [eq_none_of_del h hdel (.inr hhas)] at hmask
      cases hmask
  | error => exact hwatches

theorem add_refuses (guard : Guard Interest) (fd : ℕ) (flags : Flags) :
    (∃ r guard', guard.call (regOn ctl).add fd flags = some (r, guard') ∧ r ≠ .ok) ↔
      refuses ctl guard.priv fd flags := by
  rw [← add_ne_ok_iff]
  constructor
  · rintro ⟨r, guard', hcall, hr⟩
    rw [Option.some.inj (Guard.priv_of_call hcall)]
    exact hr
  · exact fun hr => ⟨_, _, Guard.call_some rfl, hr⟩

/-- `epoll`: the interest list of a kernel. -/
def backend (ctl : EpollCtl) (h : ctl.Lawful) : Backend Interest where
  reg := regOn ctl
  good := fun _ => True
  watches := watches
  refuses := refuses ctl
  del_clears := del_clears h
  add_refuses := fun guard fd flags _ => add_refuses guard fd flags

/-- A kernel in which no descriptor can be watched, as when it is not open. -/
def closedCtl : EpollCtl := ⟨fun m _ _ => (.fail, m), epollCtlDel⟩

theorem lawful_closedCtl : closedCtl.Lawful where
  add_ok := by
    intro m fd events m' h
    cases h
  del_ok := lawful_interestCtl.del_ok

end Kepoll

namespace Kpoll

/-- The callbacks of `lib/core/event/plugin/kylin_poll.c`: `kpoll_proc` asks the registry. -/
def reg : Reg Unit where
  add := some fun _ _ _ => some (.ok, ())
  del := some fun _ _ _ => some (.ok, ())
  mod := some fun _ _ _ => some (.ok, ())

/-- `poll`, which keeps nothing. -/
def backend : Backend Unit where
  reg := reg
  good := fun _ => True
  watches := fun _ _ _ => False
  refuses := fun _ _ _ => False
  del_clears := fun _ _ _ _ _ _ _ => id
  add_refuses := by
    intro guard fd flags _
    simp [Guard.call, reg]

end Kpoll

namespace Event

namespace Backend
variable {P : Type} {B : Backend P} {guard guard' : Guard P} {es : List KeventEvent} {fd : ℕ}
  {g f flags : Flags}

/-- A kind of event is registered in the set `events`. -/
def Listed (guard : Guard P) (fd : ℕ) (k : Kind) : Prop :=
  ∃ e ∈ guard.entries, e.efd = fd ∧ has e.flags k = true

/-- **A deletion deletes**: the kinds in `f` are registered neither in the set nor with the
plugin, the other kinds in `g` still are, there is an entry if and only if a kind is left, and
the entries of other descriptors are as before. -/
structure Deleted (B : Backend P) (guard guard' : Guard P) (fd : ℕ) (g f : Flags) : Prop where
  gone : ∀ k, has f k = true → ¬ Listed guard' fd k ∧ ¬ B.watches guard'.priv fd k
  kept : ∀ k, has g k = true → has f k = false →
    Listed guard' fd k ∧ B.watches guard'.priv fd k
  entry : (∀ e ∈ guard'.entries, e.efd ≠ fd) ↔ ∀ k, has g k = true → has f k = true
  others : ∀ e : KeventEvent, e.efd ≠ fd → (e ∈ guard'.entries ↔ e ∈ guard.entries)

/-- **A failed registration leaves no trace.** -/
def Traceless (B : Backend P) (guard : Guard P) (fd : ℕ) (flags : Flags) : Prop :=
  ∀ r guard', guard.add B.reg fd flags = some (r, guard') → r ≠ .ok → guard' = guard

/-! ## Deletions -/

/-- A call with the flags of the entry deletes it. -/
theorem deleted_of_eq (hlists : guard.Lists es) (hnodup : (es.map KeventEvent.efd).Nodup)
    (hlookup : Guard.lookup es fd = some f)
    (hok : guard.del B.reg fd f = some (.ok, guard')) : Deleted B guard guard' fd f f := by
  obtain ⟨i, e, hfirst, hflags⟩ := Guard.exists_first hlookup
  obtain ⟨guard₁, hcall, hpriv, hlists'⟩ := hlists.del_ok hfirst hok
  rw [if_pos hflags] at hcall hlists'
  have hnone : ∀ e ∈ guard'.entries, e.efd ≠ fd := by
    rw [hlists'.entries_eq, ← Guard.lookup_eq_none_iff, Guard.lookup_eraseP hnodup]
    exact Function.update_self _ _ _
  constructor
  · intro k hk
    constructor
    · rintro ⟨e, he, hefd, -⟩
      exact hnone e he hefd
    · rw [hpriv]
      exact B.del_clears guard guard₁ fd f hcall k hk
  · intro k hk hk'
    rw [hk] at hk'
    cases hk'
  · exact iff_of_true hnone fun _ hk => hk
  · intro x hx
    rw [hlists'.entries_eq, hlists.entries_eq]
    exact List.mem_eraseP_of_neg (by simpa using hx)

/-- A call with other flags does not: the entry stays, with these flags. -/
theorem not_deleted_of_ne (hlists : guard.Lists es) (hnodup : (es.map KeventEvent.efd).Nodup)
    (hlookup : Guard.lookup es fd = some g) (hne : g ≠ f)
    (hok : guard.del B.reg fd f = some (.ok, guard')) : ¬ Deleted B guard guard' fd g f := by
  intro h
  obtain ⟨i, e, hfirst, rfl⟩ := Guard.exists_first hlookup
  obtain ⟨guard₁, -, -, hlists'⟩ := hlists.del_ok hfirst hok
  rw [if_neg hne] at hlists'
  have hnodup' := hfirst.nodup_set hnodup f
  have hlookup' : Guard.lookup (es.set i { e with flags := f }) fd = some f := by
    rw [Guard.lookup_set hfirst f]
    exact Function.update_self _ _ _
  have hmem : (⟨fd, f⟩ : KeventEvent) ∈ guard'.entries := by
    rw [hlists'.entries_eq]
    exact (Guard.lookup_eq_some_iff hnodup').mp hlookup'
  have hlisted : ∀ k, Listed guard' fd k ↔ has f k = true := by
    intro k
    constructor
    · rintro ⟨x, hx, rfl, hk⟩
      rw [hlists'.entries_eq] at hx
      have hx' := (Guard.lookup_eq_some_iff hnodup').mpr hx
      rw [hlookup', Option.some.injEq] at hx'
      rw [hx']
      exact hk
    · exact fun hk => ⟨_, hmem, rfl, hk⟩
  -- no kind is in the new flags, so the kinds of the entry are lost, or there is nothing to keep
  have hnone : ∀ k, has f k = false := by
    intro k
    rw [Bool.eq_false_iff]
    exact fun hk => (h.gone k hk).1 ((hlisted k).mpr hk)
  have hlost : ∀ k, has e.flags k = true → has f k = true := by
    intro k hk
    exact (hlisted k).mp (h.kept k hk (hnone k)).1
  exact h.entry.mpr hlost _ hmem rfl

/-- **Which deletions delete**: those with the flags of the entry. -/
theorem deleted_iff (B : Backend P) (hlists : guard.Lists es)
    (hnodup : (es.map KeventEvent.efd).Nodup) (hlookup : Guard.lookup es fd = some g)
    (hok : guard.del B.reg fd f = some (.ok, guard')) :
    Deleted B guard guard' fd g f ↔ f = g := by
  constructor
  · intro h
    by_contra hne
    exact not_deleted_of_ne hlists hnodup hlookup (Ne.symm hne) hok h
  · rintro rfl
    exact deleted_of_eq hlists hnodup hlookup hok

/-- A descriptor that is deleted with the flags it was added with. -/
theorem deleted_iff_both : ∃ guard guard' : Guard Kepoll.Interest,
    Kepoll.init.add Kepoll.reg 3 Kind.read.flag = some (.ok, guard) ∧
      guard.del Kepoll.reg 3 Kind.read.flag = some (.ok, guard') ∧
      Deleted (Kepoll.backend _ Kepoll.lawful_interestCtl) guard guard' 3 Kind.read.flag
        Kind.read.flag := by
  obtain ⟨guard, guard', hadd, hlists, hdel⟩ : ∃ guard guard' : Guard Kepoll.Interest,
      Kepoll.init.add Kepoll.reg 3 Kind.read.flag = some (.ok, guard) ∧
        guard.Lists [⟨3, Kind.read.flag⟩] ∧
        guard.del Kepoll.reg 3 Kind.read.flag = some (.ok, guard') :=
    ⟨_, _, rfl, ⟨rfl, rfl, by decide⟩, rfl⟩
  exact ⟨guard, guard', hadd, hdel,
    (deleted_iff (Kepoll.backend _ Kepoll.lawful_interestCtl) hlists (by simp) rfl hdel).mpr rfl⟩

/-- One that was added to `poll` for reading and writing and is deleted for reading: it stays
registered for reading and is not any more for writing. -/
theorem not_deleted_reading : ∃ guard guard' : Guard Unit,
    (Guard.create ()).add Kpoll.reg 3 Kepoll.both = some (.ok, guard) ∧
      guard.del Kpoll.reg 3 Kind.read.flag = some (.ok, guard') ∧
      guard'.entries = [⟨3, Kind.read.flag⟩] ∧
      ¬ Deleted Kpoll.backend guard guard' 3 Kepoll.both Kind.read.flag := by
  refine ⟨_, _, rfl, rfl, rfl, ?_⟩
  intro h
  exact (h.gone .read rfl).1 ⟨⟨3, Kind.read.flag⟩, List.mem_singleton_self _, rfl, rfl⟩

/-! ## Registrations -/

/-- **Which failed registrations leave no trace**: those that find the set full.  Others do not
fail. -/
theorem traceless_iff (B : Backend P) (hlists : guard.Lists es) (hgood : B.good guard.priv) :
    Traceless B guard fd flags ↔
      es.length = eventsOpts.cap ∨ ¬ B.refuses guard.priv fd flags := by
  by_cases hfull : es.length = eventsOpts.cap
  · refine iff_of_true ?_ (.inl hfull)
    intro r guard' hadd _
    rw [hlists.add_full hfull] at hadd
    exact (Prod.mk.inj (Option.some.inj hadd)).2.symm
  · obtain ⟨guard₁, hlists₁, hpriv, hadd⟩ :=
      hlists.add (Nat.lt_of_le_of_ne hlists.room hfull) B.reg fd flags
    have hrefuses := B.add_refuses guard₁ fd flags (by rwa [hpriv])
    rw [hpriv] at hrefuses
    rw [or_iff_right hfull, ← hrefuses, Traceless, hadd]
    constructor
    · rintro h ⟨r, guard', hcall, hr⟩
      have hentries := (hlists₁.of_events (Guard.events_of_call hcall)).entries_eq
      rw [h r guard' hcall hr, hlists.entries_eq] at hentries
      simpa using congrArg List.length hentries
    · intro h r guard' hcall hr
      exact absurd ⟨r, guard', hcall, hr⟩ h

/-- A full set. -/
theorem traceless_iff_full : ∃ guard : Guard Kepoll.Interest,
    guard.add Kepoll.reg 3 Kepoll.both = some (.inval, guard) ∧
      Traceless (Kepoll.backend _ Kepoll.lawful_interestCtl) guard 3 Kepoll.both := by
  have hlists := Guard.lists_replicate (fun _ => none : Kepoll.Interest) ⟨7, 0⟩
    (Nat.le_refl eventsOpts.cap)
  have hlen := List.length_replicate (n := eventsOpts.cap) (a := (⟨7, 0⟩ : KeventEvent))
  exact ⟨_, hlists.add_full hlen,
    (traceless_iff (Kepoll.backend _ Kepoll.lawful_interestCtl) hlists trivial).mpr (.inl hlen)⟩

/-- A descriptor that is added to `epoll` for reading and writing: the second call of
`epoll_ctl` fails, and the entry and the first registration stay.  And one that the kernel
refuses: the entry stays. -/
theorem not_traceless_both :
    (∃ guard' : Guard Kepoll.Interest,
      Kepoll.init.add Kepoll.reg 3 Kepoll.both = some (.fail, guard') ∧
        guard'.entries = [⟨3, Kepoll.both⟩] ∧ (guard'.priv 3).isSome ∧
        ¬ Traceless (Kepoll.backend _ Kepoll.lawful_interestCtl) Kepoll.init 3 Kepoll.both) ∧
    ∃ guard' : Guard Kepoll.Interest,
      Kepoll.init.add (Kepoll.regOn Kepoll.closedCtl) 3 Kind.read.flag = some (.fail, guard') ∧
        guard'.entries = [⟨3, Kind.read.flag⟩] ∧
        ¬ Traceless (Kepoll.backend _ Kepoll.lawful_closedCtl) Kepoll.init 3 Kind.read.flag := by
  constructor
  · refine ⟨_, rfl, rfl, rfl, fun h => ?_⟩
    have hsame := congrArg Guard.entries (h _ _ rfl fun hcon => by cases hcon)
    cases hsame
  · refine ⟨_, rfl, rfl, fun h => ?_⟩
    have hsame := congrArg Guard.entries (h _ _ rfl fun hcon => by cases hcon)
    cases hsame

end Backend

end Event

end Kylin
