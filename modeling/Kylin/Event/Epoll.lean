import Kylin.Event.Event

/-!
# The `epoll` plugin

The plugin (`lib/core/event/plugin/kylin_epoll.c`) keeps nothing but the interest list of
the kernel, a map from descriptors to masks.  The callbacks are written for any `epoll_ctl`.
The runs below are over one that fails for these reasons only: `EPOLL_CTL_ADD` for a descriptor
that is in the list and `EPOLL_CTL_DEL` for one that is not.

`kepoll_add` and `kepoll_del` make one call of `epoll_ctl` for each flag.  With both
`READ` and `WRITE` the second call always fails, and what the first one did stays; the
entry in the registry stays too.  So does the entry of a descriptor that is added again.
`Fits` excludes these calls, and `run_interest` shows that along runs of other calls the
interest list and the registry say the same.

## Main definitions

* `Interest`, `EpollCtl`, `interestCtl` — the kernel.
* `addOn`, `delOn`, `modOn`, `regOn` — the callbacks, and `add`, `del`, `mod`, `reg` over
  `interestCtl`.
* `Right` — what the interest list should be after a run.
* `Fits` — the side condition on one call.

## Main results

* `run_interest` — runs of calls that fit are right, and any other call leads to a run that
  is not.
-/

namespace Kylin.Kepoll

open Lib Event

/-- `EPOLLIN`. -/
def epollin : BitVec 32 := 0x001

/-- `EPOLLOUT`. -/
def epollout : BitVec 32 := 0x004

/-- `EPOLLRDHUP`. -/
def epollrdhup : BitVec 32 := 0x2000

/-- The interest list of the kernel. -/
abbrev Interest : Type := ℕ → Option (BitVec 32)

/-- `epoll_ctl` with `EPOLL_CTL_ADD` and with `EPOLL_CTL_DEL`. -/
structure EpollCtl where
  add : Interest → ℕ → BitVec 32 → Kerr × Interest
  del : Interest → ℕ → Kerr × Interest

/-- What a successful call of `epoll_ctl` promises.  A call may fail for a descriptor that is
there already, or is not, is not open or cannot be watched, and for lack of memory or room. -/
structure EpollCtl.Lawful (ctl : EpollCtl) : Prop where
  add_ok : ∀ m fd events m', ctl.add m fd events = (.ok, m') →
    m fd = none ∧ m' = Function.update m fd (some events)
  del_ok : ∀ m fd m', ctl.del m fd = (.ok, m') → m' = Function.update m fd none

/-- `kepoll_add`. -/
def addOn (ctl : EpollCtl) (m : Interest) (fd : ℕ) (flags : Flags) : Kerr × Interest :=
  let (ret, m) := if has flags .read then ctl.add m fd (epollin ||| epollrdhup) else (.ok, m)
  if ret ≠ .ok then (ret, m)
  else if has flags .write then ctl.add m fd (epollout ||| epollrdhup)
  else (ret, m)

/-- `kepoll_del`. -/
def delOn (ctl : EpollCtl) (m : Interest) (fd : ℕ) (flags : Flags) : Kerr × Interest :=
  let (ret, m) := if has flags .read then ctl.del m fd else (.ok, m)
  if ret ≠ .ok then (ret, m)
  else if has flags .write then ctl.del m fd
  else (ret, m)

/-- `kepoll_mod`. -/
def modOn (ctl : EpollCtl) (guard : Guard Interest) (fd : ℕ) (flags : Flags) :
    Option (Kerr × Interest) := do
  match ← guard.getByFd fd with
  | none => some (.noent, guard.priv)
  | some event =>
      let (ret, m) := delOn ctl guard.priv fd event.flags
      if ret ≠ .ok then some (ret, m) else some (addOn ctl m fd flags)

/-- The callbacks of the plugin. -/
def regOn (ctl : EpollCtl) : Reg Interest where
  add := some fun guard fd flags => some (addOn ctl guard.priv fd flags)
  del := some fun guard fd flags => some (delOn ctl guard.priv fd flags)
  mod := some (modOn ctl)

/-- `EPOLL_CTL_ADD` that fails for a descriptor in the list only. -/
def epollCtlAdd (m : Interest) (fd : ℕ) (events : BitVec 32) : Kerr × Interest :=
  if (m fd).isSome then (.fail, m) else (.ok, Function.update m fd (some events))

/-- `EPOLL_CTL_DEL` that fails for a descriptor outside the list only. -/
def epollCtlDel (m : Interest) (fd : ℕ) : Kerr × Interest :=
  if (m fd).isSome then (.ok, Function.update m fd none) else (.fail, m)

/-- The kernel that fails for these reasons only. -/
def interestCtl : EpollCtl := ⟨epollCtlAdd, epollCtlDel⟩

theorem lawful_interestCtl : interestCtl.Lawful where
  add_ok := by
    intro m fd events m' h
    simp only [interestCtl, epollCtlAdd] at h
    split at h
    · cases h
    · next hnone => exact ⟨Option.not_isSome_iff_eq_none.mp hnone, (Prod.mk.inj h).2.symm⟩
  del_ok := by
    intro m fd m' h
    simp only [interestCtl, epollCtlDel] at h
    split at h
    · exact (Prod.mk.inj h).2.symm
    · cases h

/-- `kepoll_add` over that kernel. -/
def add : Interest → ℕ → Flags → Kerr × Interest := addOn interestCtl

/-- `kepoll_del` over that kernel. -/
def del : Interest → ℕ → Flags → Kerr × Interest := delOn interestCtl

/-- `kepoll_mod` over that kernel. -/
def mod : Guard Interest → ℕ → Flags → Option (Kerr × Interest) := modOn interestCtl

/-- The callbacks over that kernel. -/
def reg : Reg Interest := regOn interestCtl

/-- A new event. -/
def init : Guard Interest := .create fun _ => none

/-- `KEVENT_FLAG_READ | KEVENT_FLAG_WRITE`. -/
def both : Flags := Kind.read.flag ||| Kind.write.flag

@[simp] theorem has_both_read : has both .read = true := by decide

@[simp] theorem has_both_write : has both .write = true := by decide

/-- One flag. -/
def Single (flags : Flags) : Prop := flags = Kind.read.flag ∨ flags = Kind.write.flag

/-- The flags of a call are a combination of `READ` and `WRITE`. -/
def Valid : Guard.Call → Prop
  | .add _ flags | .del _ flags => Single flags ∨ flags = both

/-- A flag of `epoll` is in the mask of a descriptor. -/
def watched (m : Interest) (fd : ℕ) (ev : BitVec 32) : Prop := ∃ mask, m fd = some mask ∧
  mask &&& ev ≠ 0

/-- A flag is in the entry of a descriptor. -/
def recorded (guard : Guard Interest) (fd : ℕ) (k : Kind) : Prop :=
  ∃ flags, Guard.lookup guard.entries fd = some flags ∧ has flags k = true

/-- The interest list and the registry agree on a descriptor. -/
def Agrees (guard : Guard Interest) (fd : ℕ) : Prop :=
  (watched guard.priv fd epollin ↔ recorded guard fd .read) ∧
  (watched guard.priv fd epollout ↔ recorded guard fd .write) ∧
  (guard.priv fd = none ↔ ∀ e ∈ guard.entries, e.efd ≠ fd)

/-- The result of the last call on a descriptor. -/
def lastResult (tr : List (Step (Guard Interest) Guard.Call Kerr)) (fd : ℕ) : Option Kerr :=
  ((tr.filter fun e => e.call.fd = fd).getLast?).map Step.result

/-- **A run is right**: a descriptor on which the last call succeeded is watched as it is
recorded, and adding a new one with both flags succeeds. -/
def Right (tr : List (Step (Guard Interest) Guard.Call Kerr)) (guard : Guard Interest) : Prop :=
  (∀ fd, lastResult tr fd = some .ok → Agrees guard fd) ∧
  ∀ e ∈ tr, ∀ fd, e.call = .add fd both → e.before.priv fd = none →
    (∀ x ∈ e.before.entries, x.efd ≠ fd) → e.result = .ok

/-- A descriptor that has an entry is added only if the registry refuses it, and one that
has none is not added with both flags. -/
def Fits (guard : Guard Interest) : Guard.Call → Prop
  | .add fd flags =>
      if ∃ e ∈ guard.entries, e.efd = fd then guard.entries.length = eventsOpts.cap
      else flags ≠ both
  | .del _ _ => True

/-! ## The kernel -/

section Kernel
variable {m : Interest} {fd : ℕ} {flags : Flags}

/-- The mask that one flag is watched with. -/
def mask (flags : Flags) : BitVec 32 :=
  if has flags .read then epollin ||| epollrdhup else epollout ||| epollrdhup

theorem add_single (h : m fd = none) (hf : Single flags) :
    add m fd flags = (.ok, Function.update m fd (some (mask flags))) := by
  rcases hf with rfl | rfl
  · simp [add, addOn, interestCtl, epollCtlAdd, h, mask]
  · simp [add, addOn, interestCtl, epollCtlAdd, h, mask]

theorem del_single (h : (m fd).isSome) (hf : Single flags) :
    del m fd flags = (.ok, Function.update m fd none) := by
  rcases hf with rfl | rfl
  · simp [del, delOn, interestCtl, epollCtlDel, h]
  · simp [del, delOn, interestCtl, epollCtlDel, h]

/-- The second of two flags is refused. -/
theorem add_both (h : m fd = none) :
    add m fd both = (.fail, Function.update m fd (some (epollin ||| epollrdhup))) := by
  simp [add, addOn, interestCtl, epollCtlAdd, h]

/-- A descriptor in the list is refused. -/
theorem add_present (h : (m fd).isSome) (hf : Single flags ∨ flags = both) :
    add m fd flags = (.fail, m) := by
  rcases hf with (rfl | rfl) | rfl
  · simp [add, addOn, interestCtl, epollCtlAdd, h]
  · simp [add, addOn, interestCtl, epollCtlAdd, h]
  · simp [add, addOn, interestCtl, epollCtlAdd, h]

end Kernel

/-! ## The registry and the kernel -/

/-- The invariant: one entry for each descriptor in the interest list, with one flag. -/
structure Inv (guard : Guard Interest) (es : List KeventEvent) : Prop where
  lists : guard.Lists es
  nodup : (es.map KeventEvent.efd).Nodup
  single : ∀ fd flags, Guard.lookup es fd = some flags → Single flags
  present : ∀ fd, (guard.priv fd).isSome = (Guard.lookup es fd).isSome

theorem inv_init : Inv init [] where
  lists := Guard.lists_create _
  nodup := List.nodup_nil
  single := fun _ _ h => by cases h
  present := fun _ => rfl

/-- A call on `fd` that returned `r`: the invariant holds, a success makes the mask that of
the entry, and the other descriptors are left alone. -/
structure Moved (guard : Guard Interest) (es : List KeventEvent) (fd : ℕ) (r : Kerr)
    (guard' : Guard Interest) (es' : List KeventEvent) : Prop where
  inv : Inv guard' es'
  matched : r = .ok → guard'.priv fd = (Guard.lookup es' fd).map mask
  frame : ∀ x, x ≠ fd → guard'.priv x = guard.priv x ∧ Guard.lookup es' x = Guard.lookup es x

section Calls
variable {guard : Guard Interest} {es : List KeventEvent} {fd i : ℕ} {flags : Flags}
  {e : KeventEvent} {r : Kerr} {m m' : Interest}

theorem call_add (h : add guard.priv fd flags = (r, m)) :
    guard.call reg.add fd flags = some (r, { guard with priv := m }) :=
  Guard.call_some (congrArg some h)

theorem call_del (h : del guard.priv fd flags = (r, m)) :
    guard.call reg.del fd flags = some (r, { guard with priv := m }) :=
  Guard.call_some (congrArg some h)

theorem call_mod (hlists : guard.Lists es) (hfirst : Guard.First es fd i e)
    (hdel : del guard.priv fd e.flags = (.ok, m)) (hadd : add m fd flags = (r, m')) :
    guard.call reg.mod fd flags = some (r, { guard with priv := m' }) := by
  rw [del] at hdel
  rw [add] at hadd
  simp only [Guard.call, reg, regOn, modOn, hlists.getByFd hfirst, hdel, hadd,
    Option.bind_eq_bind, Option.bind_some, ne_eq, not_true, if_false, Option.map_some]

end Calls

namespace Inv
variable {guard guard' : Guard Interest} {es es' : List KeventEvent} {fd : ℕ} {flags : Flags}
  {r : Kerr}

theorem agrees (h : Inv guard es) (hm : guard.priv fd = (Guard.lookup es fd).map mask) :
    Agrees guard fd := by
  have hlookup : Guard.lookup guard.entries fd = Guard.lookup es fd := by
    rw [h.lists.entries_eq]
  refine ⟨?_, ?_, ?_⟩
  · simp only [watched, recorded, hm, hlookup]
    cases hf : Guard.lookup es fd with
    | none => simp
    | some f => rcases h.single fd f hf with rfl | rfl <;> simp [mask] <;> decide
  · simp only [watched, recorded, hm, hlookup]
    cases hf : Guard.lookup es fd with
    | none => simp
    | some f => rcases h.single fd f hf with rfl | rfl <;> simp [mask] <;> decide
  · rw [hm, Option.map_eq_none_iff, ← hlookup, Guard.lookup_eq_none_iff]

/-- A failure that changes nothing. -/
theorem stay (h : Inv guard es) (fd : ℕ) (hr : r ≠ .ok) : Moved guard es fd r guard es :=
  ⟨h, fun hok => absurd hok hr, fun _ _ => ⟨rfl, rfl⟩⟩

/-- A change of the entry and of the mask of one descriptor. -/
theorem update (h : Inv guard es) {m : Option Flags} {n : Option (BitVec 32)}
    (hlists : guard'.Lists es') (hnodup : (es'.map KeventEvent.efd).Nodup)
    (hlookup : Guard.lookup es' = Function.update (Guard.lookup es) fd m)
    (hpriv : guard'.priv = Function.update guard.priv fd n) (hsome : n.isSome = m.isSome)
    (hm : ∀ f, m = some f → Single f) (hr : r = .ok → n = m.map mask) :
    Moved guard es fd r guard' es' := by
  refine ⟨⟨hlists, hnodup, ?_, ?_⟩, ?_, ?_⟩
  · intro x f hx
    rw [hlookup, Function.update_apply] at hx
    split at hx
    · exact hm f hx
    · exact h.single x f hx
  · intro x
    rw [hlookup, hpriv, Function.update_apply, Function.update_apply]
    split
    · exact hsome
    · exact h.present x
  · intro hok
    rw [hlookup, hpriv, Function.update_self, Function.update_self]
    exact hr hok
  · intro x hx
    rw [hlookup, hpriv, Function.update_of_ne hx, Function.update_of_ne hx]
    exact ⟨rfl, rfl⟩

theorem absent (h : Inv guard es) (hnone : Guard.lookup es fd = none) : guard.priv fd = none := by
  have hpresent := h.present fd
  rw [hnone, Option.isSome_none] at hpresent
  exact Option.not_isSome_iff_eq_none.mp (Bool.eq_false_iff.mp hpresent)

theorem isSome (h : Inv guard es) (hsome : Guard.lookup es fd = some flags) :
    (guard.priv fd).isSome := by
  rw [h.present fd, hsome]
  rfl

/-- A new descriptor with one flag. -/
theorem add_new (h : Inv guard es) (hnone : Guard.lookup es fd = none)
    (hlen : es.length < eventsOpts.cap) (hf : Single flags) :
    ∃ guard', guard.add reg fd flags = some (.ok, guard') ∧
      Moved guard es fd .ok guard' (es ++ [⟨fd, flags⟩]) := by
  obtain ⟨guard₁, hlists, hpriv, hadd⟩ := h.lists.add hlen reg fd flags
  have habsent := h.absent hnone
  have hlists' : Guard.Lists
      { guard₁ with priv := Function.update guard.priv fd (some (mask flags)) } _ :=
    hlists.of_events rfl
  refine ⟨_, ?_, h.update hlists' (Guard.nodup_append h.nodup hnone flags)
    (Guard.lookup_append hnone flags) rfl rfl ?_ (fun _ => rfl)⟩
  · rw [hadd]
    apply call_add
    rw [hpriv, add_single habsent hf]
  · intro f hmf
    rw [← Option.some.inj hmf]
    exact hf

/-- Deleting an entry. -/
theorem del_equal (h : Inv guard es) (hsome : Guard.lookup es fd = some flags) :
    ∃ guard', guard.del reg fd flags = some (.ok, guard') ∧
      Moved guard es fd .ok guard' (es.eraseP fun e => e.efd = fd) := by
  obtain ⟨i, e, hfirst, hflags⟩ := Guard.exists_first hsome
  have hcall := call_del (del_single (h.isSome hsome) (h.single fd flags hsome))
  obtain ⟨guard', hdel, hpriv, hlists⟩ := h.lists.del_equal hfirst hflags hcall
  refine ⟨guard', hdel, h.update hlists (Guard.nodup_eraseP h.nodup fd)
    (Guard.lookup_eraseP h.nodup) hpriv rfl ?_ (fun _ => rfl)⟩
  intro f hf
  cases hf

/-- Changing the flag of an entry. -/
theorem del_other (h : Inv guard es) {f : Flags} (hsome : Guard.lookup es fd = some f)
    (hne : f ≠ flags) (hf : Single flags) : ∃ guard' es',
      guard.del reg fd flags = some (.ok, guard') ∧ Moved guard es fd .ok guard' es' := by
  obtain ⟨i, e, hfirst, rfl⟩ := Guard.exists_first hsome
  have hcall := call_mod h.lists hfirst
    (del_single (h.isSome hsome) (h.single fd e.flags hsome))
    (add_single (Function.update_self fd none guard.priv) hf)
  rw [Function.update_idem] at hcall
  obtain ⟨guard', hdel, hpriv, hlists⟩ := h.lists.del_other hfirst hne hcall
  refine ⟨guard', _, hdel, h.update hlists (hfirst.nodup_set h.nodup flags)
    (Guard.lookup_set hfirst flags) hpriv rfl ?_ (fun _ => rfl)⟩
  intro f hmf
  rw [← Option.some.inj hmf]
  exact hf

/-- Asking for both flags fails, and leaves the descriptor in the list. -/
theorem del_both (h : Inv guard es) {f : Flags} (hsome : Guard.lookup es fd = some f) :
    ∃ guard', guard.del reg fd both = some (.fail, guard') ∧
      Moved guard es fd .fail guard' es := by
  obtain ⟨i, e, hfirst, rfl⟩ := Guard.exists_first hsome
  have hsingle := h.single fd e.flags hsome
  have hne : e.flags ≠ both := by
    rcases hsingle with he | he <;> rw [he] <;> decide
  have hcall := call_mod h.lists hfirst (del_single (h.isSome hsome) hsingle)
    (add_both (Function.update_self fd none guard.priv))
  rw [Function.update_idem] at hcall
  have hret : Kerr.fail ≠ .ok := fun hcon => by cases hcon
  have hdel := h.lists.del_fail hfirst (if_neg hne) hret hcall
  have hlists : Guard.Lists { guard with
      priv := Function.update guard.priv fd (some (epollin ||| epollrdhup)) } es :=
    h.lists.of_events rfl
  refine ⟨_, hdel, h.update hlists h.nodup (m := some e.flags) ?_ rfl rfl ?_ ?_⟩
  · rw [← hsome, Function.update_eq_self]
  · intro f hf
    rw [← Option.some.inj hf]
    exact hsingle
  · exact fun hcon => by cases hcon

/-- A call that fits. -/
theorem step (h : Inv guard es) {c : Guard.Call} (hv : Valid c) (hfits : Fits guard c) :
    ∃ r guard' es', guard.step reg c = some (r, guard') ∧ Moved guard es c.fd r guard' es' := by
  cases c with
  | add fd flags =>
      simp only [Fits, h.lists.entries_eq] at hfits
      by_cases hfull : es.length = eventsOpts.cap
      · exact ⟨.inval, guard, es, h.lists.add_full hfull, h.stay fd (fun hcon => by cases hcon)⟩
      · have hnew : ¬ ∃ e ∈ es, e.efd = fd := by
          intro hex
          rw [if_pos hex] at hfits
          exact hfull hfits
        rw [if_neg hnew] at hfits
        have hnone : Guard.lookup es fd = none :=
          Guard.lookup_eq_none_iff.mpr fun e he hefd => hnew ⟨e, he, hefd⟩
        obtain ⟨guard', hadd, hmoved⟩ := h.add_new hnone
          (Nat.lt_of_le_of_ne h.lists.room hfull) (hv.resolve_right hfits)
        exact ⟨.ok, guard', _, hadd, hmoved⟩
  | del fd flags =>
      cases hlookup : Guard.lookup es fd with
      | none =>
          exact ⟨.noent, guard, es, h.lists.del_none (Guard.lookup_eq_none_iff.mp hlookup),
            h.stay fd (fun hcon => by cases hcon)⟩
      | some f =>
          by_cases hf : f = flags
          · rw [hf] at hlookup
            obtain ⟨guard', hdel, hmoved⟩ := h.del_equal hlookup
            exact ⟨.ok, guard', _, hdel, hmoved⟩
          · rcases hv with hsingle | hboth
            · obtain ⟨guard', es', hdel, hmoved⟩ := h.del_other hlookup hf hsingle
              exact ⟨.ok, guard', es', hdel, hmoved⟩
            · obtain ⟨guard', hdel, hmoved⟩ := h.del_both hlookup
              rw [hboth]
              exact ⟨.fail, guard', es, hdel, hmoved⟩

/-- Adding a new descriptor with both flags does not succeed. -/
theorem add_both_fails (h : Inv guard es) (hnone : Guard.lookup es fd = none) :
    ∃ r guard', guard.step reg (.add fd both) = some (r, guard') ∧ r ≠ .ok := by
  by_cases hfull : es.length = eventsOpts.cap
  · exact ⟨.inval, guard, h.lists.add_full hfull, fun hcon => by cases hcon⟩
  · obtain ⟨guard₁, -, hpriv, hadd⟩ :=
      h.lists.add (Nat.lt_of_le_of_ne h.lists.room hfull) reg fd both
    have habsent : guard₁.priv fd = none := by
      rw [hpriv]
      exact h.absent hnone
    exact ⟨.fail, _, hadd.trans (call_add (add_both habsent)), fun hcon => by cases hcon⟩

/-- A descriptor that is added again keeps an entry when it is deleted. -/
theorem add_again (h : Inv guard es) {f : Flags} (hsome : Guard.lookup es fd = some f)
    (hlen : es.length < eventsOpts.cap) (hv : Single flags ∨ flags = both) :
    ∃ guard₁ guard₂, guard.step reg (.add fd flags) = some (.fail, guard₁) ∧
      guard₁.step reg (.del fd f) = some (.ok, guard₂) ∧ ¬ Agrees guard₂ fd := by
  obtain ⟨guard₁, hlists, hpriv, hadd⟩ := h.lists.add hlen reg fd flags
  have hin : (guard₁.priv fd).isSome := by
    rw [hpriv]
    exact h.isSome hsome
  have hcall := call_add (add_present hin hv)
  obtain ⟨i, e, hfirst, hflags⟩ :=
    Guard.exists_first (Guard.lookup_append_of_some hsome [⟨fd, flags⟩])
  have hcall' := call_del (del_single hin (h.single fd f hsome))
  obtain ⟨guard₂, hdel, hpriv', hlists'⟩ := hlists.del_equal hfirst hflags hcall'
  refine ⟨guard₁, guard₂, hadd.trans hcall, hdel, ?_⟩
  intro hagrees
  have hgone : guard₂.priv fd = none := by
    rw [hpriv']
    exact Function.update_self _ _ _
  refine hagrees.2.2.mp hgone ⟨fd, flags⟩ ?_ rfl
  rw [hlists'.entries_eq]
  have hmem := (Guard.lookup_eq_some_iff h.nodup).mp hsome
  rw [List.eraseP_append_left (by simp) _ hmem]
  exact List.mem_append_right _ (List.mem_singleton.mpr rfl)

end Inv

/-! ## Runs -/

section Runs
variable {tr : List (Step (Guard Interest) Guard.Call Kerr)} {guard : Guard Interest}

theorem lastResult_append (e : Step (Guard Interest) Guard.Call Kerr) (fd : ℕ) :
    lastResult (tr ++ [e]) fd = if e.call.fd = fd then some e.result else lastResult tr fd := by
  rw [lastResult, List.filter_append]
  by_cases h : e.call.fd = fd
  · simp [h]
  · simp [h, lastResult]

/-- After a run: the invariant, and the masks that the last calls have made. -/
structure After (tr : List (Step (Guard Interest) Guard.Call Kerr)) (guard : Guard Interest)
    (es : List KeventEvent) : Prop where
  inv : Inv guard es
  matched : ∀ fd, lastResult tr fd = some .ok → guard.priv fd = (Guard.lookup es fd).map mask
  added : ∀ e ∈ tr, ∀ fd, e.call = .add fd both → e.before.priv fd = none →
    (∀ x ∈ e.before.entries, x.efd ≠ fd) → e.result = .ok

theorem After.right {es : List KeventEvent} (h : After tr guard es) : Right tr guard :=
  ⟨fun fd hfd => h.inv.agrees (h.matched fd hfd), h.added⟩

theorem After.snoc {es : List KeventEvent} (h : After tr guard es) {c : Guard.Call} {r : Kerr}
    {guard' : Guard Interest} (hv : Valid c) (hfits : Fits guard c)
    (hstep : guard.step reg c = some (r, guard')) :
    ∃ es', After (tr ++ [⟨guard, c, r, guard'⟩]) guard' es' := by
  obtain ⟨r', guard'', es', hstep', hmoved⟩ := h.inv.step hv hfits
  rw [hstep] at hstep'
  obtain ⟨rfl, rfl⟩ := Prod.mk.inj (Option.some.inj hstep')
  refine ⟨es', hmoved.inv, ?_, ?_⟩
  · intro fd hlast
    rw [lastResult_append] at hlast
    by_cases hfd : c.fd = fd
    · rw [if_pos hfd] at hlast
      rw [← hfd]
      exact hmoved.matched (Option.some.inj hlast)
    · rw [if_neg hfd] at hlast
      obtain ⟨hpriv, hlookup⟩ := hmoved.frame fd (Ne.symm hfd)
      rw [hpriv, hlookup]
      exact h.matched fd hlast
  · intro e he fd hcall habsent hnew
    rcases List.mem_append.mp he with he | he
    · exact h.added e he fd hcall habsent hnew
    · -- the call does not fit
      rw [List.mem_singleton.mp he] at hcall hnew
      change c = _ at hcall
      rw [hcall, Fits, if_neg (fun ⟨x, hx, hefd⟩ => hnew x hx hefd)] at hfits
      exact absurd rfl hfits

/-- A call that does not fit leads to a run that is not right. -/
theorem After.not_right {es : List KeventEvent} (h : After tr guard es) {c : Guard.Call}
    (hrun : Run (Guard.step reg) (fun _ c => Valid c) init tr guard) (hv : Valid c)
    (hfits : ¬ Fits guard c) : ∃ e post guard',
      Run (Guard.step reg) (fun _ c => Valid c) init (tr ++ e :: post) guard' ∧ e.call = c ∧
        ¬ Right (tr ++ e :: post) guard' := by
  cases c with
  | del fd flags => exact absurd trivial hfits
  | add fd flags =>
      rw [Fits, h.inv.lists.entries_eq] at hfits
      cases hlookup : Guard.lookup es fd with
      | none =>
          have hnew := Guard.lookup_eq_none_iff.mp hlookup
          rw [if_neg (fun ⟨x, hx, hefd⟩ => hnew x hx hefd), not_not] at hfits
          obtain ⟨r, guard', hstep, hr⟩ := h.inv.add_both_fails hlookup
          rw [hfits] at hv ⊢
          refine ⟨⟨guard, .add fd both, r, guard'⟩, [], guard', hrun.snoc hv hstep, rfl, ?_⟩
          intro hright
          refine hr (hright.2 _ (List.mem_append_right _ List.mem_cons_self) fd rfl ?_ ?_)
          · exact h.inv.absent hlookup
          · change ∀ x ∈ guard.entries, x.efd ≠ fd
            rw [h.inv.lists.entries_eq]
            exact hnew
      | some f =>
          have hmem := (Guard.lookup_eq_some_iff h.inv.nodup).mp hlookup
          rw [if_pos ⟨_, hmem, rfl⟩] at hfits
          obtain ⟨guard₁, guard₂, hadd, hdel, hbad⟩ := h.inv.add_again hlookup
            (Nat.lt_of_le_of_ne h.inv.lists.room hfits) hv
          have hv' : Valid (.del fd f) := .inl (h.inv.single fd f hlookup)
          have hrun' := (hrun.snoc hv hadd).snoc hv' hdel
          refine ⟨⟨guard, .add fd flags, .fail, guard₁⟩, [⟨guard₁, .del fd f, .ok, guard₂⟩],
            guard₂, by simpa using hrun', rfl, ?_⟩
          intro hright
          refine hbad (hright.1 fd ?_)
          rw [List.append_cons, lastResult_append]
          exact if_pos rfl

/-- **The interest list is right** along every run of calls that fit.  And this is exact:
every other call, made in a state of such a run, leads to a run that is not right. -/
theorem run_interest
    (hrun : Run (Guard.step reg) (fun guard c => Valid c ∧ Fits guard c) init tr guard) :
    Right tr guard ∧ ∀ c, Valid c → ¬ Fits guard c → ∃ e post guard',
      Run (Guard.step reg) (fun _ c => Valid c) init (tr ++ e :: post) guard' ∧ e.call = c ∧
        ¬ Right (tr ++ e :: post) guard' := by
  have hafter : ∃ es, After tr guard es := by
    refine hrun.induct (P := fun tr guard => ∃ es, After tr guard es) ⟨[], inv_init, ?_, ?_⟩ ?_
    · intro fd h
      cases h
    · intro e he
      cases he
    · rintro tr guard c r guard' - ⟨es, h⟩ ⟨hv, hfits⟩ hstep
      exact h.snoc hv hfits hstep
  obtain ⟨es, h⟩ := hafter
  refine ⟨h.right, ?_⟩
  intro c hv hfits
  exact h.not_right (hrun.mono fun _ _ hc => hc.1) hv hfits

end Runs

/-- A descriptor is added, changed, asked for with both flags and changed back. -/
theorem run_interest_changed :
    ∃ (tr : List (Step (Guard Interest) Guard.Call Kerr)) (guard : Guard Interest),
      Run (Guard.step reg) (fun guard c => Valid c ∧ Fits guard c) init tr guard ∧
        lastResult tr 3 = some .ok ∧ guard.priv 3 = some (epollin ||| epollrdhup) ∧
        Right tr guard := by
  have hfits : Fits init (.add 3 Kind.read.flag) := by
    rw [Fits, if_neg (fun ⟨_, h, _⟩ => by cases h)]
    decide
  have hrun : Run (Guard.step reg) (fun guard c => Valid c ∧ Fits guard c) init _ _ :=
    run_of_runList [.add 3 Kind.read.flag, .del 3 Kind.write.flag, .del 3 both,
      .del 3 Kind.read.flag] rfl (by
      simp only [List.forall_mem_cons]
      exact ⟨⟨.inl (.inl rfl), hfits⟩, ⟨.inl (.inr rfl), trivial⟩, ⟨.inr rfl, trivial⟩,
        ⟨.inl (.inl rfl), trivial⟩, by simp⟩)
  exact ⟨_, _, hrun, rfl, rfl, (run_interest hrun).1⟩

/-- A new descriptor is added with both flags. -/
theorem add_both_not_right :
    ∃ (tr : List (Step (Guard Interest) Guard.Call Kerr)) (guard : Guard Interest),
      Run (Guard.step reg) (fun _ c => Valid c) init tr guard ∧ ¬ Right tr guard := by
  refine ⟨_, _, run_of_runList [.add 3 both] rfl (by
    simp only [List.forall_mem_cons]
    exact ⟨.inr rfl, by simp⟩), ?_⟩
  intro h
  have hok := h.2 _ List.mem_cons_self 3 rfl rfl (fun _ hx => by cases hx)
  cases hok

end Kylin.Kepoll
