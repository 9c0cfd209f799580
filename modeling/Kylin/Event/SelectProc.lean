import Kylin.Event.Select
import Mathlib.Order.Bounds.Basic

/-!
# The first argument of `select`

`kselect_proc` passes `max_fd + 1` to `select`, with `max_fd` the greatest of the last
elements of the three sets.  The sets are in the order in which descriptors were added, as
`kselect_create` does not ask for ordered ones, so the last element is the one that was
added last; and an empty set has none, so that what is read lies before the array.

`run_maxFd_iff` says when `max_fd` is right after any successful calls of `kselect_add` and
`kselect_del` on an event whose bit sets exist.  `kselect_create` makes no such event, so
`max_fd` is right for every event it makes exactly when it makes none: `computesMaxFd_iff`.

## Main definitions

* `maxFd` — `max_fd`.
* `call` — the calls of `kselect_add` and `kselect_del`.
* `Registered`, `MaxFdRight` — what `max_fd` should be.

## Main results

* `run_stores` — the sets after successful calls.
* `Stored.registered_of_bits` — what `select` is asked about.
* `run_maxFd_iff` — when `max_fd` is right.
* `computesMaxFd_iff` — the same from `kselect_create` on.
-/

namespace Kylin.Kselect

open Lib Event

/-- `*(kfd_t *)kylin_set_last(event_select->fd_set[k])`; `none` when this is no element. -/
def Slot.lastFd (s : Slot) : Option ℤ := do
  match ← (← s.fds.last).deref with
  | .int w => some (w.setWidth 32).toInt
  | .obj _ => none

/-- `max_fd` in `kselect_proc`. -/
def maxFd (s : KeventSelect) : Option ℤ := do
  let rd ← (s .read).lastFd
  let wt ← (s .write).lastFd
  let ex ← (s .error).lastFd
  some (max (max rd wt) ex)

/-- A call of `kselect_add` or `kselect_del`. -/
def call (guard : Guard KeventSelect) : Guard.Call → Option (Kerr × Guard KeventSelect)
  | .add fd flags => guard.call reg.add fd flags
  | .del fd flags => guard.call reg.del fd flags

/-- A descriptor is registered for some kind of event. -/
def Registered (s : KeventSelect) (fd : ℕ) : Prop := ∃ k, fd ∈ (s k).listed

/-- **`max_fd` is right**: it is read from elements of the sets, and it is the greatest of the
descriptors that are registered. -/
def MaxFdRight (s : KeventSelect) : Prop :=
  ∃ m : ℕ, maxFd s = some (m : ℤ) ∧ IsGreatest {fd | Registered s fd} m

/-- There is a descriptor for every kind, and the greatest of all was the last one added of
those for some kind. -/
def LastGreatest (s : KeventSelect) : Prop :=
  (∀ k, (s k).listed ≠ []) ∧
    ∃ k fd, (s k).listed.getLast? = some fd ∧ ∀ fd', Registered s fd' → fd' ≤ fd

/-! ## One set -/

namespace Slot.Stores
variable {s s' : Slot} {l : List ℕ} {fd : ℕ}

theorem lastFd_eq (h : s.Stores l) (hlen : l.length < 2 ^ 64) :
    s.lastFd = l.getLast?.map fun fd : ℕ => (fd : ℤ) := by
  have hlast := h.fds.last (by rwa [List.length_map])
  rw [List.getLast?_map, Option.map_map] at hlast
  rw [lastFd]
  cases hl : l.getLast? with
  | none =>
      rw [hl, Option.map_none, Option.map_eq_none_iff] at hlast
      rw [hlast]
      rfl
  | some fd =>
      rw [hl, Option.map_some, Option.map_eq_some_iff] at hlast
      obtain ⟨p, hp, hderef⟩ := hlast
      have hfd := toInt_fd (h.bound fd (List.mem_of_getLast? hl))
      rw [hp, Option.bind_eq_bind, Option.bind_some, hderef]
      exact congrArg some hfd

/-- A descriptor that was added is the last one. -/
theorem of_set (h : s.Stores l) (hroom : l.length ≤ fdsetOpts.cap)
    (hset : s.set fd = some (.ok, s')) : s'.Stores (l ++ [fd]) ∧
      (l ++ [fd]).length ≤ fdsetOpts.cap ∧ s'.bits = Function.update s.bits fd true := by
  have hfd : fd < fdSetsize := by
    by_contra hnot
    rw [Slot.set, if_pos (Nat.not_lt.mp hnot)] at hset
    cases hset
  by_cases hfull : l.length = fdsetOpts.cap
  · rw [h.set_full hfd hfull] at hset
    cases hset
  · obtain ⟨s₁, hset', h', hbits⟩ := h.set hfd hfull
    rw [hset] at hset'
    cases hset'
    rw [List.length_append]
    exact ⟨h', Nat.lt_of_le_of_ne hroom hfull, hbits⟩

/-- A descriptor that was removed was in the set. -/
theorem of_clear (h : s.Stores l) (hclear : s.clear fd = some (.ok, s')) :
    s'.Stores (l.erase fd) ∧ s'.bits = Function.update s.bits fd false := by
  have hfd : fd < fdSetsize := by
    by_contra hnot
    rw [Slot.clear, if_pos (Nat.not_lt.mp hnot)] at hclear
    cases hclear
  by_cases hmem : fd ∈ l
  · obtain ⟨s₁, hclear', h', hbits⟩ := h.clear hmem
    rw [hclear] at hclear'
    cases hclear'
    exact ⟨h', hbits⟩
  · rw [h.clear_none hfd hmem] at hclear
    cases hclear

end Slot.Stores

/-! ## Runs -/

/-- The set has descriptors, no more than there is room for, and those whose bit is set are
among them. -/
def Slot.Stored (s : Slot) : Prop :=
  ∃ l, s.Stores l ∧ l.length ≤ fdsetOpts.cap ∧ ∀ fd, s.bits fd = true → fd ∈ l

theorem Slot.Stored.set {s s' : Slot} {fd : ℕ} (h : s.Stored)
    (hset : s.set fd = some (.ok, s')) : s'.Stored := by
  obtain ⟨l, hl, hroom, hbits⟩ := h
  obtain ⟨hl', hroom', hupdate⟩ := hl.of_set hroom hset
  refine ⟨_, hl', hroom', ?_⟩
  intro x hx
  rw [hupdate, Function.update_apply] at hx
  split at hx
  · next heq => simp [heq]
  · exact List.mem_append_left _ (hbits x hx)

theorem Slot.Stored.clear {s s' : Slot} {fd : ℕ} (h : s.Stored)
    (hclear : s.clear fd = some (.ok, s')) : s'.Stored := by
  obtain ⟨l, hl, hroom, hbits⟩ := h
  obtain ⟨hl', hupdate⟩ := hl.of_clear hclear
  refine ⟨_, hl', Nat.le_trans List.length_erase_le hroom, ?_⟩
  intro x hx
  rw [hupdate, Function.update_apply] at hx
  split at hx
  · cases hx
  · next hne => exact (List.mem_erase_of_ne hne).mpr (hbits x hx)

/-- All sets are such. -/
def Stored (s : KeventSelect) : Prop := ∀ k, (s k).Stored

theorem stored_cleared : Stored cleared := by
  intro k
  refine ⟨[], ⟨rfl, Kset.holds_create fdsetOpts, by simp⟩, Nat.zero_le _, ?_⟩
  intro fd hbit
  cases hbit

/-- A call that succeeds on every kind. -/
theorem Stored.forKinds {s t : KeventSelect} {f : Kind → Slot → Option (Kerr × Slot)}
    (h : Stored s) (hf : ∀ k x y, x.Stored → f k x = some (.ok, y) → y.Stored)
    (hrun : Kselect.forKinds f s = some (.ok, t)) : Stored t := by
  rcases forKinds_cases hrun with ⟨-, hall⟩ | ⟨hne, -⟩
  · exact fun k => hf k _ _ (h k) (hall k)
  · exact absurd rfl hne

/-- A successful call. -/
theorem Stored.call {guard guard' : Guard KeventSelect} (h : Stored guard.priv) {c : Guard.Call}
    (hcall : call guard c = some (.ok, guard')) : Stored guard'.priv := by
  cases c with
  | add fd flags =>
      refine h.forKinds ?_ (Guard.priv_of_call hcall)
      intro k x y hx hxy
      split at hxy
      · exact hx.set hxy
      · exact (Prod.mk.inj (Option.some.inj hxy)).2 ▸ hx
  | del fd flags =>
      refine h.forKinds ?_ (Guard.priv_of_call hcall)
      intro k x y hx hxy
      split at hxy
      · exact hx.clear hxy
      · exact (Prod.mk.inj (Option.some.inj hxy)).2 ▸ hx

/-- The sets after any successful calls. -/
theorem run_stores {tr : List (Step (Guard KeventSelect) Guard.Call Kerr)}
    {guard : Guard KeventSelect} (hrun : Run call (fun _ _ => True) init tr guard)
    (hok : ∀ e ∈ tr, e.result = .ok) : Stored guard.priv := by
  refine hrun.induct (P := fun tr guard => (∀ e ∈ tr, e.result = .ok) → Stored guard.priv)
    (fun _ => stored_cleared) ?_ hok
  intro tr guard c r guard' _ ih _ hcall hok
  rw [List.forall_mem_append, List.forall_mem_singleton] at hok
  obtain ⟨htr, rfl⟩ := hok
  exact (ih htr).call hcall

/-- What `select` is asked about is registered. -/
theorem Stored.registered_of_bits {s : KeventSelect} (h : Stored s) {k : Kind} {fd : ℕ}
    (hbit : (s k).bits fd = true) : Registered s fd := by
  obtain ⟨l, hl, -, hbits⟩ := h k
  refine ⟨k, ?_⟩
  rw [hl.listed_eq]
  exact hbits fd hbit

/-- `max_fd` is the greatest of the last elements. -/
theorem Stored.maxFd_eq_some_iff {s : KeventSelect} (h : Stored s) {m : ℤ} :
    maxFd s = some m ↔ ∃ last : Kind → ℕ, (∀ k, (s k).listed.getLast? = some (last k)) ∧
      m = max (max (last .read : ℤ) (last .write)) (last .error) := by
  have hlast : ∀ k, (s k).lastFd = (s k).listed.getLast?.map fun fd : ℕ => (fd : ℤ) := by
    intro k
    obtain ⟨l, hl, hroom, -⟩ := h k
    rw [hl.listed_eq]
    exact hl.lastFd_eq (Nat.lt_of_le_of_lt hroom (by decide))
  simp only [maxFd, hlast, Option.bind_eq_bind, Option.bind_eq_some_iff, Option.map_eq_some_iff]
  constructor
  · rintro ⟨-, ⟨rd, hrd, rfl⟩, -, ⟨wt, hwt, rfl⟩, -, ⟨ex, hex, rfl⟩, heq⟩
    refine ⟨fun k => Kind.casesOn k rd wt ex, ?_, (Option.some.inj heq).symm⟩
    intro k
    cases k
    · exact hrd
    · exact hwt
    · exact hex
  · rintro ⟨last, hall, rfl⟩
    exact ⟨_, ⟨_, hall .read, rfl⟩, _, ⟨_, hall .write, rfl⟩, _, ⟨_, hall .error, rfl⟩, rfl⟩

/-- **When `max_fd` is right**, after any successful calls of `kselect_add` and
`kselect_del`. -/
theorem run_maxFd_iff {tr : List (Step (Guard KeventSelect) Guard.Call Kerr)}
    {guard : Guard KeventSelect} (hrun : Run call (fun _ _ => True) init tr guard)
    (hok : ∀ e ∈ tr, e.result = .ok) :
    MaxFdRight guard.priv ↔ LastGreatest guard.priv := by
  have hstored := run_stores hrun hok
  constructor
  · rintro ⟨m, hmax, hreg, hbound⟩
    obtain ⟨last, hlast, hm⟩ := hstored.maxFd_eq_some_iff.mp hmax
    have hne : ∀ k, (guard.priv k).listed ≠ [] := by
      intro k hnil
      have hk := hlast k
      rw [hnil] at hk
      cases hk
    have hsome : ∃ k, m = last k := by
      by_contra hno
      push Not at hno
      have hrd := hno .read
      have hwt := hno .write
      have hex := hno .error
      omega
    obtain ⟨k, hk⟩ := hsome
    exact ⟨hne, k, m, hk ▸ hlast k, fun fd' hfd' => hbound hfd'⟩
  · rintro ⟨hne, k, fd, hfd, hbound⟩
    have hall : ∀ k, ∃ x, (guard.priv k).listed.getLast? = some x := by
      intro k
      exact ⟨_, List.getLast?_eq_some_getLast (hne k)⟩
    choose last hlast using hall
    have hle : ∀ k, last k ≤ fd := fun k => hbound _ ⟨k, List.mem_of_getLast? (hlast k)⟩
    have heq : last k = fd := Option.some.inj ((hlast k).symm.trans hfd)
    refine ⟨fd, hstored.maxFd_eq_some_iff.mpr ⟨last, hlast, ?_⟩, ⟨k, List.mem_of_getLast? hfd⟩,
      fun fd' hfd' => hbound fd' hfd'⟩
    have hrd := hle .read
    have hwt := hle .write
    have hex := hle .error
    cases k <;> omega

/-! ## Creation -/

/-- **What should hold from `kselect_create` on**: it returns, and when it returns an event, then
`max_fd` is right after any successful calls that leave a descriptor registered. -/
def ComputesMaxFd (mem : Memory) : Prop :=
  ∃ r, kselectCreate mem = some r ∧ ∀ priv, r = some priv →
    ∀ (tr : List (Step (Guard KeventSelect) Guard.Call Kerr)) (guard : Guard KeventSelect),
      Run call (fun _ _ => True) (.create priv) tr guard → (∀ e ∈ tr, e.result = .ok) →
        (∃ fd, Registered guard.priv fd) → MaxFdRight guard.priv

/-- **When this is so**: exactly when `kselect_create` has no memory for an event. -/
theorem computesMaxFd_iff (mem : Memory) : ComputesMaxFd mem ↔ mem.LacksSets := by
  obtain ⟨hnone, hlacks⟩ | ⟨hfault, hlacks⟩ := kselectCreate_cases mem
  · exact iff_of_true ⟨none, hnone, nofun⟩ hlacks
  · refine iff_of_false ?_ hlacks
    rintro ⟨r, hr, -⟩
    rw [hfault] at hr
    cases hr

/-- With memory for all of it, `kselect_create` stores through a null pointer. -/
theorem not_computesMaxFd_memory : ¬ ComputesMaxFd ⟨true, true, true, fun _ => true, true⟩ := by
  rintro ⟨r, hr, -⟩
  cases hr

end Kylin.Kselect
