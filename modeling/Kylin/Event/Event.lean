import Kylin.Lib.Run
import Kylin.Math.Set

/-!
# The registry of an event

An event (`lib/core/event/kylin_event.c`) watches file descriptors.  `kevent_t` keeps in
the set `events` which flags were asked for on each descriptor, and the plugin of its
type, one of `select`, `poll`, `epoll`, keeps its own state `priv`.  `kylin_event_add` and
`kylin_event_del` change the set and call the plugin, one after the other; when one of the
two fails, the other is not undone.

The model is over any plugin: `Reg` has the callbacks `add`, `del` and `mod`, and what
they may change is `priv`.

## Main definitions

* `Kind`, `has`, `KeventEvent` — the flags and an entry of the set.
* `Guard`, `Reg`, `Guard.add`, `Guard.del` — an event, its plugin and the two calls.
* `Guard.Lists` — the entries of an event.

## Main results

* `Lists.add`, `Lists.del` — the two calls in terms of entries.
-/

namespace Kylin.Event

open Lib

/-- The kinds of events. -/
inductive Kind
  | read | write | error
  deriving DecidableEq

/-- `kevent_flag_t`. -/
abbrev Flags : Type := BitVec 32

/-- The position of a kind's flag: `KEVENT_FLAG_READ` is `1UL << 0`, and so on. -/
def Kind.bit : Kind → ℕ
  | .read => 0
  | .write => 1
  | .error => 2

/-- `KEVENT_FLAG_READ`, `KEVENT_FLAG_WRITE`, `KEVENT_FLAG_ERROR`. -/
def Kind.flag (k : Kind) : Flags := BitVec.twoPow 32 k.bit

/-- `flags & KEVENT_FLAG_READ`, and so on. -/
def has (flags : Flags) (k : Kind) : Bool := flags &&& k.flag ≠ 0

theorem has_eq (flags : Flags) (k : Kind) : has flags k = flags.getLsbD k.bit := by
  rw [has, Kind.flag, BitVec.and_twoPow]
  cases h : flags.getLsbD k.bit
  · simp
  · cases k <;> simp [Kind.bit] <;> decide

/-- The test `~flags & KEVENT_FLAG_READ`, and so on. -/
theorem has_not (flags : Flags) (k : Kind) : has (~~~flags) k = !has flags k := by
  rw [has_eq, has_eq]
  cases k <;> simp [Kind.bit]

@[simp] theorem has_flag (k k' : Kind) : has k.flag k' = decide (k = k') := by
  cases k <;> cases k' <;> decide

/-- `kevent_event_t`. -/
@[ext] structure KeventEvent where
  efd : ℕ
  flags : Flags
  deriving DecidableEq

/-- `__events_compare`. -/
def eventsCompare : Cell KeventEvent → Cell KeventEvent → ℤ
  | .obj e1, .obj e2 => if e2.efd < e1.efd then 1 else if e1.efd < e2.efd then -1 else 0
  | _, _ => 0

/-- The options of the set `events`. -/
def eventsOpts : KsetOpts KeventEvent where
  isOrder := false
  cap := 4096
  valType := .others
  compare := some eventsCompare
  ctor := true

/-- `kevent_t`, less what does not concern the registry.  `priv` is the state of the
plugin. -/
structure Guard (P : Type) where
  events : Kset KeventEvent
  priv : P

/-- `kevent_reg_t`, less the callbacks that do not concern the registry. -/
structure Reg (P : Type) where
  add : Option (Guard P → ℕ → Flags → Option (Kerr × P))
  del : Option (Guard P → ℕ → Flags → Option (Kerr × P))
  mod : Option (Guard P → ℕ → Flags → Option (Kerr × P))

namespace Guard
variable {P : Type}

/-- A new event. -/
def create (priv : P) : Guard P := ⟨.create eventsOpts, priv⟩

/-- Call the plugin, if it has the callback. -/
def call (guard : Guard P) (f : Option (Guard P → ℕ → Flags → Option (Kerr × P))) (fd : ℕ)
    (flags : Flags) : Option (Kerr × Guard P) :=
  match f with
  | none => some (.ok, guard)
  | some f => (f guard fd flags).map fun (ret, priv) => (ret, { guard with priv := priv })

/-- The entry in a slot. -/
def entry (guard : Guard P) (i : ℕ) : Option KeventEvent :=
  match guard.events.val[i]? with
  | none => none
  | some x =>
      match Kset.contents guard.events.opts x with
      | some (.obj e) => some e
      | _ => none

/-- `kylin_event_add`. -/
def add (reg : Reg P) (guard : Guard P) (fd : ℕ) (flags : Flags) : Option (Kerr × Guard P) := do
  let (ret, events) ← guard.events.insert (.user (.obj ⟨fd, flags⟩))
  let guard := { guard with events := events }
  if ret ≠ .ok then some (ret, guard) else guard.call reg.add fd flags

/-- `kylin_event_del`. -/
def del (reg : Reg P) (guard : Guard P) (fd : ℕ) (flags : Flags) : Option (Kerr × Guard P) := do
  match ← guard.events.find (.user (.obj ⟨fd, flags⟩)) with
  | none => some (.noent, guard)
  | some i =>
      let event ← guard.entry i
      if event.flags = flags then do
        let (ret, guard) ← guard.call reg.del fd flags
        if ret ≠ .ok then some (ret, guard)
        else do
          let (ret, events) ← guard.events.remove (.copy (.obj event))
          some (ret, { guard with events := events })
      else do
        let (ret, guard) ← guard.call reg.mod fd flags
        if ret ≠ .ok then some (ret, guard)
        else
          let event := { event with flags := flags }
          some (.ok, { guard with events := guard.events.write i (.obj event) })

/-- `kylin_event_event_get_by_fd`. -/
def getByFd (guard : Guard P) (fd : ℕ) : Option (Option KeventEvent) := do
  match ← guard.events.find (.user (.obj ⟨fd, 0⟩)) with
  | none => some none
  | some i => (guard.entry i).map some

/-- The entries of an event. -/
def entries (guard : Guard P) : List KeventEvent :=
  guard.events.stored.filterMap fun
    | .obj e => some e
    | .int _ => none

/-- The calls on an event. -/
inductive Call
  | add (fd : ℕ) (flags : Flags)
  | del (fd : ℕ) (flags : Flags)

/-- The descriptor of a call. -/
def Call.fd : Call → ℕ
  | .add fd _ | .del fd _ => fd

/-- One call. -/
def step (reg : Reg P) (guard : Guard P) : Call → Option (Kerr × Guard P)
  | .add fd flags => guard.add reg fd flags
  | .del fd flags => guard.del reg fd flags

/-! ## Entries -/

/-- The flags in the first entry for a descriptor. -/
def lookup (es : List KeventEvent) (fd : ℕ) : Option Flags :=
  (es.find? fun e => e.efd = fd).map KeventEvent.flags

/-- The event has these entries. -/
structure Lists (guard : Guard P) (es : List KeventEvent) : Prop where
  opts : guard.events.opts = eventsOpts
  holds : guard.events.Holds (es.map Cell.obj)
  room : es.length ≤ eventsOpts.cap

/-- The first entry for a descriptor, and its slot. -/
def First (es : List KeventEvent) (fd i : ℕ) (e : KeventEvent) : Prop :=
  (es.findIdx? fun e => e.efd = fd) = some i ∧ es[i]? = some e

theorem First.efd_eq {es : List KeventEvent} {fd i : ℕ} {e : KeventEvent}
    (h : First es fd i e) : e.efd = fd := by
  obtain ⟨hlt, heq, -⟩ := List.findIdx?_eq_some_iff_getElem.mp h.1
  have hget := h.2
  rw [List.getElem?_eq_getElem hlt, Option.some.injEq] at hget
  rw [← hget]
  exact of_decide_eq_true heq

theorem eventsCompare_eq_zero {e1 e2 : KeventEvent} :
    eventsCompare (.obj e1) (.obj e2) = 0 ↔ e2.efd = e1.efd := by
  simp only [eventsCompare]
  split
  · omega
  · split <;> omega

/-- A callback that returns. -/
theorem call_some {f : Guard P → ℕ → Flags → Option (Kerr × P)} {guard : Guard P} {fd : ℕ}
    {flags : Flags} {ret : Kerr} {priv : P} (h : f guard fd flags = some (ret, priv)) :
    guard.call (some f) fd flags = some (ret, { guard with priv := priv }) := by
  rw [call, h]
  rfl

/-- What a callback has returned. -/
theorem priv_of_call {f : Guard P → ℕ → Flags → Option (Kerr × P)} {guard guard' : Guard P}
    {fd : ℕ} {flags : Flags} {ret : Kerr} (h : guard.call (some f) fd flags = some (ret, guard')) :
    f guard fd flags = some (ret, guard'.priv) := by
  obtain ⟨⟨ret', priv⟩, hf, heq⟩ := Option.map_eq_some_iff.mp h
  obtain ⟨rfl, rfl⟩ := Prod.mk.inj heq
  exact hf

theorem events_of_call {guard guard' : Guard P}
    {f : Option (Guard P → ℕ → Flags → Option (Kerr × P))} {fd : ℕ} {flags : Flags} {ret : Kerr}
    (h : guard.call f fd flags = some (ret, guard')) : guard'.events = guard.events := by
  cases f with
  | none =>
      obtain ⟨-, rfl⟩ := Prod.mk.inj (Option.some.inj h)
      rfl
  | some f =>
      obtain ⟨⟨ret', priv⟩, -, heq⟩ := Option.map_eq_some_iff.mp h
      obtain ⟨-, rfl⟩ := Prod.mk.inj heq
      rfl

/-- A callback changes the state of the plugin only. -/
theorem call_eq {guard guard' : Guard P} {f : Option (Guard P → ℕ → Flags → Option (Kerr × P))}
    {fd : ℕ} {flags : Flags} {ret : Kerr} (h : guard.call f fd flags = some (ret, guard')) :
    guard.call f fd flags = some (ret, { guard with priv := guard'.priv }) := by
  rw [← events_of_call h]
  exact h

theorem lists_create (priv : P) : (create priv).Lists [] :=
  ⟨rfl, Kset.holds_create eventsOpts, Nat.zero_le _⟩

/-- An event with equal entries. -/
theorem lists_replicate (priv : P) (e : KeventEvent) {n : ℕ} (hn : n ≤ eventsOpts.cap) :
    (⟨⟨eventsOpts, List.replicate n (.v (.copy (.obj e))), []⟩, priv⟩ : Guard P).Lists
      (List.replicate n e) := by
  refine ⟨rfl, ?_, (List.length_replicate ..).trans_le hn⟩
  rw [Kset.Holds, List.map_replicate, List.map_replicate, List.map_replicate]
  rfl

namespace Lists
variable {guard : Guard P} {es : List KeventEvent} {reg : Reg P} {fd i : ℕ} {flags : Flags}
  {e : KeventEvent}

theorem entries_eq (h : guard.Lists es) : guard.entries = es := by
  rw [entries, h.holds.stored_eq, List.filterMap_map]
  exact List.filterMap_some

/-- The entries do not depend on the plugin. -/
theorem of_events {guard' : Guard P} (h : guard.Lists es) (hevents : guard'.events = guard.events) :
    guard'.Lists es := by
  constructor
  · rw [hevents]
    exact h.opts
  · rw [hevents]
    exact h.holds
  · exact h.room

theorem find (h : guard.Lists es) (fd : ℕ) (flags : Flags) :
    guard.events.find (.user (.obj ⟨fd, flags⟩)) = some (es.findIdx? fun e => e.efd = fd) := by
  have hcmp : guard.events.opts.compare = some eventsCompare := by
    rw [h.opts]
    rfl
  rw [h.holds.find hcmp (KPtr.deref_user _), List.findIdx?_map]
  simp only [Function.comp_def, eventsCompare_eq_zero]

theorem entry (h : guard.Lists es) (he : es[i]? = some e) : guard.entry i = some e := by
  have hmap := congrArg (fun l => l[i]?) h.holds
  simp only [List.getElem?_map, he, Option.map_some, Option.map_eq_some_iff] at hmap
  obtain ⟨x, hx, hc⟩ := hmap
  simp only [Guard.entry, hx, hc]

theorem getByFd (h : guard.Lists es) (hfirst : First es fd i e) :
    guard.getByFd fd = some (some e) := by
  simp only [Guard.getByFd, h.find, hfirst.1, h.entry hfirst.2, Option.bind_eq_bind,
    Option.bind_some, Option.map_some]

/-- Adding appends an entry and calls the plugin. -/
theorem add (h : guard.Lists es) (hroom : es.length < eventsOpts.cap) (reg : Reg P) (fd : ℕ)
    (flags : Flags) : ∃ guard' : Guard P, guard'.Lists (es ++ [⟨fd, flags⟩]) ∧
      guard'.priv = guard.priv ∧ guard.add reg fd flags = guard'.call reg.add fd flags := by
  have hctor : kmathValCtor (.user (.obj ⟨fd, flags⟩)) guard.events.opts.valType
      guard.events.opts.ctor = some (.v (.copy (.obj (⟨fd, flags⟩ : KeventEvent)))) := by
    rw [h.opts]
    rfl
  have hget : Kset.contents guard.events.opts (.v (.copy (.obj (⟨fd, flags⟩ : KeventEvent)))) =
      some (.obj ⟨fd, flags⟩) := by
    rw [h.opts]
    rfl
  have hlen : (es.map Cell.obj).length ≠ guard.events.opts.cap := by
    rw [List.length_map, h.opts]
    exact Nat.ne_of_lt hroom
  obtain ⟨events, hins, hopts, hholds⟩ := h.holds.insert hlen (by rw [h.opts]; rfl) hctor hget
  refine ⟨{ guard with events := events }, ⟨hopts.trans h.opts, ?_, ?_⟩, rfl, ?_⟩
  · rw [List.map_append]
    exact hholds
  · rw [List.length_append]
    exact hroom
  · simp only [Guard.add, hins, Option.bind_eq_bind, Option.bind_some, ne_eq, not_true, if_false]

theorem add_full (h : guard.Lists es) (hfull : es.length = eventsOpts.cap) :
    guard.add reg fd flags = some (.inval, guard) := by
  have hused : guard.events.used = guard.events.opts.cap := by
    rw [h.holds.used_eq, List.length_map, h.opts, hfull]
  rw [Guard.add, Kset.insert_full hused]
  rfl

theorem del_none (h : guard.Lists es) (hno : ∀ e ∈ es, e.efd ≠ fd) :
    guard.del reg fd flags = some (.noent, guard) := by
  have hnone : (es.findIdx? fun e => e.efd = fd) = none := by
    rw [List.findIdx?_eq_none_iff]
    simpa using hno
  rw [Guard.del, h.find, hnone]
  rfl

/-- Deleting with the flags of the entry. -/
theorem del_equal (h : guard.Lists es) (hfirst : First es fd i e) (hflags : e.flags = flags)
    {priv : P} (hcall : guard.call reg.del fd flags = some (.ok, { guard with priv := priv })) :
    ∃ guard', guard.del reg fd flags = some (.ok, guard') ∧ guard'.priv = priv ∧
      guard'.Lists (es.eraseP fun e => e.efd = fd) := by
  have hcmp : guard.events.opts.compare = some eventsCompare := by
    rw [h.opts]
    rfl
  have hmem : ∃ c ∈ es.map Cell.obj, eventsCompare (.obj e) c = 0 :=
    ⟨.obj e, List.mem_map_of_mem (List.mem_of_getElem? hfirst.2), eventsCompare_eq_zero.mpr rfl⟩
  obtain ⟨events, hrem, hopts, hholds⟩ := h.holds.remove hcmp (KPtr.deref_copy _) hmem
  refine ⟨⟨events, priv⟩, ?_, rfl, hopts.trans h.opts, ?_, ?_⟩
  · simp only [Guard.del, h.find, hfirst.1, h.entry hfirst.2, hflags, if_true, hcall, hrem,
      Option.bind_eq_bind, Option.bind_some, ne_eq, not_true, if_false]
  · rw [List.eraseP_map] at hholds
    simpa only [Function.comp_def, eventsCompare_eq_zero, hfirst.efd_eq] using hholds
  · exact Nat.le_trans (List.length_eraseP_le) h.room

/-- Deleting with other flags. -/
theorem del_other (h : guard.Lists es) (hfirst : First es fd i e) (hflags : e.flags ≠ flags)
    {priv : P} (hcall : guard.call reg.mod fd flags = some (.ok, { guard with priv := priv })) :
    ∃ guard', guard.del reg fd flags = some (.ok, guard') ∧ guard'.priv = priv ∧
      guard'.Lists (es.set i { e with flags := flags }) := by
  have htype : guard.events.opts.valType.IsPointer := by
    rw [h.opts]
    decide
  have hholds := h.holds.write htype i (.obj { e with flags := flags })
  refine ⟨⟨guard.events.write i (.obj { e with flags := flags }), priv⟩, ?_, rfl, h.opts, ?_, ?_⟩
  · simp only [Guard.del, h.find, hfirst.1, h.entry hfirst.2, hflags, if_false, hcall,
      Option.bind_eq_bind, Option.bind_some, ne_eq, not_true]
  · rw [← List.map_set] at hholds
    exact hholds
  · rw [List.length_set]
    exact h.room

/-- The plugin fails. -/
theorem del_fail (h : guard.Lists es) (hfirst : First es fd i e)
    {f : Option (Guard P → ℕ → Flags → Option (Kerr × P))}
    (hf : (if e.flags = flags then reg.del else reg.mod) = f) {ret : Kerr} (hret : ret ≠ .ok)
    {priv : P} (hcall : guard.call f fd flags = some (ret, { guard with priv := priv })) :
    guard.del reg fd flags = some (ret, { guard with priv := priv }) := by
  rw [← hf] at hcall
  by_cases hflags : e.flags = flags
  · rw [if_pos hflags] at hcall
    simp only [Guard.del, h.find, hfirst.1, h.entry hfirst.2, hflags, if_true, hcall,
      Option.bind_eq_bind, Option.bind_some, ne_eq, hret, not_false_eq_true]
  · rw [if_neg hflags] at hcall
    simp only [Guard.del, h.find, hfirst.1, h.entry hfirst.2, hflags, if_false, hcall,
      Option.bind_eq_bind, Option.bind_some, ne_eq, hret, not_false_eq_true, if_true]

/-- A deletion that succeeds: the plugin has succeeded, and the entry is removed or gets the
flags. -/
theorem del_ok (h : guard.Lists es) (hfirst : First es fd i e) {guard' : Guard P}
    (hok : guard.del reg fd flags = some (.ok, guard')) :
    ∃ guard₁, guard.call (if e.flags = flags then reg.del else reg.mod) fd flags =
        some (.ok, guard₁) ∧ guard'.priv = guard₁.priv ∧
      guard'.Lists (if e.flags = flags then es.eraseP fun e => e.efd = fd
        else es.set i { e with flags := flags }) := by
  have hdel := hok
  by_cases hflags : e.flags = flags
  · simp only [Guard.del, h.find, hfirst.1, h.entry hfirst.2, hflags, if_true,
      Option.bind_eq_bind, Option.bind_some] at hdel
    obtain ⟨⟨ret, guard₁⟩, hcall, hrest⟩ := Option.bind_eq_some_iff.mp hdel
    obtain rfl : ret = .ok := by
      by_contra hret
      rw [if_pos hret] at hrest
      cases hrest
      exact hret rfl
    rw [if_pos hflags, if_pos hflags]
    obtain ⟨guard'', hdel, hpriv, hlists⟩ := h.del_equal hfirst hflags (call_eq hcall)
    rw [hok] at hdel
    cases hdel
    exact ⟨guard₁, hcall, hpriv, hlists⟩
  · simp only [Guard.del, h.find, hfirst.1, h.entry hfirst.2, hflags, if_false,
      Option.bind_eq_bind, Option.bind_some] at hdel
    obtain ⟨⟨ret, guard₁⟩, hcall, hrest⟩ := Option.bind_eq_some_iff.mp hdel
    obtain rfl : ret = .ok := by
      by_contra hret
      rw [if_pos hret] at hrest
      cases hrest
      exact hret rfl
    rw [if_neg hflags, if_neg hflags]
    obtain ⟨guard'', hdel, hpriv, hlists⟩ := h.del_other hfirst hflags (call_eq hcall)
    rw [hok] at hdel
    cases hdel
    exact ⟨guard₁, hcall, hpriv, hlists⟩

/-- A deletion that fails: the plugin has failed, and the entries are as before. -/
theorem del_error (h : guard.Lists es) (hfirst : First es fd i e) {guard' : Guard P} {ret : Kerr}
    (hret : ret ≠ .ok) (herr : guard.del reg fd flags = some (ret, guard')) :
    guard'.Lists es := by
  obtain ⟨f, hf⟩ : ∃ f, (if e.flags = flags then reg.del else reg.mod) = f := ⟨_, rfl⟩
  cases hcall : guard.call f fd flags with
  | none =>
      subst hf
      by_cases hflags : e.flags = flags
      · rw [if_pos hflags] at hcall
        simp [Guard.del, h.find, hfirst.1, h.entry hfirst.2, hflags, hcall] at herr
      · rw [if_neg hflags] at hcall
        simp [Guard.del, h.find, hfirst.1, h.entry hfirst.2, hflags, hcall] at herr
  | some r =>
      obtain ⟨ret₁, guard₁⟩ := r
      by_cases hret₁ : ret₁ = .ok
      · subst hf hret₁
        by_cases hflags : e.flags = flags
        · rw [if_pos hflags] at hcall
          obtain ⟨guard₂, hdel, -⟩ := h.del_equal hfirst hflags (call_eq hcall)
          rw [herr] at hdel
          exact absurd (Prod.mk.inj (Option.some.inj hdel)).1 hret
        · rw [if_neg hflags] at hcall
          obtain ⟨guard₂, hdel, -⟩ := h.del_other hfirst hflags (call_eq hcall)
          rw [herr] at hdel
          exact absurd (Prod.mk.inj (Option.some.inj hdel)).1 hret
      · rw [h.del_fail hfirst hf hret₁ (call_eq hcall)] at herr
        obtain ⟨-, rfl⟩ := Prod.mk.inj (Option.some.inj herr)
        exact h.of_events rfl

end Lists

/-! ## The entries as a map

With one entry for each descriptor, the list is read as a map from descriptors to flags. -/

section Lookup
variable {es : List KeventEvent} {fd i : ℕ} {flags : Flags} {e : KeventEvent}

theorem lookup_eq_none_iff : lookup es fd = none ↔ ∀ e ∈ es, e.efd ≠ fd := by
  simp [lookup]

theorem lookup_cons (a : KeventEvent) (x : ℕ) :
    lookup (a :: es) x = if a.efd = x then some a.flags else lookup es x := by
  rw [lookup, List.find?_cons]
  by_cases h : a.efd = x
  · simp [h]
  · simp [h, lookup]

theorem exists_first (h : lookup es fd = some flags) : ∃ i e, First es fd i e ∧
    e.flags = flags := by
  rw [lookup, Option.map_eq_some_iff] at h
  obtain ⟨e, hfind, hflags⟩ := h
  obtain ⟨i, hi⟩ : ∃ i, (es.findIdx? fun e => e.efd = fd) = some i := by
    rw [← Option.isSome_iff_exists, List.findIdx?_isSome, List.any_eq_true, ← List.find?_isSome,
      hfind]
    rfl
  refine ⟨i, e, ⟨hi, ?_⟩, hflags⟩
  rw [← hfind, List.find?_eq_bind_findIdx?_getElem?, hi]
  rfl

theorem lookup_eq_some_iff (h : (es.map KeventEvent.efd).Nodup) :
    lookup es fd = some flags ↔ ⟨fd, flags⟩ ∈ es := by
  induction es with
  | nil => simp [lookup]
  | cons a es ih =>
      rw [List.map_cons, List.nodup_cons] at h
      rw [lookup_cons, List.mem_cons]
      by_cases ha : a.efd = fd
      · have hnot : ⟨fd, flags⟩ ∉ es := fun hmem => h.1 (List.mem_map.mpr ⟨_, hmem, ha.symm⟩)
        rw [if_pos ha, Option.some.injEq, or_iff_left hnot, KeventEvent.ext_iff, ha]
        simp [eq_comm]
      · rw [if_neg ha, ih h.2, or_iff_right]
        rintro rfl
        exact ha rfl

theorem lookup_append (h : lookup es fd = none) (flags : Flags) :
    lookup (es ++ [⟨fd, flags⟩]) = Function.update (lookup es) fd (some flags) := by
  ext1 x
  by_cases hx : x = fd
  · rw [lookup, Option.map_eq_none_iff] at h
    rw [hx, Function.update_self, lookup, List.find?_append, h]
    simp
  · rw [Function.update_of_ne hx, lookup, lookup, List.find?_append]
    have hno : ¬ fd = x := Ne.symm hx
    simp [hno]

/-- A second entry is not seen. -/
theorem lookup_append_of_some (h : lookup es fd = some flags) (es' : List KeventEvent) :
    lookup (es ++ es') fd = some flags := by
  rw [lookup, Option.map_eq_some_iff] at h
  obtain ⟨e, hfind, hflags⟩ := h
  rw [lookup, List.find?_append, hfind]
  exact congrArg some hflags

theorem nodup_append (h : (es.map KeventEvent.efd).Nodup) (hnone : lookup es fd = none)
    (flags : Flags) : ((es ++ [(⟨fd, flags⟩ : KeventEvent)]).map KeventEvent.efd).Nodup := by
  rw [List.map_append, List.nodup_append]
  refine ⟨h, by simp, ?_⟩
  intro x hx y hy hxy
  rw [List.map_singleton, List.mem_singleton] at hy
  obtain ⟨e, he, rfl⟩ := List.mem_map.mp hx
  exact lookup_eq_none_iff.mp hnone e he (hxy.trans hy)

theorem lookup_eraseP (h : (es.map KeventEvent.efd).Nodup) :
    lookup (es.eraseP fun e => e.efd = fd) = Function.update (lookup es) fd none := by
  induction es with
  | nil =>
      ext1 x
      rw [Function.update_apply]
      split <;> rfl
  | cons a es ih =>
      rw [List.map_cons, List.nodup_cons] at h
      ext1 x
      by_cases ha : a.efd = fd
      · rw [List.eraseP_cons_of_pos (by simpa using ha), Function.update_apply, lookup_cons, ha]
        by_cases hx : x = fd
        · rw [if_pos hx, hx, lookup_eq_none_iff]
          intro e he hfd
          exact h.1 (List.mem_map.mpr ⟨e, he, hfd.trans ha.symm⟩)
        · rw [if_neg hx, if_neg (Ne.symm hx)]
      · rw [List.eraseP_cons_of_neg (by simpa using ha), lookup_cons, congrFun (ih h.2) x,
          Function.update_apply, Function.update_apply, lookup_cons]
        by_cases hx : x = fd
        · rw [if_neg (fun hax => ha (hax.trans hx)), if_pos hx, if_pos hx]
        · rw [if_neg hx, if_neg hx]

/-- The first entry is the head, or the first one of the tail. -/
theorem First.cons {a : KeventEvent} (h : First (a :: es) fd i e) :
    (a.efd = fd ∧ i = 0 ∧ a = e) ∨ (a.efd ≠ fd ∧ ∃ j, i = j + 1 ∧ First es fd j e) := by
  obtain ⟨hidx, hget⟩ := h
  rw [List.findIdx?_cons] at hidx
  split at hidx
  · next ha =>
      obtain rfl := Option.some.inj hidx
      exact .inl ⟨of_decide_eq_true ha, rfl, Option.some.inj hget⟩
  · next ha =>
      obtain ⟨j, hj, rfl⟩ := Option.map_eq_some_iff.mp hidx
      exact .inr ⟨fun h => ha (decide_eq_true h), j, rfl, hj, hget⟩

theorem lookup_set (h : First es fd i e) (flags : Flags) :
    lookup (es.set i { e with flags := flags }) = Function.update (lookup es) fd (some flags) := by
  induction es generalizing i with
  | nil => cases h.1
  | cons a es ih =>
      ext1 x
      rcases h.cons with ⟨ha, rfl, rfl⟩ | ⟨ha, j, rfl, hj⟩
      · rw [List.set_cons_zero, lookup_cons, Function.update_apply, lookup_cons, ha]
        by_cases hx : x = fd
        · rw [if_pos hx.symm, if_pos hx]
        · rw [if_neg (Ne.symm hx), if_neg hx, if_neg (Ne.symm hx)]
      · rw [List.set_cons_succ, lookup_cons, congrFun (ih hj) x, Function.update_apply,
          Function.update_apply, lookup_cons]
        by_cases hx : x = fd
        · rw [if_neg (fun hax => ha (hax.trans hx)), if_pos hx, if_pos hx]
        · rw [if_neg hx, if_neg hx]

/-- The change of the flags of an entry keeps the descriptors. -/
theorem First.map_efd_set (h : First es fd i e) (flags : Flags) :
    (es.set i { e with flags := flags }).map KeventEvent.efd = es.map KeventEvent.efd := by
  induction es generalizing i with
  | nil => cases h.1
  | cons a es ih =>
      rcases h.cons with ⟨-, rfl, rfl⟩ | ⟨-, j, rfl, hj⟩
      · rfl
      · rw [List.set_cons_succ, List.map_cons, List.map_cons, ih hj]

theorem nodup_eraseP (h : (es.map KeventEvent.efd).Nodup) (fd : ℕ) :
    ((es.eraseP fun e => e.efd = fd).map KeventEvent.efd).Nodup :=
  h.sublist (List.eraseP_sublist.map _)

theorem First.nodup_set (hfirst : First es fd i e) (h : (es.map KeventEvent.efd).Nodup)
    (flags : Flags) : ((es.set i { e with flags := flags }).map KeventEvent.efd).Nodup := by
  rw [hfirst.map_efd_set]
  exact h

end Lookup

/-- Every call leads from entries to entries, with any plugin. -/
theorem Lists.step {reg : Reg P} {guard guard' : Guard P} {es : List KeventEvent}
    (h : guard.Lists es) {c : Call} {ret : Kerr} (hstep : guard.step reg c = some (ret, guard')) :
    ∃ es', guard'.Lists es' := by
  cases c with
  | add fd flags =>
      have hadd : guard.add reg fd flags = some (ret, guard') := hstep
      rcases Nat.lt_or_eq_of_le h.room with hroom | hfull
      · obtain ⟨guard₁, hlists, -, heq⟩ := h.add hroom reg fd flags
        rw [heq] at hadd
        exact ⟨_, hlists.of_events (events_of_call hadd)⟩
      · rw [h.add_full hfull] at hadd
        obtain ⟨-, rfl⟩ := Prod.mk.inj (Option.some.inj hadd)
        exact ⟨es, h⟩
  | del fd flags =>
      have hdel : guard.del reg fd flags = some (ret, guard') := hstep
      cases hlookup : lookup es fd with
      | none =>
          rw [h.del_none (lookup_eq_none_iff.mp hlookup)] at hdel
          obtain ⟨-, rfl⟩ := Prod.mk.inj (Option.some.inj hdel)
          exact ⟨es, h⟩
      | some f =>
          obtain ⟨i, e, hfirst, -⟩ := exists_first hlookup
          by_cases hret : ret = .ok
          · subst hret
            obtain ⟨-, -, -, hlists⟩ := h.del_ok hfirst hdel
            exact ⟨_, hlists⟩
          · exact ⟨es, h.del_error hfirst hret hdel⟩

end Guard

end Kylin.Event
