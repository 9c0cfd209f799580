import Kylin.Lib.Plugins
import Kylin.Lib.Run
import Kylin.Math.Val

/-!
# The plugins of events

`lib/core/event/kylin_event_plugin.c` keeps a table `eplugin` with a slot for each type of
event.  A slot has the callbacks of the type and counts its events, and
`kylin_event_unregister` frees a slot only when this count is zero.  The count is kept in
`kylin_event_create` and `kylin_event_destroy`, together with the list `elist` of events,
in which an event is found by its number `id`.  A `klist_t` is the sequence of its values,
as `Math/List` shows.

What the allocator and the callbacks answer is an argument of a call.

## Main definitions

* `KeventReg`, `World`, `init` — callbacks, the table and the list.
* `register`, `unregister`, `create`, `destroy` — the calls.
* `live` — the events that a run has created and not destroyed.

## Main results

* `run_plugins` — the counts, the list and the callbacks are those of the live events.
-/

namespace Kylin.Eplugin

open Lib Lib.Plugins

/-- `kevent_type_t`, below `KEVENT_TYPE_MAX`. -/
inductive KeventType
  | select | poll | epoll | kqueue
  deriving DecidableEq

/-- `kevent_reg_t`, over a type of function pointers. -/
structure KeventReg (F : Type) where
  add : Option F
  del : Option F
  mod : Option F
  proc : Option F
  create : Option F
  destroy : Option F
  init : Option F
  fini : Option F

/-- What `memset` leaves. -/
def KeventReg.zero {F : Type} : KeventReg F := ⟨none, none, none, none, none, none, none, none⟩

/-- The table `eplugin`, the number `eid`, the list `elist` and the events, each with its
`priv`.  The type of a free slot is `KEVENT_TYPE_MAX`. -/
abbrev World (F : Type) : Type := Plugins.World KeventType (KeventReg F) (Option ℕ)

section Calls
variable {F : Type}

/-- A slot of the table as it is compiled in. -/
def initSlot (type : KeventType) : Option (KeventReg F) → Slot KeventType (KeventReg F)
  | none => ⟨none, 0, .zero⟩
  | some reg => ⟨some type, 0, reg⟩

/-- After `kylin_event_init`: a table of plugins, which depends on the system, and no
events. -/
def init (table : KeventType → Option (KeventReg F)) : World F where
  slots t := initSlot t (table t)
  next := 0
  list := []
  mem _ := none

/-- `kylin_event_register`; `ret` is the answer of the callback `init`. -/
def register (w : World F) (type : KeventType) (reg : KeventReg F) (ret : Kerr) :
    Kerr × World F :=
  if (w.slots type).type ≠ none then (.exist, w)
  else if reg.proc.isNone then (.inval, w)
  else if reg.init.isSome ∧ ret ≠ .ok then (ret, w)
  else (.ok, w.put type ⟨some type, 0, reg⟩)

/-- `kylin_event_unregister`. -/
def unregister (w : World F) (type : KeventType) : Kerr × World F :=
  if (w.slots type).type = none then (.noent, w)
  else if (w.slots type).ref ≠ 0 then (.busy, w)
  else (.ok, w.put type ⟨none, 0, .zero⟩)

/-- What `kylin_event_create` is answered: the memory for the event, whether its set can be
made, what the callback `create` returns, and whether there is memory for a node. -/
structure Answers where
  guard : Option ℕ
  events : Bool
  priv : Option ℕ
  node : Bool

/-- `kylin_event_create`. -/
def create (w : World F) (type : KeventType) (ans : Answers) : Option ℕ × World F :=
  if (w.slots type).type = none then (none, w)
  else
    match ans.guard with
    | none => (none, w)
    | some guard =>
        if ans.events = false then (none, w)
        else if (w.slots type).reg.create.isSome ∧ ans.priv.isNone then (none, w)
        else if ans.node = false then (none, w)
        else
          let priv := if (w.slots type).reg.create.isSome then ans.priv else none
          (some guard, w.issue.enlist guard ⟨w.next, type, priv⟩)

/-- `kylin_event_destroy`. -/
def destroy (w : World F) (guard : ℕ) : Option (World F) := w.release guard

/-- The calls. -/
inductive Call (F : Type)
  | register (type : KeventType) (reg : KeventReg F) (ret : Kerr)
  | unregister (type : KeventType)
  | create (type : KeventType) (ans : Answers)
  | destroy (guard : ℕ)

/-- The results of calls. -/
inductive Result
  | unit
  | err (ret : Kerr)
  | event (guard : Option ℕ)

/-- One call. -/
def step (w : World F) : Call F → Option (Result × World F)
  | .register type reg ret => let (ret, w) := register w type reg ret; some (.err ret, w)
  | .unregister type => let (ret, w) := unregister w type; some (.err ret, w)
  | .create type ans => let (guard, w) := create w type ans; some (.event guard, w)
  | .destroy guard => (destroy w guard).map fun w => (.unit, w)

/-- What callers and the allocator promise: an event that is destroyed is there, and new
memory is not in use. -/
def Valid (w : World F) : Call F → Prop
  | .create _ ans => ∀ a, ans.guard = some a → w.mem a = none
  | .destroy guard => (w.mem guard).isSome
  | _ => True

/-- A call of `kylin_event_create`. -/
def Call.isCreate : Call F → Bool
  | .create _ _ => true
  | _ => false

/-- What one call does to the live events. -/
def track (e : Step (World F) (Call F) Result) (l : List (Live KeventType (KeventReg F))) :
    List (Live KeventType (KeventReg F)) :=
  match e.call, e.result with
  | .create type _, .event (some guard) => ⟨guard, type, (e.before.slots type).reg⟩ :: l
  | .destroy guard, _ => l.eraseP fun x => x.addr = guard
  | _, _ => l

/-- The live events after a run, last created first. -/
def live (tr : List (Step (World F) (Call F) Result)) : List (Live KeventType (KeventReg F)) :=
  tr.foldl (fun l e => track e l) []

/-- A slot is free or has its own type. -/
def Proper (w : World F) : Prop := ∀ t, (w.slots t).type = none ∨ (w.slots t).type = some t

end Calls

section Steps
variable {F : Type} {w w' : World F} {l : List (Live KeventType (KeventReg F))}
  {type : KeventType} {ans : Answers}

theorem proper_put (h : Proper w) {slot : Slot KeventType (KeventReg F)}
    (hslot : slot.type = none ∨ slot.type = some type) : Proper (w.put type slot) := by
  intro t
  by_cases ht : t = type
  · rw [ht, Plugins.World.put_self]
    exact hslot
  · rw [w.put_of_ne ht]
    exact h t

theorem Proper.of_type (h : Proper w) (htype : ∀ t, (w'.slots t).type = (w.slots t).type) :
    Proper w' := by
  intro t
  rw [htype t]
  exact h t

/-- What `kylin_event_create` can do. -/
theorem create_cases (w : World F) (type : KeventType) (ans : Answers) :
    create w type ans = (none, w) ∨ ∃ guard priv, ans.guard = some guard ∧
      (w.slots type).type ≠ none ∧
      create w type ans = (some guard, w.issue.enlist guard ⟨w.next, type, priv⟩) := by
  rw [create]
  split
  · exact .inl rfl
  · next htype =>
      split
      · exact .inl rfl
      · next guard hguard =>
          split
          · exact .inl rfl
          · split
            · exact .inl rfl
            · split
              · exact .inl rfl
              · exact .inr ⟨guard, _, hguard, htype, rfl⟩

theorem register_inv (h : Inv w l) (hp : Proper w) (reg : KeventReg F) (ret : Kerr) :
    Inv (register w type reg ret).2 l ∧ Proper (register w type reg ret).2 ∧
      (register w type reg ret).2.next = w.next := by
  rw [register]
  split
  · exact ⟨h, hp, rfl⟩
  · next hfree =>
      split
      · exact ⟨h, hp, rfl⟩
      · split
        · exact ⟨h, hp, rfl⟩
        · exact ⟨h.register (not_not.mp hfree) reg, proper_put hp (.inr rfl), rfl⟩

theorem unregister_inv (h : Inv w l) (hp : Proper w) :
    Inv (unregister w type).2 l ∧ Proper (unregister w type).2 ∧
      (unregister w type).2.next = w.next := by
  rw [unregister]
  split
  · exact ⟨h, hp, rfl⟩
  · split
    · exact ⟨h, hp, rfl⟩
    · next href => exact ⟨h.unregister (not_not.mp href) .zero, proper_put hp (.inl rfl), rfl⟩

/-- One call keeps the invariant, and uses up a number only if it creates. -/
theorem step_inv (h : Inv w l) (hp : Proper w) {c : Call F} {r : Result} (hv : Valid w c)
    (hnext : c.isCreate = true → w.next + 1 < Plugins.World.modulus)
    (hstep : step w c = some (r, w')) :
    Inv w' (track ⟨w, c, r, w'⟩ l) ∧ Proper w' ∧
      w'.next ≤ w.next + if c.isCreate then 1 else 0 := by
  cases c with
  | register type reg ret =>
      obtain ⟨rfl, rfl⟩ := Prod.mk.inj (Option.some.inj hstep)
      obtain ⟨h', hp', hnext'⟩ := register_inv h hp reg ret
      exact ⟨h', hp', Nat.le_of_eq hnext'⟩
  | unregister type =>
      obtain ⟨rfl, rfl⟩ := Prod.mk.inj (Option.some.inj hstep)
      obtain ⟨h', hp', hnext'⟩ := unregister_inv h hp
      exact ⟨h', hp', Nat.le_of_eq hnext'⟩
  | create type ans =>
      rcases create_cases w type ans with heq | ⟨guard, priv, hguard, htype, heq⟩
      · rw [step, heq] at hstep
        obtain ⟨rfl, rfl⟩ := Prod.mk.inj (Option.some.inj hstep)
        exact ⟨h, hp, Nat.le_succ _⟩
      · rw [step, heq] at hstep
        obtain ⟨rfl, rfl⟩ := Prod.mk.inj (Option.some.inj hstep)
        have hn := hnext rfl
        refine ⟨h.enlist hn (hv guard hguard) htype priv, ?_, ?_⟩
        · exact hp.of_type fun t =>
            (Plugins.World.enlist_keeps w.issue guard ⟨w.next, type, priv⟩ t).1
        · exact Nat.le_of_eq (Nat.mod_eq_of_lt hn)
  | destroy guard =>
      obtain ⟨w'', hrelease, h', hnext', hkeeps⟩ := h.release hv
      rw [step, destroy, hrelease] at hstep
      obtain ⟨rfl, rfl⟩ := Prod.mk.inj (Option.some.inj hstep)
      exact ⟨h', hp.of_type fun t => (hkeeps t).1, Nat.le_of_eq hnext'⟩

theorem inv_init (table : KeventType → Option (KeventReg F)) : Inv (init table) [] := by
  refine .of_empty rfl (fun _ => rfl) (Nat.two_pow_pos 32) ?_
  intro t
  change (initSlot t (table t)).ref = 0
  cases table t <;> rfl

theorem proper_init (table : KeventType → Option (KeventReg F)) : Proper (init table) := by
  intro t
  change (initSlot t (table t)).type = none ∨ (initSlot t (table t)).type = some t
  cases table t with
  | none => exact .inl rfl
  | some reg => exact .inr rfl

end Steps

/-- **An event plugin in use stays.**  After every run with fewer than `2 ^ 32` creations:
the count of a type is the number of its live events, `elist` has exactly the live events,
and these are the ones that can be destroyed; and the type of a live event is registered,
with the callbacks it had when the event was created. -/
theorem run_plugins {F : Type} {table : KeventType → Option (KeventReg F)}
    {tr : List (Step (World F) (Call F) Result)} {w : World F}
    (hrun : Run step Valid (init table) tr w)
    (hfew : tr.countP (fun e => e.call.isCreate) < 2 ^ 32) :
    (∀ t, (w.slots t).ref = (live tr).countP fun x => x.type = t) ∧
      w.list = (live tr).map Live.addr ∧
      (∀ a, (w.mem a).isSome ↔ a ∈ w.list) ∧
      ∀ x ∈ live tr, (w.slots x.type).type = some x.type ∧ (w.slots x.type).reg = x.reg := by
  obtain ⟨h, hp⟩ : Inv w (live tr) ∧ Proper w := by
    refine hrun.induct_counted (P := fun tr w => Inv w (live tr) ∧ Proper w)
      (c := fun w => w.next) hfew ⟨inv_init table, proper_init table⟩ rfl ?_
    intro tr w c r w' ih hv hroom hstep
    obtain ⟨h', hp', hnext⟩ := step_inv ih.1 ih.2 hv hroom hstep
    refine ⟨⟨?_, hp'⟩, hnext⟩
    rw [live, List.foldl_append]
    exact h'
  refine ⟨h.ref_eq, h.list_eq, ?_, ?_⟩
  · intro a
    rw [h.list_eq, List.mem_map]
    constructor
    · intro ha
      obtain ⟨o, ho⟩ := Option.isSome_iff_exists.mp ha
      exact h.live_of_mem a o ho
    · rintro ⟨x, hx, rfl⟩
      obtain ⟨o, ho, -⟩ := h.mem_of_live x hx
      rw [ho]
      rfl
  · intro x hx
    obtain ⟨htype, hreg⟩ := h.registered x hx
    exact ⟨(hp x.type).resolve_left htype, hreg⟩

/-- A plugin with one event of two, that cannot be unregistered. -/
theorem run_plugins_busy : ∃ (tr : List (Step (World ℕ) (Call ℕ) Result)) (w : World ℕ),
    Run step Valid (init fun _ => none) tr w ∧ w.list = [1] ∧ (w.slots .poll).ref = 1 ∧
      (unregister w .poll).1 = .busy ∧
      (∀ x ∈ live tr, (w.slots x.type).type = some x.type ∧ (w.slots x.type).reg = x.reg) := by
  have hrun : Run step Valid (init fun _ => none : World ℕ) _ _ :=
    run_of_runList [.register .poll { KeventReg.zero with proc := some 7 } .ok,
      .create .poll ⟨some 1, true, none, true⟩, .create .poll ⟨some 2, true, none, true⟩,
      .create .poll ⟨some 3, true, none, false⟩, .destroy 2] rfl (by
      simp only [List.forall_mem_cons]
      refine ⟨trivial, ?_, ?_, ?_, rfl, by simp⟩
      · intro a ha
        rfl
      · intro a ha
        obtain rfl := Option.some.inj ha
        rfl
      · intro a ha
        obtain rfl := Option.some.inj ha
        rfl)
  exact ⟨_, _, hrun, rfl, rfl, rfl, (run_plugins hrun (by decide)).2.2.2⟩

end Kylin.Eplugin
