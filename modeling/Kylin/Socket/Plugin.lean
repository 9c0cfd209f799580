import Kylin.Lib.Plugins
import Kylin.Lib.Run
import Kylin.Math.Val

/-!
# The plugins of sockets

`lib/core/socket/kylin_socket_plugin.c` keeps a table `splugin` of 32 socket types: those of
servers below `0x10` and those of clients from there on, three of each built in.  The
initialiser of the table ends after the last built-in type, and `kylin_socket_init` marks
the other slots as free, with a loop over both halves.

The offset of this loop is `KYLIN_SOCK_SERVER_MAX`, which is one less than the number of
server types.  So the loop frees the slot of `KYLIN_SOCK_CLIENT_UNIX`, and the last two slots
stay as C leaves them: zero, which reads as `KYLIN_SOCK_SERVER_TCP` without callbacks.
`run_right_iff` says that this is all that goes wrong, and how calls can mend it.

## Main definitions

* `splugin`, `init` — the table as it is compiled in, and after `kylin_socket_init`.
* `register`, `unregister`, `create`, `destroy` — the calls.
* `Right` — what the table should be after a run.
* `Change`, `Slots` — what a call can do to a slot, and the slots after a run.

## Main results

* `step_inv` — one call.
* `run_right_iff` — when the table is right.
-/

namespace Kylin.Splugin

open Lib Lib.Plugins

/-- `ksock_type_t`, below `KYLIN_SOCK_MAX`. -/
abbrev KsockType : Type := Fin 32

/-- `KYLIN_SOCK_SERVER_MAX`. -/
def serverMax : ℕ := 0x0F

/-- `KYLIN_SOCK_CLIENT_UNIX`. -/
def clientUnix : KsockType := 0x12

/-- The built-in types: `KYLIN_SOCK_SERVER_TCP`, `UDP` and `UNIX`, and the same of clients. -/
def builtin : List KsockType := [0x00, 0x01, 0x02, 0x10, 0x11, clientUnix]

/-- The files of `plugin`. -/
inductive Family
  | tcp | udp | unix
  deriving DecidableEq

/-- Function pointers: those of the plugins, and others. -/
inductive Fn
  | create (f : Family)
  | destroy (f : Family)
  | init (f : Family)
  | fini (f : Family)
  | user (n : ℕ)
  deriving DecidableEq

/-- What a callback `init` of the library returns. -/
def Fn.answer : Fn → Kerr
  | _ => .ok

/-- `ksock_reg_t`, less the callbacks for the use of a socket. -/
structure KsockReg where
  create : Option Fn
  destroy : Option Fn
  init : Option Fn
  fini : Option Fn

/-- Callbacks that are all `NULL`. -/
def KsockReg.zero : KsockReg := ⟨none, none, none, none⟩

/-- The callbacks of a plugin. -/
def Family.reg (f : Family) : KsockReg :=
  ⟨some (.create f), some (.destroy f), some (.init f), some (.fini f)⟩

/-- The table `splugin`, the number `sid`, the list `slist` and the sockets, each with its
`priv`.  The type of a free slot is `KYLIN_SOCK_MAX`. -/
abbrev World : Type := Plugins.World KsockType KsockReg (Option ℕ)

/-- The initialiser of `splugin`. -/
def initialiser : List (Slot KsockType KsockReg) :=
  [⟨some 0x00, 0, Family.tcp.reg⟩, ⟨some 0x01, 0, Family.udp.reg⟩,
    ⟨some 0x02, 0, Family.unix.reg⟩] ++
  List.replicate 13 ⟨none, 0, .zero⟩ ++
  [⟨some 0x10, 0, Family.tcp.reg⟩, ⟨some 0x11, 0, Family.udp.reg⟩,
    ⟨some clientUnix, 0, Family.unix.reg⟩]

/-- The table as it is compiled in; what the initialiser does not reach is zero. -/
def splugin (t : KsockType) : Slot KsockType KsockReg := initialiser.getD t ⟨some 0, 0, .zero⟩

/-- Mark a slot as free. -/
def free (slots : KsockType → Slot KsockType KsockReg) (i : ℕ) :
    KsockType → Slot KsockType KsockReg :=
  fun t => if t.val = i then { slots t with type := none } else slots t

/-- The first loop of `kylin_socket_plugin_init`, over these slots. -/
def callInit (slots : KsockType → Slot KsockType KsockReg) : List KsockType → Kerr
  | [] => .ok
  | t :: ts =>
      match (slots t).type, (slots t).reg.init with
      | some _, some f => if f.answer ≠ .ok then f.answer else callInit slots ts
      | _, _ => callInit slots ts

/-- `kylin_socket_plugin_init`. -/
def pluginInit (slots : KsockType → Slot KsockType KsockReg) :
    Kerr × (KsockType → Slot KsockType KsockReg) :=
  let ret := callInit slots [0, 15, 1, 16, 2, 17]
  if ret ≠ .ok then (ret, slots)
  else
    (.ok, (List.range' 3 (serverMax - 3)).foldl
      (fun slots i => free (free slots i) (i + serverMax)) slots)

/-- After `kylin_socket_init`. -/
def init : World := ⟨(pluginInit splugin).2, 0, [], fun _ => none⟩

/-- `kylin_socket_register`; `ret` is the answer of the callback `init`. -/
def register (w : World) (type : KsockType) (reg : KsockReg) (ret : Kerr) : Kerr × World :=
  if (w.slots type).type ≠ none then (.exist, w)
  else if reg.create.isNone ∨ reg.destroy.isNone then (.inval, w)
  else if reg.init.isSome ∧ ret ≠ .ok then (ret, w)
  else (.ok, w.put type ⟨some type, 0, reg⟩)

/-- `kylin_socket_unregister`. -/
def unregister (w : World) (type : KsockType) : World :=
  if (w.slots type).type = none then w
  else if (w.slots type).ref ≠ 0 then w
  else w.put type ⟨none, 0, .zero⟩

/-- What `kylin_socket_create` is answered: the memory for the socket, what the callback
`create` returns, and whether there is memory for a node. -/
structure Answers where
  guard : Option ℕ
  priv : Option ℕ
  node : Bool

/-- `kylin_socket_create`. -/
def create (w : World) (type : KsockType) (ans : Answers) : Option ℕ × World :=
  if (w.slots type).type = none then (none, w)
  else
    match ans.guard with
    | none => (none, w)
    | some guard =>
        if (w.slots type).reg.create.isSome ∧ ans.priv.isNone then (none, w.issue)
        else if ans.node = false then (none, w.issue)
        else
          let priv := if (w.slots type).reg.create.isSome then ans.priv else none
          (some guard, w.issue.enlist guard ⟨w.next, type, priv⟩)

/-- `kylin_socket_destroy`. -/
def destroy (w : World) (guard : ℕ) : Option World := w.release guard

/-- The calls. -/
inductive Call
  | register (type : KsockType) (reg : KsockReg) (ret : Kerr)
  | unregister (type : KsockType)
  | create (type : KsockType) (ans : Answers)
  | destroy (guard : ℕ)

/-- The results of calls. -/
inductive Result
  | unit
  | err (ret : Kerr)
  | socket (guard : Option ℕ)

/-- One call. -/
def step (w : World) : Call → Option (Result × World)
  | .register type reg ret => let (ret, w) := register w type reg ret; some (.err ret, w)
  | .unregister type => some (.unit, unregister w type)
  | .create type ans => let (guard, w) := create w type ans; some (.socket guard, w)
  | .destroy guard => (destroy w guard).map fun w => (.unit, w)

/-- What callers and the allocator promise: a socket that is destroyed is there, and new
memory is not in use. -/
def Valid (w : World) : Call → Prop
  | .create _ ans => ∀ a, ans.guard = some a → w.mem a = none
  | .destroy guard => (w.mem guard).isSome
  | _ => True

/-- A call of `kylin_socket_create`. -/
def Call.isCreate : Call → Bool
  | .create _ _ => true
  | _ => false

/-- What one call does to the live sockets. -/
def track (e : Step World Call Result) (l : List (Live KsockType KsockReg)) :
    List (Live KsockType KsockReg) :=
  match e.call, e.result with
  | .create type _, .socket (some guard) => ⟨guard, type, (e.before.slots type).reg⟩ :: l
  | .destroy guard, _ => l.eraseP fun x => x.addr = guard
  | _, _ => l

/-- The live sockets after a run, last created first. -/
def live (tr : List (Step World Call Result)) : List (Live KsockType KsockReg) :=
  tr.foldl (fun l e => track e l) []

/-- The call takes the plugin out of the slot of its type. -/
def Frees (e : Step World Call Result) (t : KsockType) : Prop :=
  e.call = .unregister t ∧ (e.before.slots t).type ≠ none ∧ (e.before.slots t).ref = 0

/-- The call registers a plugin for a type. -/
def Takes (e : Step World Call Result) (t : KsockType) : Prop :=
  (∃ reg ret, e.call = .register t reg ret) ∧ ∃ ret, e.result = .err ret ∧ ret = .ok

/-- The type was unregistered in the run. -/
def Unregistered (tr : List (Step World Call Result)) (t : KsockType) : Prop :=
  ∃ e ∈ tr, Frees e t

/-- The type was registered in the run, by a call. -/
def Registered (tr : List (Step World Call Result)) (t : KsockType) : Prop := ∃ e ∈ tr, Takes e t

/-- A slot is free, or has its own type and the callbacks of a socket. -/
def Sound (w : World) (t : KsockType) : Prop :=
  ((w.slots t).type = none ∨ (w.slots t).type = some t) ∧
    ((w.slots t).type ≠ none → (w.slots t).reg.create.isSome ∧ (w.slots t).reg.destroy.isSome)

/-- **The table is right** after a run: slots are sound, counts are the numbers of live
sockets, and built-in types are registered until they are unregistered. -/
def Right (tr : List (Step World Call Result)) (w : World) : Prop :=
  (∀ t, Sound w t ∧ (w.slots t).ref = (live tr).countP fun x => x.type = t) ∧
    ∀ t ∈ builtin, (w.slots t).type = some t ∨ Unregistered tr t

/-- What one call can do to the type and the callbacks of a slot. -/
inductive Change (e : Step World Call Result) (t : KsockType) : Prop
  | keeps (hfrees : ¬ Frees e t) (htakes : ¬ Takes e t)
      (htype : (e.after.slots t).type = (e.before.slots t).type)
      (hreg : (e.after.slots t).reg = (e.before.slots t).reg)
  | frees (hfrees : Frees e t) (hnone : (e.after.slots t).type = none)
  | takes (htakes : Takes e t) (hnone : (e.before.slots t).type = none)
      (htype : (e.after.slots t).type = some t)
      (hreg : (e.after.slots t).reg.create.isSome ∧ (e.after.slots t).reg.destroy.isSome)

section Steps
variable {w w' : World} {l : List (Live KsockType KsockReg)} {c : Call} {r : Result}
  {t type : KsockType}

theorem not_frees (h : ∀ type, c ≠ .unregister type) : ¬ Frees ⟨w, c, r, w'⟩ t :=
  fun hfrees => h t hfrees.1

theorem not_takes (h : ∀ type reg ret, c ≠ .register type reg ret) :
    ¬ Takes ⟨w, c, r, w'⟩ t := by
  rintro ⟨⟨reg, ret, hc⟩, -⟩
  exact h t reg ret hc

/-- A call that is neither of registering nor of unregistering. -/
theorem change_keeps (hu : ∀ type, c ≠ .unregister type)
    (hr : ∀ type reg ret, c ≠ .register type reg ret)
    (h : (w'.slots t).type = (w.slots t).type ∧ (w'.slots t).reg = (w.slots t).reg) :
    Change ⟨w, c, r, w'⟩ t :=
  .keeps (not_frees hu) (not_takes hr) h.1 h.2

/-- What `kylin_socket_register` can do. -/
theorem register_cases (w : World) (type : KsockType) (reg : KsockReg) (ret : Kerr) :
    (∃ err, err ≠ .ok ∧ register w type reg ret = (err, w)) ∨
      (w.slots type).type = none ∧ reg.create.isSome ∧ reg.destroy.isSome ∧
        register w type reg ret = (.ok, w.put type ⟨some type, 0, reg⟩) := by
  rw [register]
  split
  · exact .inl ⟨_, by decide, rfl⟩
  · next hfree =>
      split
      · exact .inl ⟨_, by decide, rfl⟩
      · next hcb =>
          split
          · next hret => exact .inl ⟨_, hret.2, rfl⟩
          · rw [not_or, Option.isNone_iff_eq_none, Option.isNone_iff_eq_none] at hcb
            exact .inr ⟨not_not.mp hfree, Option.isSome_iff_ne_none.mpr hcb.1,
              Option.isSome_iff_ne_none.mpr hcb.2, rfl⟩

/-- What `kylin_socket_unregister` can do. -/
theorem unregister_cases (w : World) (type : KsockType) :
    ¬ ((w.slots type).type ≠ none ∧ (w.slots type).ref = 0) ∧ unregister w type = w ∨
      ((w.slots type).type ≠ none ∧ (w.slots type).ref = 0) ∧
        unregister w type = w.put type ⟨none, 0, .zero⟩ := by
  rw [unregister]
  split
  · next hfree => exact .inl ⟨fun h => h.1 hfree, rfl⟩
  · next htaken =>
      split
      · next href => exact .inl ⟨fun h => href h.2, rfl⟩
      · next href => exact .inr ⟨⟨htaken, not_not.mp href⟩, rfl⟩

/-- What `kylin_socket_create` can do: a number is used up once there is memory. -/
theorem create_cases (w : World) (type : KsockType) (ans : Answers) :
    create w type ans = (none, w) ∨ create w type ans = (none, w.issue) ∨
      ∃ guard priv, ans.guard = some guard ∧ (w.slots type).type ≠ none ∧
        create w type ans = (some guard, w.issue.enlist guard ⟨w.next, type, priv⟩) := by
  rw [create]
  split
  · exact .inl rfl
  · next htype =>
      split
      · exact .inl rfl
      · next guard hguard =>
          split
          · exact .inr (.inl rfl)
          · split
            · exact .inr (.inl rfl)
            · exact .inr (.inr ⟨guard, _, hguard, htype, rfl⟩)

/-- The registration of a plugin. -/
theorem register_step (h : Inv w l) {reg : KsockReg} {ret : Kerr}
    (hstep : step w (.register type reg ret) = some (r, w')) :
    Inv w' l ∧ w'.next = w.next ∧ ∀ t, Change ⟨w, .register type reg ret, r, w'⟩ t := by
  have hfrees : ∀ t, ¬ Frees ⟨w, .register type reg ret, r, w'⟩ t :=
    fun t => not_frees (fun _ => Call.noConfusion)
  rcases register_cases w type reg ret with ⟨err, herr, heq⟩ | ⟨hfree, hcreate, hdestroy, heq⟩
  · rw [step, heq] at hstep
    obtain ⟨rfl, rfl⟩ := Prod.mk.inj (Option.some.inj hstep)
    refine ⟨h, rfl, fun t => .keeps (hfrees t) ?_ rfl rfl⟩
    rintro ⟨-, ret', hret, hok⟩
    exact herr ((Result.err.inj hret).trans hok)
  · rw [step, heq] at hstep
    obtain ⟨rfl, rfl⟩ := Prod.mk.inj (Option.some.inj hstep)
    refine ⟨h.register hfree reg, rfl, fun t => ?_⟩
    by_cases ht : t = type
    · rw [ht]
      exact .takes ⟨⟨reg, ret, rfl⟩, .ok, rfl, rfl⟩ hfree (by rw [Plugins.World.put_self])
        (by rw [Plugins.World.put_self]; exact ⟨hcreate, hdestroy⟩)
    · refine .keeps (hfrees t) ?_ (by rw [w.put_of_ne ht]) (by rw [w.put_of_ne ht])
      rintro ⟨⟨reg', ret', hc⟩, -⟩
      exact ht (Call.register.inj hc).1.symm

/-- The removal of a plugin. -/
theorem unregister_step (h : Inv w l) (hstep : step w (.unregister type) = some (r, w')) :
    Inv w' l ∧ w'.next = w.next ∧ ∀ t, Change ⟨w, .unregister type, r, w'⟩ t := by
  have htakes : ∀ t, ¬ Takes ⟨w, .unregister type, r, w'⟩ t :=
    fun t => not_takes (fun _ _ _ => Call.noConfusion)
  obtain ⟨rfl, rfl⟩ := Prod.mk.inj (Option.some.inj hstep)
  rcases unregister_cases w type with ⟨hnot, heq⟩ | ⟨hcan, heq⟩
  · rw [heq] at htakes ⊢
    refine ⟨h, rfl, fun t => .keeps ?_ (htakes t) rfl rfl⟩
    rintro ⟨hc, hfrees⟩
    rw [← Call.unregister.inj hc] at hfrees
    exact hnot hfrees
  · rw [heq] at htakes ⊢
    refine ⟨h.unregister hcan.2 .zero, rfl, fun t => ?_⟩
    by_cases ht : t = type
    · rw [ht]
      exact .frees ⟨rfl, hcan⟩ (by rw [Plugins.World.put_self])
    · refine .keeps ?_ (htakes t) (by rw [w.put_of_ne ht]) (by rw [w.put_of_ne ht])
      rintro ⟨hc, -⟩
      exact ht (Call.unregister.inj hc).symm

/-- **One call.**  It keeps the counts, changes slots only as `Change` says, and uses up a
number only if it creates. -/
theorem step_inv (h : Inv w l) (hv : Valid w c)
    (hnext : c.isCreate = true → w.next + 1 < Plugins.World.modulus)
    (hstep : step w c = some (r, w')) :
    Inv w' (track ⟨w, c, r, w'⟩ l) ∧ w'.next ≤ w.next + (if c.isCreate then 1 else 0) ∧
      ∀ t, Change ⟨w, c, r, w'⟩ t := by
  cases c with
  | register type reg ret =>
      obtain ⟨h', hnext', hchange⟩ := register_step h hstep
      exact ⟨h', Nat.le_of_eq hnext', hchange⟩
  | unregister type =>
      obtain ⟨h', hnext', hchange⟩ := unregister_step h hstep
      exact ⟨h', Nat.le_of_eq hnext', hchange⟩
  | create type ans =>
      have hn := hnext rfl
      have hkeeps : (∀ t, (w'.slots t).type = (w.slots t).type ∧
          (w'.slots t).reg = (w.slots t).reg) → ∀ t, Change ⟨w, .create type ans, r, w'⟩ t :=
        fun hsame t => change_keeps (fun _ => Call.noConfusion) (fun _ _ _ => Call.noConfusion)
          (hsame t)
      have hissue : w.issue.next ≤ w.next + 1 := Nat.le_of_eq (Nat.mod_eq_of_lt hn)
      rcases create_cases w type ans with heq | heq | ⟨guard, priv, hguard, htype, heq⟩
      · rw [step, heq] at hstep
        obtain ⟨rfl, rfl⟩ := Prod.mk.inj (Option.some.inj hstep)
        exact ⟨h, Nat.le_succ _, hkeeps fun t => ⟨rfl, rfl⟩⟩
      · rw [step, heq] at hstep
        obtain ⟨rfl, rfl⟩ := Prod.mk.inj (Option.some.inj hstep)
        exact ⟨h.issue hn, hissue, hkeeps fun t => ⟨rfl, rfl⟩⟩
      · rw [step, heq] at hstep
        obtain ⟨rfl, rfl⟩ := Prod.mk.inj (Option.some.inj hstep)
        exact ⟨h.enlist hn (hv guard hguard) htype priv, hissue,
          hkeeps (w.issue.enlist_keeps guard ⟨w.next, type, priv⟩)⟩
  | destroy guard =>
      obtain ⟨w'', hrelease, h', hnext', hsame⟩ := h.release hv
      rw [step, destroy, hrelease] at hstep
      obtain ⟨rfl, rfl⟩ := Prod.mk.inj (Option.some.inj hstep)
      exact ⟨h', Nat.le_of_eq hnext', fun t =>
        change_keeps (fun _ => Call.noConfusion) (fun _ _ _ => Call.noConfusion) (hsame t)⟩

end Steps

section Init

/-- Built-in plugins but the last one of clients are there. -/
theorem type_init_builtin : ∀ t ∈ builtin, t ≠ clientUnix → (init.slots t).type = some t := by
  decide

theorem type_init_unix : (init.slots clientUnix).type = none := by decide

/-- The slots that the loop does not reach. -/
theorem type_init_zero : ∀ t : KsockType, 30 ≤ t.val → (init.slots t).type = some 0 := by
  decide

theorem sound_init : ∀ t : KsockType, t.val < 30 → Sound init t := by
  unfold Sound
  decide

theorem inv_init : Inv init [] :=
  .of_empty rfl (fun _ => rfl) (Nat.two_pow_pos 32) (by decide)

end Init

section Runs
variable {tr : List (Step World Call Result)} {w : World} {e : Step World Call Result}
  {t : KsockType}

theorem unregistered_append :
    Unregistered (tr ++ [e]) t ↔ Unregistered tr t ∨ Frees e t := by
  simp [Unregistered, or_and_right, exists_or]

theorem registered_append : Registered (tr ++ [e]) t ↔ Registered tr t ∨ Takes e t := by
  simp [Registered, or_and_right, exists_or]

/-- The slots after a run: they are sound but for the two that `kylin_socket_init` misses,
until these are unregistered; and a plugin that was there stays until it is unregistered. -/
structure Slots (tr : List (Step World Call Result)) (w : World) : Prop where
  sound : ∀ t : KsockType, t.val < 30 ∨ Unregistered tr t → Sound w t
  zero : ∀ t : KsockType, 30 ≤ t.val → ¬ Unregistered tr t → (w.slots t).type = some 0
  stays : ∀ t ∈ builtin, t ≠ clientUnix ∨ Registered tr t →
    (w.slots t).type = some t ∨ Unregistered tr t
  missed : ¬ Registered tr clientUnix →
    (w.slots clientUnix).type = none ∧ ¬ Unregistered tr clientUnix

theorem slots_init : Slots [] init where
  sound := by
    rintro t (ht | ⟨e, he, -⟩)
    · exact sound_init t ht
    · cases he
  zero := fun t ht _ => type_init_zero t ht
  stays := by
    rintro t ht (hne | ⟨e, he, -⟩)
    · exact .inl (type_init_builtin t ht hne)
    · cases he
  missed := fun _ => ⟨type_init_unix, fun ⟨e, he, _⟩ => by cases he⟩

/-- One call keeps `Slots`. -/
theorem Slots.append (h : Slots tr e.before) (hchange : ∀ t, Change e t) :
    Slots (tr ++ [e]) e.after := by
  constructor
  case sound =>
    intro t ht
    cases hchange t with
    | keeps hfrees _ htype hreg =>
        rw [unregistered_append, or_iff_left hfrees] at ht
        rw [Sound, htype, hreg]
        exact h.sound t ht
    | frees _ hnone => exact ⟨.inl hnone, fun htaken => absurd hnone htaken⟩
    | takes _ _ htype hreg => exact ⟨.inr htype, fun _ => hreg⟩
  case zero =>
    intro t ht hun
    rw [unregistered_append, not_or] at hun
    have hzero := h.zero t ht hun.1
    cases hchange t with
    | keeps _ _ htype _ => exact htype.trans hzero
    | frees hfrees _ => exact absurd hfrees hun.2
    | takes _ hnone _ _ =>
        rw [hzero] at hnone
        cases hnone
  case stays =>
    intro t ht hreg
    rw [unregistered_append]
    cases hchange t with
    | keeps hfrees htakes htype _ =>
        rw [registered_append, or_iff_left htakes] at hreg
        rw [or_iff_left hfrees, htype]
        exact h.stays t ht hreg
    | frees hfrees _ => exact .inr (.inr hfrees)
    | takes _ _ htype _ => exact .inl htype
  case missed =>
    intro hreg
    rw [registered_append, not_or] at hreg
    obtain ⟨hnone, hun⟩ := h.missed hreg.1
    rw [unregistered_append, not_or]
    cases hchange clientUnix with
    | keeps hfrees _ htype _ => exact ⟨htype.trans hnone, hun, hfrees⟩
    | frees hfrees _ => exact absurd hnone hfrees.2.1
    | takes htakes _ _ _ => exact absurd htakes hreg.2

/-- Slots and counts after a run. -/
theorem run_inv (hrun : Run step Valid init tr w)
    (hfew : tr.countP (fun e => e.call.isCreate) < 2 ^ 32) : Inv w (live tr) ∧ Slots tr w := by
  refine hrun.induct_counted (P := fun tr w => Inv w (live tr) ∧ Slots tr w)
    (c := fun w => w.next) hfew ⟨inv_init, slots_init⟩ rfl ?_
  intro tr w c r w' ih hv hroom hstep
  obtain ⟨h', hnext, hchange⟩ := step_inv ih.1 hv hroom hstep
  refine ⟨⟨?_, ih.2.append hchange⟩, hnext⟩
  rw [live, List.foldl_append]
  exact h'

/-- A slot that reads as `KYLIN_SOCK_SERVER_TCP` in another place. -/
theorem not_sound_of_zero (ht : 30 ≤ t.val) (hzero : (w.slots t).type = some 0) :
    ¬ Sound w t := by
  rintro ⟨hnone | htype, -⟩
  · rw [hzero] at hnone
    cases hnone
  · rw [hzero, Option.some.injEq] at htype
    rw [← htype] at ht
    exact absurd ht (by decide)

end Runs

/-- **When the table of socket plugins is right.**  After a run with fewer than `2 ^ 32`
creations it is exactly if the run has unregistered the last two types, and has registered
`KYLIN_SOCK_CLIENT_UNIX`. -/
theorem run_right_iff {tr : List (Step World Call Result)} {w : World}
    (hrun : Run step Valid init tr w)
    (hfew : tr.countP (fun e => e.call.isCreate) < 2 ^ 32) :
    Right tr w ↔ (∀ t : KsockType, 30 ≤ t.val → Unregistered tr t) ∧ Registered tr clientUnix := by
  obtain ⟨h, hslots⟩ := run_inv hrun hfew
  constructor
  · rintro ⟨hsound, hbuiltin⟩
    constructor
    · intro t ht
      by_contra hun
      exact not_sound_of_zero ht (hslots.zero t ht hun) (hsound t).1
    · by_contra hreg
      obtain ⟨hnone, hun⟩ := hslots.missed hreg
      have htype := (hbuiltin clientUnix (by decide)).resolve_right hun
      rw [hnone] at htype
      cases htype
  · rintro ⟨hun, hreg⟩
    constructor
    · intro t
      refine ⟨hslots.sound t ?_, h.ref_eq t⟩
      exact (Nat.lt_or_ge t.val 30).imp_right (hun t)
    · intro t ht
      apply hslots.stays t ht
      by_cases heq : t = clientUnix
      · exact .inr (heq ▸ hreg)
      · exact .inl heq

/-- A run that mends the table. -/
theorem run_right_mended : ∃ (tr : List (Step World Call Result)) (w : World),
    Run step Valid init tr w ∧ w.list = [1] ∧ Right tr w := by
  have hrun : Run step Valid init _ _ :=
    run_of_runList [.unregister 30, .unregister 31,
      .register clientUnix Family.unix.reg .ok, .create clientUnix ⟨some 1, some 7, true⟩] rfl (by
      simp only [List.forall_mem_cons]
      refine ⟨trivial, trivial, trivial, ?_, by simp⟩
      intro a ha
      rfl)
  have hlast : ∀ t : KsockType, 30 ≤ t.val → t = 30 ∨ t = 31 := by decide
  refine ⟨_, _, hrun, rfl, (run_right_iff hrun (by decide)).mpr ⟨?_, ?_⟩⟩
  · intro t ht
    rcases hlast t ht with rfl | rfl
    · exact ⟨_, List.mem_cons_self, rfl, by decide, by decide⟩
    · exact ⟨_, List.mem_cons_of_mem _ List.mem_cons_self, rfl, by decide, by decide⟩
  · exact ⟨_, List.mem_cons_of_mem _ (List.mem_cons_of_mem _ List.mem_cons_self),
      ⟨_, _, rfl⟩, _, rfl, rfl⟩

/-- The table is wrong from the start. -/
theorem not_right_init : Run step Valid init [] init ∧ ¬ Right [] init ∧
    (init.slots 30).type = some 0 ∧ (init.slots 30).reg.create = none ∧
      (init.slots clientUnix).type = none := by
  refine ⟨.nil, ?_, by decide, by decide, by decide⟩
  intro hright
  exact not_sound_of_zero (t := 30) (by decide) (by decide) (hright.1 30).1

end Kylin.Splugin
