import Kylin.Ddb.Ddb
import Kylin.Lib.Refind
import Kylin.Math.ListClear

/-!
# What is done when a program crashes

`__signal_process_normal` (`lib/core/ddb/kylin_ddb.c`) first calls the services that were
registered, and then writes into the record of the program that it has crashed.  The services
are kept in a list (`lib/core/ddb/kylin_ddb_service.c`), and `service_foreach` looks for its
service in that list to find the next one: two services are the same if their functions are.

A function that is registered twice is found at its first place when the loop stands at its second.
The loop then never ends, and the record still says that the program runs.

What the services do is left out: they do not change the list and they return.

## Main definitions

* `serviceInit`, `serviceRegister`, `serviceUnregister` — the list of services.
* `serviceForeach`, `signalProcess` — the loop, and the handler with it.
* `ServiceCall`, `registered` — the calls, and what is registered behind them.

## Main results

* `run_signalProcess` — when the handler writes the record, and what it has called by then.
-/

namespace Kylin.Ddb

open Lib

/-- `service_list`.  A service is the address of its function. -/
abbrev Services := Klist.World ℕ

/-- `__service_match`. -/
def serviceMatch (val key : KPtr ℕ) : ℤ :=
  match val.deref, key.deref with
  | some (.obj s1), some (.obj s2) => if s2 < s1 then 1 else if s1 < s2 then -1 else 0
  -- the list holds services, and is asked for services
  | _, _ => 1

/-- The options of `service_init`. -/
def serviceOpts : KlistOpts ℕ := ⟨.others, true, serviceMatch⟩

/-- `service_init`, beside a heap of other nodes. -/
def serviceInit (heap : Heap (KlistNode ℕ)) : Services := Klist.World.create serviceOpts heap

/-- `kylin_ddb_service_register`; `node` is the answer of the node allocator. -/
def serviceRegister (w : Services) (node : Option ℕ) (service : ℕ) : Option (Kerr × Services) := do
  let (p, w) ← w.insertHead node (.user (.obj service))
  some (if p = .null then .nomem else .ok, w)

/-- `kylin_ddb_service_unregister`. -/
def serviceUnregister (w : Services) (service : ℕ) : Option Services :=
  w.remove (.user (.obj service))

/-- `service_get_first`. -/
def serviceGetFirst (w : Services) : Option (KPtr ℕ) :=
  match w.first with
  | none => some .null
  | some node => w.val (some node)

/-- `service_get_next`. -/
def serviceGetNext (w : Services) (service : KPtr ℕ) : Option (KPtr ℕ) := do
  match ← w.findRaw service with
  | none => some .null
  | some node =>
      match ← w.next (some node) with
      | none => some .null
      | some node => w.val (some node)

/-- `service_foreach` with the calls of `exec`, from a service on; `none` when `fuel` turns are not
enough. -/
def serviceForeach (w : Services) : ℕ → KPtr ℕ → Option (List ℕ)
  | _, .null => some []
  | 0, _ => none
  | fuel + 1, service =>
      match service.deref with
      | some (.obj exec) => do
          let execs ← serviceForeach w fuel (← serviceGetNext w service)
          some (exec :: execs)
      | _ => none

/-- `__signal_process_normal`, behind its line in the log: the functions that it calls, and the
shared memory when it calls `exit`. -/
def signalProcess (w : Services) (s : Kshm.World Kddb) (pname : List Char) (now fuel : ℕ) :
    Option (List ℕ × Kshm.World Kddb) := do
  let execs ← serviceForeach w fuel (← serviceGetFirst w)
  some (execs, signalProcessNormal s pname now)

/-! ## The list -/

/-- The calls. -/
inductive ServiceCall
  | register (node : Option ℕ) (service : ℕ)
  | unregister (service : ℕ)

/-- One call. -/
def serviceStep (w : Services) : ServiceCall → Option (Option Kerr × Services)
  | .register node service => (serviceRegister w node service).map fun (ret, w) => (some ret, w)
  | .unregister service => (serviceUnregister w service).map fun w => (none, w)

/-- The allocator answers with memory that is not in use. -/
def ServiceCall.Fresh (w : Services) : ServiceCall → Prop
  | .register node _ => ∀ a, node = some a → w.heap.get a = none
  | .unregister _ => True

/-- The same call on the functions that are registered, the latest first. -/
def serviceSpec (fs : List ℕ) : ServiceCall → Option Kerr × List ℕ
  | .register (some _) service => (some .ok, service :: fs)
  | .register none _ => (some .nomem, fs)
  | .unregister service => (none, fs.erase service)

/-- The list `w` holds these functions. -/
def Holds (w : Services) (fs : List ℕ) : Prop :=
  ∃ (l : List ℕ) (exec : ℕ → ℕ), w.Holds l ∧ w.guard.opts = serviceOpts ∧
    (∀ a ∈ l, w.vals a = some (.v (.copy (.obj (exec a))))) ∧ fs = l.map exec

/-- A pointer to a service of the list, or `NULL`. -/
def servicePtr : Option ℕ → KPtr ℕ
  | none => .null
  | some service => .copy (.obj service)

section List
variable {w w' : Services} {fs l : List ℕ} {exec : ℕ → ℕ} {a f : ℕ} {key : KPtr ℕ}

theorem holds_init (heap : Heap (KlistNode ℕ)) : Holds (serviceInit heap) [] :=
  ⟨[], id, Klist.World.holds_create _ heap, rfl, fun _ ha => (List.not_mem_nil ha).elim, rfl⟩

/-- Services are matched by their functions. -/
theorem matchesKey_eq (hopts : w.guard.opts = serviceOpts)
    (hval : w.vals a = some (.v (.copy (.obj (exec a))))) (hkey : key.deref = some (.obj f)) :
    w.matchesKey key a = decide (f = exec a) := by
  obtain ⟨x, hx, hv⟩ := Option.map_eq_some_iff.mp hval
  have hzero : serviceMatch key (.copy (.obj (exec a))) = 0 ↔ f = exec a := by
    simp only [serviceMatch, hkey, KPtr.deref_copy]
    split
    · omega
    · split <;> omega
  simp only [Klist.World.matchesKey, hx, hopts, hv, serviceOpts, KmathVal.ptr,
    Bool.beq_eq_decide_eq, hzero]

/-- The value of a node. -/
theorem val_eq (hopts : w.guard.opts = serviceOpts)
    (hval : w.vals a = some (.v (.copy (.obj (exec a))))) :
    w.val (some a) = some (.copy (.obj (exec a))) := by
  obtain ⟨x, hx, hv⟩ := Option.map_eq_some_iff.mp hval
  rw [Klist.World.val, Heap.load, Option.bind_some, hx, Option.map_some, hv, hopts]
  rfl

theorem serviceGetFirst_eq (h : Holds w fs) : serviceGetFirst w = some (servicePtr fs.head?) := by
  obtain ⟨l, exec, H, hopts, hvals, rfl⟩ := h
  rw [serviceGetFirst, Klist.World.first, H.head_eq]
  cases l with
  | nil => rfl
  | cons a l => exact val_eq hopts (hvals a List.mem_cons_self)

/-- The next service is behind the first with the same function. -/
theorem serviceGetNext_eq (h : Holds w fs) (hkey : key.deref = some (.obj f)) :
    serviceGetNext w key = some (servicePtr (follower (fun g => decide (f = g)) fs)) := by
  obtain ⟨l, exec, H, hopts, hvals, rfl⟩ := h
  have hmatch : ∀ a ∈ l, w.matchesKey key a = decide (f = exec a) := fun a ha =>
    matchesKey_eq hopts (hvals a ha) hkey
  rw [serviceGetNext, H.findRaw_eq, follower_map, ← follower_congr hmatch]
  cases hfind : l.find? (w.matchesKey key) with
  | none =>
      rw [follower_eq_none fun b hb => by simpa using List.find?_eq_none.mp hfind b hb]
      rfl
  | some a =>
      obtain ⟨ha, l₁, l₂, rfl, hbefore⟩ := List.find?_eq_some_iff_append.mp hfind
      have hnext : w.next (some a) = some l₂.head? := by
        obtain ⟨v, hget⟩ := Klist.World.get_of_links H.chain.link
        rw [Klist.World.next, Heap.load, Option.bind_some, hget]
        rfl
      rw [follower_append (fun b hb => by simpa using hbefore b hb) ha]
      simp only [Option.bind_eq_bind, Option.bind_some, hnext]
      cases l₂ with
      | nil => rfl
      | cons b l₂ => exact val_eq hopts (hvals b (by simp))

/-- The loop is one that finds its place again. -/
theorem serviceForeach_eq (h : Holds w fs) (fuel : ℕ) (o : Option ℕ) :
    serviceForeach w fuel (servicePtr o) = refind (fun f g => decide (f = g)) fs fuel o := by
  induction fuel generalizing o with
  | zero => cases o <;> rfl
  | succ fuel ih =>
      cases o with
      | none => rfl
      | some f =>
          have hturn : serviceForeach w (fuel + 1) (servicePtr (some f)) = (do
              let service ← serviceGetNext w (servicePtr (some f))
              let execs ← serviceForeach w fuel service
              some (f :: execs)) := rfl
          have hkey : (servicePtr (some f)).deref = some (.obj f) := rfl
          rw [hturn, serviceGetNext_eq h hkey, refind, ← ih, Option.bind_eq_bind, Option.bind_some]
          cases serviceForeach w fuel (servicePtr (follower (fun g => decide (f = g)) fs)) <;> rfl

/-- Registering puts a function in front. -/
theorem Holds.register (h : Holds w fs) (hfresh : w.heap.get a = none) (f : ℕ) :
    ∃ w', serviceRegister w (some a) f = some (.ok, w') ∧ Holds w' (f :: fs) := by
  obtain ⟨l, exec, H, hopts, hvals, rfl⟩ := h
  have hnot : a ∉ l := fun ha => by simpa [hfresh] using H.isSome ha
  -- the list beside the new node
  let w₁ : Services := { w with heap := w.heap.alloc a ⟨none, none, .v (.copy (.obj f))⟩ }
  have hne : ∀ b ∈ l, b ≠ a := fun b hb heq => hnot (heq ▸ hb)
  have hget : ∀ b ∈ l, w₁.heap.get b = w.heap.get b := fun b hb =>
    Heap.get_alloc_of_ne _ _ _ (hne b hb)
  have H₁ : w₁.Holds l := H.frame rfl rfl rfl fun b hb => congrArg (Option.map _) (hget b hb)
  obtain ⟨w', hrun, hopts', hlive, H'⟩ := H₁.insertHeadRaw_spec hnot (by simp [w₁])
  have hrel := Klist.World.Relinks.insertHeadRaw a w' hrun
  have hval : w'.vals a = some (.v (.copy (.obj f))) := by
    rw [hrel.vals_eq, Klist.World.vals, Heap.get_alloc_self]
    rfl
  obtain ⟨x, hx, hv⟩ := Option.map_eq_some_iff.mp hval
  refine ⟨w', ?_, a :: l, Function.update exec a f, H', hopts'.trans hopts, ?_, ?_⟩
  · have hctor : kmathValCtor (.user (.obj f)) w.guard.opts.valType w.guard.opts.valCtor =
        some (.v (.copy (.obj f))) := by
      rw [hopts]
      rfl
    have hptr : kmathValGet x.val w'.guard.opts.valType = .copy (.obj f) := by
      rw [hv, hopts'.trans hopts]
      rfl
    simp only [serviceRegister, Klist.World.insertHead, Klist.World.insertWith, hctor,
      Option.bind_eq_bind, Option.bind_some]
    change ((w₁.insertHeadRaw a).bind _).bind _ = _
    simp only [hrun, Option.bind_some, hx, hptr]
    rfl
  · rw [List.forall_mem_cons, Function.update_self]
    refine ⟨hval, fun b hb => ?_⟩
    rw [Function.update_of_ne (hne b hb), ← hvals b hb, hrel.vals_eq]
    exact congrArg (Option.map _) (hget b hb)
  · rw [List.map_cons, Function.update_self]
    refine congrArg _ (List.map_congr_left fun b hb => ?_)
    rw [Function.update_of_ne (hne b hb)]

/-- Unregistering takes out the latest place of a function. -/
theorem Holds.unregister (h : Holds w fs) (f : ℕ) :
    ∃ w', serviceUnregister w f = some w' ∧ Holds w' (fs.erase f) := by
  obtain ⟨l, exec, H, hopts, hvals, rfl⟩ := h
  have hmatch : ∀ a ∈ l, w.matchesKey (.user (.obj f)) a = decide (f = exec a) := fun a ha =>
    matchesKey_eq hopts (hvals a ha) rfl
  rcases H.remove_cases (.user (.obj f)) with
    ⟨hnone, hrun⟩ | ⟨l₁, a, l₂, w', rfl, hsome, hrun, H', R⟩
  · refine ⟨_, hrun, l, exec, H.frame rfl rfl rfl fun _ _ => rfl, hopts, hvals, ?_⟩
    rw [List.erase_of_not_mem]
    intro hmem
    obtain ⟨a, ha, rfl⟩ := List.mem_map.mp hmem
    refine List.find?_eq_none.mp hnone a ha ?_
    rw [hmatch a ha]
    simp
  · refine ⟨w', hrun, l₁ ++ l₂, exec, H', R.opts_eq.trans hopts, ?_, ?_⟩
    · intro b hb
      have hba : b ≠ a := fun heq => H.notMem_of_middle (heq ▸ hb)
      rw [R.vals_eq b hba]
      refine hvals b ?_
      rw [List.mem_append] at hb ⊢
      exact hb.imp_right (List.mem_cons_of_mem a)
    · have ha : exec a = f := by
        have hfound := List.find?_some hsome
        rw [hmatch a (by simp)] at hfound
        exact (of_decide_eq_true hfound).symm
      have hbefore : f ∉ l₁.map exec := by
        intro hmem
        obtain ⟨b, hb, hbf⟩ := List.mem_map.mp hmem
        have hb' : w.matchesKey (.user (.obj f)) b = true := by
          rw [hmatch b (List.mem_append_left _ hb), hbf]
          simp
        rw [List.find?_append] at hsome
        cases hfind : l₁.find? (w.matchesKey (.user (.obj f))) with
        | none => exact List.find?_eq_none.mp hfind b hb hb'
        | some c =>
            rw [hfind, Option.some_or, Option.some.injEq] at hsome
            have hmem := List.mem_of_find?_eq_some hfind
            exact H.notMem_of_middle (List.mem_append_left _ (hsome ▸ hmem))
      rw [List.map_append, List.map_cons, ha, List.erase_append_right _ hbefore,
        List.erase_cons_head, List.map_append]

/-- **One call** on the list. -/
theorem Holds.step (h : Holds w fs) {c : ServiceCall} (hfresh : c.Fresh w) :
    ∃ w', serviceStep w c = some ((serviceSpec fs c).1, w') ∧ Holds w' (serviceSpec fs c).2 := by
  cases c with
  | register node f =>
      cases node with
      | none =>
          obtain ⟨l, exec, H, hopts, hvals, hfs⟩ := h
          exact ⟨_, rfl, l, exec, H.frame rfl rfl rfl fun _ _ => rfl, hopts, hvals, hfs⟩
      | some a =>
          obtain ⟨w', hrun, h'⟩ := h.register (hfresh a rfl) f
          refine ⟨w', ?_, h'⟩
          rw [serviceStep, hrun]
          rfl
  | unregister f =>
      obtain ⟨w', hrun, h'⟩ := h.unregister f
      refine ⟨w', ?_, h'⟩
      rw [serviceStep, hrun]
      rfl

end List

/-! ## The handler -/

/-- What is registered behind a run, the latest first. -/
def registered (tr : List (Step Services ServiceCall (Option Kerr))) : List ℕ :=
  (specRun serviceSpec [] (tr.map Step.call)).2

section Handler
variable {heap : Heap (KlistNode ℕ)} {tr : List (Step Services ServiceCall (Option Kerr))}
  {w : Services}

/-- The calls of a run answer as on the list of functions, and leave that list. -/
theorem run_holds (h : Run serviceStep (fun w c => c.Fresh w) (serviceInit heap) tr w) :
    (specRun serviceSpec [] (tr.map Step.call)).1 = tr.map Step.result ∧
      Holds w (registered tr) := by
  obtain ⟨fs, hspec, hfs⟩ := h.simulates (holds_init heap) fun w c r w' fs hR hok hs => by
    obtain ⟨w'', hs', h'⟩ := Holds.step hR hok
    rw [hs] at hs'
    obtain ⟨hres, hw⟩ := Prod.mk.inj (Option.some.inj hs')
    exact ⟨hres.symm, hw ▸ h'⟩
  rw [registered, hspec]
  exact ⟨rfl, hfs⟩

/-- The handler, with its loop. -/
theorem signalProcess_eq {fs : List ℕ} (h : Holds w fs) (s : Kshm.World Kddb) (pname : List Char)
    (now fuel : ℕ) : signalProcess w s pname now fuel =
      (refind (fun f g => decide (f = g)) fs fuel fs.head?).map fun execs =>
        (execs, signalProcessNormal s pname now) := by
  rw [signalProcess, serviceGetFirst_eq h, Option.bind_eq_bind, Option.bind_some,
    serviceForeach_eq h]
  cases refind (fun f g => decide (f = g)) fs fuel fs.head? <;> rfl

/-- **A crash.**  After every run of registrations and removals, `__signal_process_normal` comes to
its end if and only if no function is registered twice.  By then it has called every function that
is registered once, the latest first, and the record of the program says that it has crashed. -/
theorem run_signalProcess (h : Run serviceStep (fun w c => c.Fresh w) (serviceInit heap) tr w)
    {s : Kshm.World Kddb} {pname : List Char} {shm : ℕ} (hkept : Kept pname shm s) (now : ℕ) :
    ((∃ fuel execs s', signalProcess w s pname now fuel = some (execs, s')) ↔
      (registered tr).Nodup) ∧
      ∀ fuel execs s', signalProcess w s pname now fuel = some (execs, s') →
        execs = registered tr ∧ ∃ d, s.files (shmName pname) = some d ∧
          s'.files (shmName pname) = some (ended .core now d) := by
  have hfs := (run_holds h).2
  have hloop : ∀ execs, (∃ fuel, refind (fun f g => decide (f = g)) (registered tr) fuel
      (registered tr).head? = some execs) ↔ (registered tr).Nodup ∧ execs = registered tr := by
    intro execs
    have hself : ∀ f ∈ registered tr, (fun f g => decide (f = g)) f f = true := fun _ _ =>
      decide_eq_true rfl
    have hnodup : ((registered tr).Pairwise fun f g => decide (g = f) = false) ↔
        (registered tr).Nodup := by
      simp only [List.Nodup, decide_eq_false_iff_not, ne_comm, ne_eq]
    rw [refind_iff hself, hnodup]
  obtain ⟨d, hd⟩ := hkept.file
  simp only [signalProcess_eq hfs, Option.map_eq_some_iff]
  constructor
  · constructor
    · intro ⟨fuel, _, _, execs, hrun, _⟩
      exact ((hloop execs).mp ⟨fuel, hrun⟩).1
    · intro hnodup
      obtain ⟨fuel, hrun⟩ := (hloop _).mpr ⟨hnodup, rfl⟩
      exact ⟨fuel, _, _, _, hrun, rfl⟩
  · rintro fuel _ _ ⟨execs, hrun, heq⟩
    obtain ⟨rfl, rfl⟩ := Prod.mk.inj heq
    refine ⟨((hloop execs).mp ⟨fuel, hrun⟩).2, d, hd, ?_⟩
    exact (Function.update_self ..).trans (hd ▸ rfl)

end Handler

/-- Two functions are registered, and the program crashes. -/
theorem run_signalProcess_two : ∃ tr w s fuel s',
    Run serviceStep (fun w c => c.Fresh w) (serviceInit ⟨fun _ => none⟩) tr w ∧
      Kept ['d'] 1 s ∧ registered tr = [6, 5] ∧
      signalProcess w s ['d'] 9 fuel = some ([6, 5], s') := by
  obtain ⟨s, -, hopened⟩ : ∃ s, shmInit Kshm.World.init ['d'] 5 1 = (.ok, some 1, s) ∧
      Opened ['d'] 1 [] (firstRun ['d'] 5) s :=
    shmInit_new (fun ⟨_, h, _⟩ => absurd h (Nat.not_lt_zero _)) (by decide)
  obtain ⟨w₁, hstep₁, hfree⟩ : ∃ w₁, serviceStep (serviceInit ⟨fun _ => none⟩)
      (.register (some 1) 5) = some (some .ok, w₁) ∧ w₁.heap.get 2 = none := ⟨_, rfl, rfl⟩
  have hfresh₁ : (ServiceCall.register (some 1) 5).Fresh (serviceInit ⟨fun _ => none⟩) :=
    fun _ _ => rfl
  have hfresh : (ServiceCall.register (some 2) 6).Fresh w₁ := fun a ha => by
    rwa [← Option.some.inj ha]
  have hrun₁ : Run serviceStep (fun w c => c.Fresh w) _ _ w₁ := Run.nil.snoc hfresh₁ hstep₁
  obtain ⟨w, hstep, -⟩ := (run_holds hrun₁).2.step hfresh
  have hrun := hrun₁.snoc hfresh hstep
  obtain ⟨hends, hdone⟩ := run_signalProcess hrun hopened.kept 9
  have hnodup : [6, 5].Nodup := by decide
  obtain ⟨fuel, execs, s', hsig⟩ := hends.mpr hnodup
  have hexecs := (hdone _ _ _ hsig).1
  have heq : execs = [6, 5] := hexecs
  exact ⟨_, w, s, fuel, s', hrun, hopened.kept, hexecs.symm.trans heq, heq ▸ hsig⟩

end Kylin.Ddb
