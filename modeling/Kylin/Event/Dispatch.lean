import Kylin.Event.Backend
import Kylin.Event.SelectProc

/-!
# The event loop

`kylin_event_process` makes one pass: the plugin asks the kernel what is ready and calls back
the `recv`, `send` or `error` of the options for each descriptor.

A run is registrations, deletions and passes in any order, with any answers of the kernel that
keep to what it was asked.  The callbacks here do not themselves register or delete.

`kselect_proc` gives `select` the bit sets that the registrations keep, and sets the bits again
that `select` has cleared.  As with the other callbacks of that plugin, what is said is about an
event whose bit sets exist.

## Main definitions

* `Fired`, `Due` — callbacks, and those that the registry calls for.
* `Plugin`, `Plugin.turn` — a plugin with its pass, and one turn of the loop.
* `Kselect.proc` — the pass.

## Main results

* `Plugin.run_passes` — what one pass does, along a run.
* `Kselect.run_select` — a pass calls back what is registered and ready, and leaves no trace in
  the registrations.
-/

namespace Kylin

open Lib Event

namespace Event

/-- A callback: `action.recv`, `action.send` or `action.error` of a descriptor. -/
structure Fired where
  kind : Kind
  fd : ℕ
  deriving DecidableEq

/-- The callbacks in `kevent_opts_t` that are not `NULL`. -/
abbrev Actions : Type := Kind → Bool

/-- Call back, if there is a callback. -/
def fire (acts : Actions) (k : Kind) (fd : ℕ) : List Fired := if acts k then [⟨k, fd⟩] else []

theorem mem_fire {acts : Actions} {k : Kind} {fd : ℕ} {f : Fired} :
    f ∈ fire acts k fd ↔ acts k = true ∧ f = ⟨k, fd⟩ := by
  rw [fire]
  split <;> simp [*]

/-- A test before a callback. -/
theorem mem_if_fire {acts : Actions} {k : Kind} {fd : ℕ} {f : Fired} {p : Prop} [Decidable p] :
    f ∈ (if p then fire acts k fd else []) ↔
      acts f.kind = true ∧ fd = f.fd ∧ f.kind = k ∧ p := by
  split
  · next hp =>
      rw [mem_fire, and_iff_left hp]
      constructor
      · rintro ⟨hact, rfl⟩
        exact ⟨hact, rfl, rfl⟩
      · rintro ⟨hact, rfl, rfl⟩
        exact ⟨hact, rfl⟩
  · next hp => exact iff_of_false List.not_mem_nil fun hcon => hp hcon.2.2.2

theorem nodup_if_fire {acts : Actions} {k : Kind} {fd : ℕ} {p : Prop} [Decidable p] :
    (if p then fire acts k fd else []).Nodup := by
  rw [fire]
  split
  · split <;> simp
  · exact List.nodup_nil

/-- The tests for the three callbacks, which make each at most once. -/
theorem nodup_tests {acts : Actions} {fd : ℕ} {p q r : Prop} [Decidable p] [Decidable q]
    [Decidable r] : ((if p then fire acts .read fd else []) ++
      (if q then fire acts .write fd else []) ++
      (if r then fire acts .error fd else [])).Nodup := by
  have hapart : ∀ {p q : Prop} [Decidable p] [Decidable q] {k k' : Kind}, k ≠ k' →
      List.Disjoint (if p then fire acts k fd else []) (if q then fire acts k' fd else []) := by
    intro p q _ _ k k' hne
    rw [List.disjoint_left]
    intro f hf hf'
    exact hne ((mem_if_fire.mp hf).2.2.1.symm.trans (mem_if_fire.mp hf').2.2.1)
  refine (nodup_if_fire.append nodup_if_fire (hapart (by decide))).append nodup_if_fire ?_
  rw [List.disjoint_append_left]
  exact ⟨hapart (by decide), hapart (by decide)⟩

/-- **A callback is due**: the descriptor has an entry, with the flag of the callback unless
it is for an error. -/
def Due {P : Type} (guard : Guard P) (f : Fired) : Prop :=
  ∃ e ∈ guard.entries, e.efd = f.fd ∧ (f.kind = .error ∨ has e.flags f.kind = true)

section Masks
variable {w : ℕ} {e s b : BitVec w}

/-- A flag that a mask has not. -/
theorem and_eq_zero_of_subset (h : e &&& ~~~s = 0) (hb : s &&& b = 0) : e &&& b = 0 := by
  apply BitVec.eq_of_getLsbD_eq
  intro i hi
  have hsub := congrArg (fun x : BitVec w => x.getLsbD i) h
  have hdis := congrArg (fun x : BitVec w => x.getLsbD i) hb
  simp only [BitVec.getLsbD_and, BitVec.getLsbD_not, BitVec.getLsbD_zero, BitVec.ofNat_eq_ofNat,
    hi, decide_true, Bool.true_and] at hsub hdis ⊢
  cases he : e.getLsbD i
  · rfl
  · rw [he, Bool.true_and, Bool.not_eq_false'] at hsub
    rw [hsub, Bool.true_and] at hdis
    rw [hdis]
    rfl

theorem and_not_or_self (x y : BitVec w) : x &&& ~~~(x ||| y) = 0 := by
  apply BitVec.eq_of_getLsbD_eq
  intro i hi
  cases hx : x.getLsbD i <;> simp [hx]

end Masks

/-- What was stored is read back. -/
theorem mapM_map_some {α β : Type} {f : α → β} {g : β → Option α} {l : List α}
    (h : ∀ a ∈ l, g (f a) = some a) : (l.map f).mapM g = some l := by
  induction l with
  | nil => rfl
  | cons a l ih =>
      rw [List.map_cons, List.mapM_cons, h a List.mem_cons_self,
        ih fun x hx => h x (List.mem_cons_of_mem _ hx)]
      rfl

/-- A plugin; `Q` is what the kernel answers in a pass. -/
structure Plugin (P Q : Type) where
  reg : Reg P
  proc : Guard P → Q → Option (Kerr × List Fired × P)

/-- What the program does next. -/
inductive Turn (Q : Type)
  | call (c : Guard.Call)
  | process (q : Q)

namespace Plugin
variable {P Q : Type}

/-- One call, or `kylin_event_process`. -/
def turn (L : Plugin P Q) (guard : Guard P) : Turn Q → Option ((Kerr × List Fired) × Guard P)
  | .call c => (guard.step L.reg c).map fun (ret, guard) => ((ret, []), guard)
  | .process q => (L.proc guard q).map fun (ret, fs, priv) =>
      ((ret, fs), { guard with priv := priv })

/-- The calls of a run, without its passes. -/
def calls (tr : List (Step (Guard P) (Turn Q) (Kerr × List Fired))) :
    List (Step (Guard P) Guard.Call Kerr) :=
  tr.filterMap fun e =>
    match e.call with
    | .call c => some ⟨e.before, c, e.result.1, e.after⟩
    | .process _ => none

theorem calls_append {tr : List (Step (Guard P) (Turn Q) (Kerr × List Fired))}
    {e : Step (Guard P) (Turn Q) (Kerr × List Fired)} :
    calls (tr ++ [e]) = calls tr ++ calls [e] := List.filterMap_append

/-- **The loop**, when a pass in the states of an invariant leaves the plugin as it was: the
calls are a run of their own, and what is shown of a pass holds of every pass. -/
theorem run_passes {L : Plugin P Q} {ok : Guard P → Turn Q → Prop} {guard₀ guard : Guard P}
    {tr : List (Step (Guard P) (Turn Q) (Kerr × List Fired))} (I : Guard P → Prop)
    (Passed : Guard P → Q → Kerr → List Fired → Prop)
    (hrun : Run L.turn ok guard₀ tr guard) (h₀ : I guard₀)
    (hcall : ∀ guard c ret guard', I guard → ok guard (.call c) →
      guard.step L.reg c = some (ret, guard') → I guard')
    (hproc : ∀ guard q ret fs priv, I guard → ok guard (.process q) →
      L.proc guard q = some (ret, fs, priv) → priv = guard.priv ∧ Passed guard q ret fs) :
    I guard ∧
      Run (Guard.step L.reg) (fun guard c => ok guard (.call c)) guard₀ (calls tr) guard ∧
      ∀ e ∈ tr, ∀ q, e.call = .process q → Passed e.before q e.result.1 e.result.2 := by
  refine hrun.induct (P := fun tr guard => I guard ∧
    Run (Guard.step L.reg) (fun guard c => ok guard (.call c)) guard₀ (calls tr) guard ∧
      ∀ e ∈ tr, ∀ q, e.call = .process q → Passed e.before q e.result.1 e.result.2)
    ⟨h₀, .nil, by simp⟩ ?_
  intro tr guard a r guard' _ ⟨hI, hcalls, hpassed⟩ hok hstep
  rw [calls_append, List.forall_mem_append, List.forall_mem_singleton]
  cases a with
  | call c =>
      obtain ⟨⟨ret, guard₁⟩, hc, heq⟩ := Option.map_eq_some_iff.mp hstep
      obtain ⟨rfl, rfl⟩ := Prod.mk.inj heq
      refine ⟨hcall _ _ _ _ hI hok hc, hcalls.snoc hok hc, hpassed, ?_⟩
      intro q hq
      cases hq
  | process q =>
      obtain ⟨⟨ret, fs, priv⟩, hp, heq⟩ := Option.map_eq_some_iff.mp hstep
      obtain ⟨rfl, rfl⟩ := Prod.mk.inj heq
      obtain ⟨rfl, hfs⟩ := hproc _ _ _ _ _ hI hok hp
      refine ⟨hI, ?_, hpassed, ?_⟩
      · have hnone : calls [⟨guard, Turn.process q, (ret, fs), guard⟩] = [] := rfl
        rw [hnone, List.append_nil]
        exact hcalls
      · intro q' hq
        obtain rfl := Turn.process.inj hq
        exact hfs

end Plugin

end Event

/-! ## `select` -/

namespace Kselect

/-- `*(kfd_t *)val`. -/
def readFd : Cell Unit → Option ℕ
  | .int w => some (w.setWidth 32).toNat
  | .obj _ => none

/-- `KYLIN_SET_FOREACH(event_select->fd_set[k], val)`, with `*(kfd_t *)val` for each turn. -/
def Slot.walk (fuel : ℕ) (s : Slot) : Option (List ℕ) := do
  let cs ← s.fds.foreach fuel
  cs.mapM readFd

/-- The callbacks for one kind. -/
def Slot.ready (fuel : ℕ) (acts : Actions) (s : Slot) (k : Kind) : Option (List Fired) :=
  (s.walk fuel).map fun fds => fds.flatMap fun fd => if s.bits fd then fire acts k fd else []

/-- `FD_SET` for each descriptor in the set. -/
def Slot.restore (fuel : ℕ) (s : Slot) : Option Slot :=
  (s.walk fuel).map fun fds =>
    { s with bits := fds.foldl (fun bits fd => Function.update bits fd true) s.bits }

/-- The state of the plugin from that of each kind. -/
def ofKinds (rd wt ex : Slot) : KeventSelect
  | .read => rd
  | .write => wt
  | .error => ex

theorem ofKinds_self (s : KeventSelect) : ofKinds (s .read) (s .write) (s .error) = s := by
  funext k
  cases k <;> rfl

/-- What `select` returns, and the bit sets that it leaves. -/
structure Answer where
  ret : ℤ
  bits : Kind → ℕ → Bool

/-- `select` sets no bits. -/
def Answer.Legal (q : Answer) (guard : Guard KeventSelect) : Prop :=
  ∀ k fd, q.bits k fd = true → (guard.priv k).bits fd = true

/-- `kselect_proc`. -/
def proc (fuel : ℕ) (acts : Actions) (guard : Guard KeventSelect) (q : Answer) :
    Option (Kerr × List Fired × KeventSelect) := do
  let _ ← maxFd guard.priv
  let s : KeventSelect := fun k => { guard.priv k with bits := q.bits k }
  let fs ←
    if q.ret ≠ 0 then do
      let rd ← (s .read).ready fuel acts .read
      let wt ← (s .write).ready fuel acts .write
      let ex ← (s .error).ready fuel acts .error
      some (rd ++ wt ++ ex)
    else some []
  let rd ← (s .read).restore fuel
  let wt ← (s .write).restore fuel
  let ex ← (s .error).restore fuel
  some (.ok, fs, ofKinds rd wt ex)

/-- The plugin with its pass. -/
def plugin (fuel : ℕ) (acts : Actions) : Plugin KeventSelect Answer := ⟨reg, proc fuel acts⟩

/-- What a pass does: a descriptor is called back once for each kind of event that it is
registered for and `select` has left the bit of. -/
structure Passed (acts : Actions) (guard : Guard KeventSelect) (q : Answer) (ret : Kerr)
    (fs : List Fired) : Prop where
  ret_eq : ret = .ok
  nodup : fs.Nodup
  mem_iff : ∀ f, f ∈ fs ↔ q.ret ≠ 0 ∧ acts f.kind = true ∧ q.bits f.kind f.fd = true ∧
    Backend.Listed guard f.fd f.kind

/-! ### The sets in a pass -/

namespace Slot.Stores
variable {s : Slot} {l : List ℕ} {fuel : ℕ}

theorem walk (h : s.Stores l) (hnodup : l.Nodup) (hne : l ≠ []) (hfuel : l.length ≤ fuel) :
    s.walk fuel = some l := by
  have htells : Kset.TellsApart fdCompare (l.map fdCell) := by
    have hkeys : (l.map id).Nodup := by rwa [List.map_id]
    refine Kset.TellsApart.of_key ?_ hkeys
    intro a ha b hb
    exact fdCompare_eq_zero (h.bound a ha) (h.bound b hb)
  have hcells : s.fds.foreach fuel = some (l.map fdCell) :=
    h.fds.foreach h.compare_eq htells (by simpa using hne) (by simpa using hfuel)
  rw [Slot.walk, hcells, Option.bind_eq_bind, Option.bind_some]
  refine mapM_map_some ?_
  intro fd hfd
  exact congrArg some (toNat_fd (h.bound fd hfd))

end Slot.Stores

section Bits
variable {bits : ℕ → Bool} {fds : List ℕ} {fd : ℕ}

theorem foldl_set : fds.foldl (fun bits fd => Function.update bits fd true) bits fd =
    (bits fd || decide (fd ∈ fds)) := by
  induction fds generalizing bits with
  | nil => simp
  | cons x fds ih =>
      rw [List.foldl_cons, ih, Function.update_apply]
      by_cases hx : fd = x
      · simp [hx]
      · simp [hx]

variable {acts : Actions} {k : Kind} {f : Fired}

theorem mem_flatMap_fire :
    f ∈ fds.flatMap (fun fd => if bits fd then fire acts k fd else []) ↔
      f.kind = k ∧ f.fd ∈ fds ∧ bits f.fd = true ∧ acts k = true := by
  rw [List.mem_flatMap]
  constructor
  · rintro ⟨fd, hfd, hf⟩
    by_cases hbit : bits fd = true
    · rw [if_pos hbit, mem_fire] at hf
      obtain ⟨hact, rfl⟩ := hf
      exact ⟨rfl, hfd, hbit, hact⟩
    · rw [if_neg hbit] at hf
      cases hf
  · rintro ⟨rfl, hfd, hbit, hact⟩
    refine ⟨f.fd, hfd, ?_⟩
    rw [if_pos hbit, mem_fire]
    exact ⟨hact, rfl⟩

theorem nodup_flatMap_fire (hnodup : fds.Nodup) :
    (fds.flatMap fun fd => if bits fd then fire acts k fd else []).Nodup := by
  rw [List.nodup_flatMap]
  constructor
  · intro fd _
    exact nodup_if_fire
  · refine hnodup.imp ?_
    intro x y hxy
    refine List.disjoint_left.mpr ?_
    intro f hx hy
    exact hxy ((mem_if_fire.mp hx).2.1.trans (mem_if_fire.mp hy).2.1.symm)

end Bits

/-! ### Passes -/

namespace Inv
variable {guard : Guard KeventSelect} {es : List KeventEvent} {ls : Kind → List ℕ} {fuel : ℕ}
  {acts : Actions} {q : Answer}

theorem listed_iff (h : Inv guard es ls) {k : Kind} {fd : ℕ} :
    Backend.Listed guard fd k ↔ fd ∈ ls k := by
  rw [Backend.Listed, h.lists.entries_eq, h.mem_iff]
  simp only [Guard.lookup_eq_some_iff h.nodup]
  constructor
  · rintro ⟨e, he, rfl, hhas⟩
    exact ⟨e.flags, he, hhas⟩
  · rintro ⟨flags, he, hhas⟩
    exact ⟨_, he, rfl, hhas⟩

/-- The sets with the bits that `select` has left. -/
theorem stores_answer (h : Inv guard es ls) (q : Answer) (k : Kind) :
    ({ guard.priv k with bits := q.bits k } : Slot).Stores (ls k) :=
  ⟨(h.slots k).opts, (h.slots k).fds, (h.slots k).bound⟩

theorem walk (h : Inv guard es ls) (hfuel : fdsetOpts.cap ≤ fuel) (q : Answer) {k : Kind}
    (hne : ls k ≠ []) : ({ guard.priv k with bits := q.bits k } : Slot).walk fuel = some (ls k) :=
  (h.stores_answer q k).walk (h.slots k).nodup hne (Nat.le_trans (h.slots k).room hfuel)

/-- The bits are what they were before `select` was called. -/
theorem restore (h : Inv guard es ls) (hfuel : fdsetOpts.cap ≤ fuel) (hlegal : q.Legal guard)
    {k : Kind} (hne : ls k ≠ []) :
    ({ guard.priv k with bits := q.bits k } : Slot).restore fuel = some (guard.priv k) := by
  rw [Slot.restore, h.walk hfuel q hne, Option.map_some]
  have hbits : (ls k).foldl (fun bits fd => Function.update bits fd true) (q.bits k) =
      (guard.priv k).bits := by
    funext fd
    rw [foldl_set, Bool.eq_iff_iff, Bool.or_eq_true, decide_eq_true_iff, (h.slots k).bits fd]
    constructor
    · rintro (hq | hmem)
      · exact ((h.slots k).bits fd).mp (hlegal k fd hq)
      · exact hmem
    · exact Or.inr
  rw [hbits]

theorem ready (h : Inv guard es ls) (hfuel : fdsetOpts.cap ≤ fuel) {k : Kind} (hne : ls k ≠ []) :
    ({ guard.priv k with bits := q.bits k } : Slot).ready fuel acts k =
      some ((ls k).flatMap fun fd => if q.bits k fd then fire acts k fd else []) := by
  rw [Slot.ready, h.walk hfuel q hne]
  rfl

/-- `max_fd` is read if every set has an element. -/
theorem maxFd_isSome_iff (h : Inv guard es ls) :
    (maxFd guard.priv).isSome ↔ ∀ k, ls k ≠ [] := by
  have hlast : ∀ k, (guard.priv k).lastFd = (ls k).getLast?.map fun fd : ℕ => (fd : ℤ) :=
    fun k => (h.slots k).stores.lastFd_eq
      (Nat.lt_of_le_of_lt (h.slots k).room (by decide))
  have hsome : ∀ k, ((guard.priv k).lastFd).isSome ↔ ls k ≠ [] := by
    intro k
    rw [hlast, Option.isSome_map]
    simp
  have hall : (maxFd guard.priv).isSome ↔ ∀ k, ((guard.priv k).lastFd).isSome := by
    constructor
    · intro hmax k
      simp only [maxFd, Option.bind_eq_bind, Option.isSome_bind, Option.any_eq_true] at hmax
      obtain ⟨rd, hrd, wt, hwt, ex, hex, -⟩ := hmax
      cases k
      · exact Option.isSome_iff_exists.mpr ⟨rd, hrd⟩
      · exact Option.isSome_iff_exists.mpr ⟨wt, hwt⟩
      · exact Option.isSome_iff_exists.mpr ⟨ex, hex⟩
    · intro hall
      obtain ⟨rd, hrd⟩ := Option.isSome_iff_exists.mp (hall .read)
      obtain ⟨wt, hwt⟩ := Option.isSome_iff_exists.mp (hall .write)
      obtain ⟨ex, hex⟩ := Option.isSome_iff_exists.mp (hall .error)
      rw [maxFd, hrd, hwt, hex]
      rfl
  rw [hall]
  exact forall_congr' hsome

/-- The callbacks of a pass. -/
theorem passed (h : Inv guard es ls) {fs : List Fired}
    (hfs : fs = if q.ret ≠ 0 then
        [Kind.read, .write, .error].flatMap fun k =>
          (ls k).flatMap fun fd => if q.bits k fd then fire acts k fd else []
      else []) : Passed acts guard q .ok fs := by
  subst hfs
  by_cases hret : q.ret = 0
  · rw [if_neg (not_not_intro hret)]
    exact ⟨rfl, List.nodup_nil, fun f => by simp [hret]⟩
  · rw [if_pos hret]
    refine ⟨rfl, ?_, ?_⟩
    · rw [List.nodup_flatMap]
      refine ⟨fun k _ => nodup_flatMap_fire (h.slots k).nodup, ?_⟩
      have hkinds : [Kind.read, .write, .error].Nodup := by decide
      refine hkinds.imp ?_
      intro k k' hne
      refine List.disjoint_left.mpr ?_
      intro f hk hk'
      exact hne ((mem_flatMap_fire.mp hk).1.symm.trans (mem_flatMap_fire.mp hk').1)
    · intro f
      simp only [List.mem_flatMap (l := [Kind.read, .write, .error]), mem_flatMap_fire,
        h.listed_iff]
      constructor
      · rintro ⟨k, -, rfl, hmem, hbit, hact⟩
        exact ⟨hret, hact, hbit, hmem⟩
      · rintro ⟨-, hact, hbit, hmem⟩
        exact ⟨f.kind, by cases f.kind <;> simp, rfl, hmem, hbit, hact⟩

/-- A pass in which every set has a descriptor. -/
theorem proc (h : Inv guard es ls) (hfuel : fdsetOpts.cap ≤ fuel) (hlegal : q.Legal guard)
    (hne : ∀ k, ls k ≠ []) :
    ∃ fs, Kselect.proc fuel acts guard q = some (.ok, fs, guard.priv) ∧
      Passed acts guard q .ok fs := by
  obtain ⟨m, hmax⟩ := Option.isSome_iff_exists.mp (h.maxFd_isSome_iff.mpr hne)
  refine ⟨_, ?_, h.passed rfl⟩
  by_cases hret : q.ret = 0
  · simp only [Kselect.proc, hmax, hret, ne_eq, not_true, if_false, Option.bind_eq_bind,
      Option.bind_some, h.restore hfuel hlegal (hne _), ofKinds_self]
  · simp only [Kselect.proc, hmax, hret, ne_eq, not_false_iff, if_true, Option.bind_eq_bind,
      Option.bind_some, h.ready hfuel (hne _), h.restore hfuel hlegal (hne _), ofKinds_self,
      List.flatMap_cons, List.flatMap_nil, List.append_nil, List.append_assoc]

/-- A pass reads before an array if a set is empty. -/
theorem proc_isSome_iff (h : Inv guard es ls) (hfuel : fdsetOpts.cap ≤ fuel)
    (hlegal : q.Legal guard) : (Kselect.proc fuel acts guard q).isSome ↔ ∀ k, ls k ≠ [] := by
  constructor
  · intro hsome
    rw [← h.maxFd_isSome_iff]
    by_contra hnone
    rw [Option.not_isSome_iff_eq_none] at hnone
    rw [Kselect.proc, hnone] at hsome
    cases hsome
  · intro hne
    obtain ⟨fs, hproc, -⟩ := h.proc hfuel hlegal hne
    rw [hproc]
    rfl

/-- A pass that returns. -/
theorem passed_of_proc (h : Inv guard es ls) (hfuel : fdsetOpts.cap ≤ fuel)
    (hlegal : q.Legal guard) {ret : Kerr} {fs : List Fired} {priv : KeventSelect}
    (hproc : Kselect.proc fuel acts guard q = some (ret, fs, priv)) :
    priv = guard.priv ∧ Passed acts guard q ret fs := by
  have hne := (h.proc_isSome_iff hfuel hlegal).mp (Option.isSome_of_mem hproc)
  obtain ⟨fs', hproc', hpassed⟩ : ∃ fs, Kselect.proc fuel acts guard q =
      some (.ok, fs, guard.priv) ∧ Passed acts guard q .ok fs := h.proc hfuel hlegal hne
  rw [hproc] at hproc'
  obtain ⟨rfl, heq⟩ := Prod.mk.inj (Option.some.inj hproc')
  obtain ⟨rfl, rfl⟩ := Prod.mk.inj heq
  exact ⟨rfl, hpassed⟩

end Inv

/-- Calls fit, and `select` sets no bits. -/
def Allowed (guard : Guard KeventSelect) : Turn Answer → Prop
  | .call c => c.fd < fdSetsize ∧ Fits guard c
  | .process q => q.Legal guard

/-- **The loop with `select`**, on an event whose bit sets exist.  In every run of calls that fit
and of passes: the state is that of the calls alone, each pass calls back once what is registered
and ready and nothing else, and a pass is possible if and only if a descriptor is registered for
every kind. -/
theorem run_select {fuel : ℕ} {acts : Actions} (hfuel : fdsetOpts.cap ≤ fuel)
    {tr : List (Step (Guard KeventSelect) (Turn Answer) (Kerr × List Fired))}
    {guard : Guard KeventSelect} (hrun : Run (plugin fuel acts).turn Allowed init tr guard) :
    Run (Guard.step reg) (fun guard c => c.fd < fdSetsize ∧ Fits guard c) init (Plugin.calls tr)
        guard ∧
      (∀ e ∈ tr, ∀ q, e.call = .process q → Passed acts e.before q e.result.1 e.result.2) ∧
      ∀ q : Answer, q.Legal guard →
        (((plugin fuel acts).turn guard (.process q)).isSome ↔
          ∀ k, ∃ fd, Backend.Listed guard fd k) := by
  obtain ⟨⟨es, ls, h⟩, hcalls, hpassed⟩ :=
    Plugin.run_passes (fun guard => ∃ es ls, Inv guard es ls) (Passed acts) hrun ⟨_, _, inv_init⟩
      (by
        rintro guard c ret guard' ⟨es, ls, h⟩ ⟨hfd, hfits⟩ hstep
        obtain ⟨ret', guard'', es', ls', hstep', h'⟩ := h.step hfd hfits
        rw [show (plugin fuel acts).reg = reg from rfl, hstep'] at hstep
        obtain ⟨-, rfl⟩ := Prod.mk.inj (Option.some.inj hstep)
        exact ⟨es', ls', h'⟩)
      (by
        rintro guard q ret fs priv ⟨es, ls, h⟩ hlegal hproc
        exact h.passed_of_proc hfuel hlegal hproc)
  refine ⟨hcalls, hpassed, ?_⟩
  intro q hlegal
  have hproc : (proc fuel acts guard q).isSome ↔ ∀ k, ls k ≠ [] :=
    h.proc_isSome_iff hfuel hlegal
  rw [Plugin.turn, Option.isSome_map]
  refine hproc.trans (forall_congr' fun k => ?_)
  simp only [h.listed_iff, ne_eq, List.eq_nil_iff_forall_not_mem, not_forall, not_not]

end Kselect

end Kylin
