import Kylin.Lib.Run
import Kylin.Lib.Ensures
import Kylin.Lib.Heap
import Kylin.Lib.SearchTree
import Kylin.Arch.Word
import Kylin.Math.Val
import Kylin.Utils.Name

/-!
# The thread registry

`lib/core/thread/kylin_thread.c` and `kylin_thread_impl.c` keep every created thread in the
tree `thread_rb`, ordered by `thread_id`, which is zero until `kylin_thread_start`.  The tree
is taken here as a search tree with an arbitrary rebalancing that keeps its walk; its
elements are the threads themselves, so a search reads their memory.

`kylin_thread_insert` takes the pointer that `kylin_rb_insert` returns for a new element as
the sign of a failure.  A thread that has been added is freed at once, and stays in the
tree; a thread that has not been added, because there was no memory for its node or because
of another thread that is not started yet, is returned, in the second case after
`kylin_rb_insert` has freed it.  `create_inverted` states this for every state, and
`run_registered_iff` that a run is right exactly when no thread was ever allocated.

## Main definitions

* `Kthread`, `World` — threads, and the memory and the tree they are in.
* `create`, `start`, `destroy`, `find` — the operations.
* `Registered` — what holds after a call.

## Main results

* `create_inverted` — a thread is returned exactly when it was not added.
* `run_registered_iff` — the runs of a right registry.
-/

namespace Kylin

open Lib

/-- `kthread_t`, less `id`, which nothing reads or writes.  `exec` names a procedure. -/
structure Kthread where
  threadId : ℕ
  name : List Char
  terminated : Bool
  exec : ℕ
  param : List Byte

namespace Kthread

/-- The memory of the threads, and `thread_rb`. -/
structure World where
  threads : Heap Kthread
  rb : SearchTree ℕ

/-- `__thread_compare`. -/
def threadCompare (t1 t2 : Kthread) : ℤ :=
  if t2.threadId < t1.threadId then 1
  else if t1.threadId < t2.threadId then -1
  else 0

/-- The word at an offset of a buffer. -/
def wordAt (buf : List Char) (off : ℕ) : ℕ :=
  ((buf.drop off).take 8).foldr (fun c n => c.toNat + 256 * n) 0

namespace World

/-- The comparison of a thread with an element of the tree, which must not have been freed. -/
def compareWith (w : World) (t : Kthread) (a : ℕ) : Option ℤ :=
  (w.threads.get a).map fun x => threadCompare t x

/-- The world with a thread freed. -/
def free (w : World) (a : ℕ) : Option World :=
  (w.threads.free a).map fun h => { w with threads := h }

section Operations
variable (balance : SearchTree ℕ → SearchTree ℕ)

/-- `kylin_rb_insert`, with `node` for whether there is memory for a node.  An element that
is already there is given to the value destructor, here `kylin_free`. -/
def rbInsert (w : World) (a : ℕ) (node : Bool) : Option (Option ℕ × World) :=
  if node then do
    let t ← w.threads.get a
    match ← w.rb.insert (w.compareWith t) a with
    | none =>
        let w ← w.free a
        some (none, w)
    | some rb => some (some a, { w with rb := balance rb })
  else some (none, w)

/-- `kylin_thread_insert`. -/
def threadInsert (w : World) (a : ℕ) (node : Bool) : Option (Kerr × World) := do
  let (p, w) ← w.rbInsert balance a node
  if p ≠ none then some (.nomem, w) else some (.ok, w)

/-- `kylin_thread_create`; `mem` is the answer of `kylin_malloc`. -/
def create (w : World) (mem : Option ℕ) (node : Bool) (name : List Char) (exec : ℕ)
    (param : List Byte) : Option (Option ℕ × World) :=
  match mem with
  | none => some (none, w)
  | some a => do
      let t : Kthread := ⟨0, copyName (pad []) name, false, exec, param⟩
      let (err, w) ← threadInsert balance { w with threads := w.threads.alloc a t } a node
      if err ≠ .ok then
        let w ← w.free a
        some (none, w)
      else some (some a, w)

/-- `kylin_thread_find`. -/
def find (w : World) (tid : ℕ) : Option (Option ℕ) :=
  w.rb.find (w.compareWith ⟨tid, pad [], false, 0, []⟩)

/-- `kylin_thread_unlink`: the element that `kylin_rb_unlink` returns is taken for its node,
whose value is where a thread has the bytes 16 to 23 of its name. -/
def threadUnlink (w : World) (a : ℕ) : Option (Option ℕ × World) := do
  let t ← w.threads.get a
  match ← w.rb.remove (w.compareWith t) with
  | none => some (none, w)
  | some (b, rb) =>
      let x ← w.threads.get b
      let p := wordAt x.name 16
      some (if p = 0 then none else some p, { w with rb := balance rb })

/-- `kylin_thread_destroy`. -/
def destroy (w : World) (a : ℕ) : Option World := do
  let (p, w) ← w.threadUnlink balance a
  match p with
  | none => some w
  | some b =>
      let h ← w.threads.modify (some b) fun t => { t with terminated := true }
      free { w with threads := h } b

/-- `kylin_thread_start`; `ret` and `tid` are the answer of `pthread_create`. -/
def start (w : World) (a ret tid : ℕ) : Option (ℕ × World) := do
  let h ← w.threads.modify (some a) fun t => if ret = 0 then { t with threadId := tid } else t
  some (ret, { w with threads := h })

end Operations

/-! ## Runs -/

/-- The calls. -/
inductive Call
  | create (mem : Option ℕ) (node : Bool) (name : List Char) (exec : ℕ) (param : List Byte)
  | start (a ret tid : ℕ)
  | destroy (a : ℕ)

/-- What a call returns. -/
inductive Result
  | thread (p : Option ℕ)
  | code (ret : ℕ)
  | unit

/-- One call. -/
def step (balance : SearchTree ℕ → SearchTree ℕ) (w : World) : Call → Option (Result × World)
  | .create mem node name exec param =>
      (w.create balance mem node name exec param).map fun (p, w) => (.thread p, w)
  | .start a ret tid => (w.start a ret tid).map fun (ret, w) => (.code ret, w)
  | .destroy a => (w.destroy balance a).map fun w => (.unit, w)

/-- Before the first call: `kylin_thread_init` has made an empty tree. -/
def init : World := ⟨⟨fun _ => none⟩, .leaf⟩

/-- A live thread that has been started, with its id. -/
def Started (w : World) (a tid : ℕ) : Prop :=
  ∃ t, w.threads.get a = some t ∧ t.threadId = tid ∧ tid ≠ 0

/-- Memory is new, a new id is not zero and not in use, and the caller owns the threads it
names. -/
def Allowed (w : World) : Call → Prop
  | .create mem _ _ _ _ => ∀ a, mem = some a → w.threads.get a = none
  | .start a ret tid => (w.threads.get a).isSome ∧
      (ret = 0 → tid ≠ 0 ∧ ∀ b, ¬ w.Started b tid)
  | .destroy a => (w.threads.get a).isSome

/-- A call put a thread into the tree. -/
def Added (e : Step World Call Result) (a : ℕ) : Prop :=
  e.before.rb.toList.count a < e.after.rb.toList.count a

/-- **What holds of a call on the registry**: a thread is returned exactly when it was added,
there is one whenever there is memory, and a search finds the thread with an id. -/
structure Registered (e : Step World Call Result) : Prop where
  added_iff : ∀ mem node name exec param, e.call = .create mem node name exec param →
    ∀ a, e.result = .thread (some a) ↔ Added e a
  created : ∀ a name exec param, e.call = .create (some a) true name exec param →
    e.result = .thread (some a)
  finds : ∀ tid, ∃ p, e.after.find tid = some p ∧ ∀ a, p = some a ↔ e.after.Started a tid

/-- The calls that get memory for a thread. -/
def Call.Allocates : Call → Prop
  | .create mem _ _ _ _ => mem ≠ none
  | .start _ _ _ | .destroy _ => False

section Spec
variable {balance : SearchTree ℕ → SearchTree ℕ} {w : World}

theorem free_rb (a : ℕ) : Ensures (w.free a) fun w' => w'.rb = w.rb :=
  .map fun _ _ => rfl

/-- An insertion into the tree returns the element exactly when it adds it. -/
theorem rbInsert_spec (hbal : ∀ t, (balance t).toList = t.toList) (a : ℕ) (node : Bool) :
    Ensures (w.rbInsert balance a node) fun r =>
      (r.1 = none ∧ r.2.rb = w.rb) ∨ (r.1 = some a ∧ r.2.rb.toList.Perm (a :: w.rb.toList)) := by
  refine .ite (.bind .any fun t _ => ?_) (.some (.inl ⟨rfl, rfl⟩))
  refine .bind (Q := fun o => ∀ rb, o = some rb → rb.toList.Perm (a :: w.rb.toList)) ?_ ?_
  · rintro o ho rb rfl
    exact SearchTree.insert_perm ho
  · intro o ho
    cases o with
    | none => exact .bind (free_rb a) fun _ hw => .some (.inl ⟨rfl, hw⟩)
    | some rb =>
        refine .some (.inr ⟨rfl, ?_⟩)
        change (balance rb).toList.Perm _
        rw [hbal]
        exact ho rb rfl

/-- `kylin_thread_insert` reports the elements that were added as failures. -/
theorem threadInsert_spec (hbal : ∀ t, (balance t).toList = t.toList) (a : ℕ) (node : Bool) :
    Ensures (w.threadInsert balance a node) fun r =>
      (r.1 = .ok ∧ r.2.rb = w.rb) ∨ (r.1 ≠ .ok ∧ r.2.rb.toList.Perm (a :: w.rb.toList)) := by
  refine .bind (rbInsert_spec hbal a node) ?_
  rintro ⟨p, w'⟩ (⟨rfl, hrb⟩ | ⟨rfl, hperm⟩)
  · exact .some (.inl ⟨rfl, hrb⟩)
  · exact .some (.inr ⟨nofun, hperm⟩)

theorem create_spec (hbal : ∀ t, (balance t).toList = t.toList) (a : ℕ) (node : Bool)
    (name : List Char) (exec : ℕ) (param : List Byte) :
    Ensures (w.create balance (some a) node name exec param) fun r =>
      (r.1 = some a ∧ r.2.rb = w.rb) ∨ (r.1 = none ∧ r.2.rb.toList.Perm (a :: w.rb.toList)) := by
  refine .bind (threadInsert_spec hbal a node) ?_
  rintro ⟨err, w'⟩ (⟨rfl, hrb⟩ | ⟨hne, hperm⟩)
  · exact .some (.inl ⟨rfl, hrb⟩)
  · simp only [if_pos hne]
    exact .bind (free_rb a) fun w'' hw => .some (.inr ⟨rfl, by simpa only [hw] using hperm⟩)

/-- **`kylin_thread_create` answers the wrong way round**, in every state: a thread is
returned exactly when it was not added. -/
theorem create_inverted (hbal : ∀ t, (balance t).toList = t.toList) (a : ℕ) (node : Bool)
    (name : List Char) (exec : ℕ) (param : List Byte) :
    Ensures (w.create balance (some a) node name exec param) fun r =>
      (r.1 = some a ↔ ¬ w.rb.toList.count a < r.2.rb.toList.count a) := by
  refine (create_spec hbal a node name exec param).mono ?_
  rintro ⟨p, w'⟩ (⟨rfl, hrb⟩ | ⟨rfl, hperm⟩)
  · simp only at hrb
    simp [hrb]
  · simp only at hperm
    simp [hperm.count_eq]

/-- A call that gets memory for a thread is not right. -/
theorem not_registered_of_allocates (hbal : ∀ t, (balance t).toList = t.toList) {c : Call}
    (hc : c.Allocates) {r : Result} {w' : World} (hs : w.step balance c = some (r, w')) :
    ¬ Registered ⟨w, c, r, w'⟩ := by
  intro hright
  cases c with
  | create mem node name exec param =>
      obtain ⟨a, rfl⟩ := Option.ne_none_iff_exists'.mp hc
      obtain ⟨⟨p, w''⟩, hcreate, he⟩ := Option.map_eq_some_iff.mp hs
      obtain ⟨rfl, rfl⟩ := Prod.mk.inj he
      have hinv : p = some a ↔
          ¬ Added ⟨w, .create (some a) node name exec param, .thread p, w''⟩ a :=
        create_inverted hbal a node name exec param _ hcreate
      have hiff := hright.added_iff _ _ _ _ _ rfl a
      simp only [Result.thread.injEq] at hiff
      rw [hiff] at hinv
      exact (iff_not_self hinv).elim
  | start _ _ _ | destroy _ => exact hc

/-- While there is no thread, a call that gets no memory changes nothing, and is right. -/
theorem registered_of_not_allocates (hw : ∀ a, w.threads.get a = none) (hrb : w.rb = .leaf)
    {c : Call} (ha : Allowed w c) (hc : ¬ c.Allocates) {r : Result} {w' : World}
    (hs : w.step balance c = some (r, w')) : w' = w ∧ Registered ⟨w, c, r, w'⟩ := by
  cases c with
  | create mem node name exec param =>
      obtain rfl : mem = none := Classical.not_not.mp hc
      obtain ⟨rfl, rfl⟩ := Prod.mk.inj (Option.some.inj hs)
      refine ⟨rfl, ?_, ?_, ?_⟩
      · intro _ _ _ _ _ _ a
        simp [Added]
      · intro a name' exec' param' he
        cases he
      · intro tid
        refine ⟨none, by rw [find, hrb]; rfl, fun a => ?_⟩
        simp [Started, hw]
  | start a ret tid =>
      rw [Allowed, hw] at ha
      cases ha.1
  | destroy a =>
      rw [Allowed, hw] at ha
      cases ha

end Spec

/-- **When the registry is right.**  The calls of a run are all right exactly when none of
them gets memory for a thread. -/
theorem run_registered_iff {balance : SearchTree ℕ → SearchTree ℕ}
    (hbal : ∀ t, (balance t).toList = t.toList) {w : World}
    {tr : List (Step World Call Result)} (h : Run (step balance) Allowed init tr w) :
    (∀ e ∈ tr, Registered e) ↔ ∀ e ∈ tr, ¬ e.call.Allocates := by
  apply h.forall_mem_iff (I := fun w => w = init) rfl
  rintro w c r w' rfl ha hs
  have hnone : Registered ⟨init, c, r, w'⟩ → ¬ c.Allocates :=
    fun hright hc => not_registered_of_allocates hbal hc hs hright
  have hempty : ¬ c.Allocates → w' = init ∧ Registered ⟨init, c, r, w'⟩ :=
    fun hc => registered_of_not_allocates (fun _ => rfl) rfl ha hc hs
  constructor
  · exact ⟨hnone, fun hc => (hempty hc).2⟩
  · exact fun hright => (hempty (hnone hright)).1

/-- Two threads that are refused memory. -/
theorem run_registered_no_memory :
    ∃ tr w, Run (step id) Allowed init tr w ∧ tr.length = 2 ∧ ∀ e ∈ tr, Registered e := by
  have hrun : Run (step id) Allowed init _ _ :=
    run_of_runList [.create none true ['a'] 1 [], .create none false ['b'] 1 []] rfl (by
      simp only [List.forall_mem_cons]
      refine ⟨?_, ?_, by simp⟩ <;> simp [Allowed])
  refine ⟨_, _, hrun, rfl, (run_registered_iff (fun _ => rfl) hrun).mpr ?_⟩
  simp only [List.forall_mem_cons]
  exact ⟨fun h => h rfl, fun h => h rfl, by simp⟩

/-- The first thread: it is added to the tree, freed, and not returned. -/
theorem not_registered_first :
    ∃ e, Run (step id) Allowed init [e] e.after ∧
      e.call = .create (some 1) true ['a'] 1 [] ∧ e.after.rb.toList = [1] ∧
      e.after.threads.get 1 = none ∧ ¬ Registered e := by
  refine ⟨_, run_of_runList [.create (some 1) true ['a'] 1 []] rfl (by
    simp only [List.forall_mem_cons]
    exact ⟨fun _ _ => rfl, by simp⟩), rfl, rfl, rfl, ?_⟩
  intro hright
  cases hright.created 1 ['a'] 1 [] rfl

end World

end Kthread

end Kylin
