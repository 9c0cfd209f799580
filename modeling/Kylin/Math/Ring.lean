import Kylin.Arch.Word
import Kylin.Lib.Buffer
import Kylin.Lib.Run
import Kylin.Math.Val

/-!
# The ring of values, used by one thread

`kring_t` (`lib/core/math/kylin_ring.c`) keeps its values in an array of `cap`
slots with two indices that advance round it.  A value is written to the slot
after `head` and read from the slot after `tail`, so the ring is empty when the
indices agree, one slot is never used, and `cap - 1` values fit.

Both operations are retry loops around `kylin_atomic32_cmpset`.  With a single
thread the compare-and-set never fails, `enqueueLoop_succ` and `dequeueLoop_succ`,
and the ring is a bounded queue: `Kring.Holds` relates it to the list of its values, and
`run_refines_queue` is the refinement over runs of any length.  Interleaved
threads are the subject of `Kylin.Math.RingThreads`.

## Main definitions

* `Kring`, `Kring.create`, `Kring.enqueue`, `Kring.dequeue`, `Kring.peek` — the ring.
* `Kring.Holds` — the values a ring holds, oldest first.
* `Kring.queue` — the reference machine, a list with a bound on its length.
-/

namespace Kylin

open Lib

/-- The options a ring reads: `kring_opts_t`.  `valCtor` says whether a value
constructor is set. -/
structure KringOpts where
  cap : ℕ
  valType : Kobj
  valCtor : Bool

/-- `kring_t`. -/
structure Kring (V : Type) where
  opts : KringOpts
  mask : ℕ
  head : ℕ
  tail : ℕ
  val : Buffer (KmathVal V)

namespace Kring
variable {V : Type}

/-- `kylin_ring_create`, with the zero-filled memory of `kylin_malloc`. -/
def create (opts : KringOpts) : Kring V where
  opts := opts
  mask := sizeSub opts.cap 1
  head := 0
  tail := 0
  val := ⟨opts.cap, fun _ => .zero⟩

/-- The index after `i`: zero after the last slot.  Indices are `uint32_t`. -/
def nextIndex (mask i : ℕ) : ℕ := if i = mask then 0 else (i + 1) % 2 ^ 32

/-- The loop of `kylin_ring_enqueue`; `none` when it still retries after `fuel`
attempts. -/
def enqueueLoop (buf : KPtr V) : ℕ → Kring V → Option (Kerr × Kring V)
  | 0, _ => none
  | fuel + 1, guard =>
      let head := guard.head
      let tail := guard.tail
      let newHead := nextIndex guard.mask head
      if newHead = tail then some (.nomem, guard)
      else
        match atomic32Cmpset guard.head head newHead with
        | (true, cnt) => do
            let x ← kmathValCtor buf guard.opts.valType guard.opts.valCtor
            let val ← guard.val.store newHead x
            some (.ok, { guard with head := cnt, val := val })
        | (false, _) => enqueueLoop buf fuel guard

/-- The loop of `kylin_ring_dequeue`. -/
def dequeueLoop : ℕ → Kring V → Option (KPtr V × Kring V)
  | 0, _ => none
  | fuel + 1, guard =>
      let tail := guard.tail
      let head := guard.head
      if tail = head then some (.null, guard)
      else
        let newTail := nextIndex guard.mask tail
        match atomic32Cmpset guard.tail tail newTail with
        | (true, cnt) => do
            let x ← guard.val.load newTail
            some (kmathValGet x guard.opts.valType, { guard with tail := cnt })
        | (false, _) => dequeueLoop fuel guard

/-- `kylin_ring_enqueue` run by one thread. -/
def enqueue (guard : Kring V) (buf : KPtr V) : Option (Kerr × Kring V) := enqueueLoop buf 1 guard

/-- `kylin_ring_dequeue` run by one thread. -/
def dequeue (guard : Kring V) : Option (KPtr V × Kring V) := dequeueLoop 1 guard

/-- `kylin_ring_peek`: its loop body always ends in a `break`. -/
def peek (guard : Kring V) : Option (KPtr V) :=
  if guard.tail = guard.head then some .null
  else do
    let x ← guard.val.load (nextIndex guard.mask guard.tail)
    some (kmathValGet x guard.opts.valType)

/-- Without other threads `kylin_ring_enqueue` never retries. -/
theorem enqueueLoop_succ (buf : KPtr V) (fuel : ℕ) (guard : Kring V) :
    enqueueLoop buf (fuel + 1) guard = guard.enqueue buf := by
  simp [enqueue, enqueueLoop, atomic32Cmpset]

/-- Without other threads `kylin_ring_dequeue` never retries. -/
theorem dequeueLoop_succ (fuel : ℕ) (guard : Kring V) :
    dequeueLoop (fuel + 1) guard = guard.dequeue := by
  simp [dequeue, dequeueLoop, atomic32Cmpset]

/-! ## The values of a ring -/

/-- A ring of pointer values that holds `q`, oldest first: the slots after `tail`,
counted round the array, up to `head`. -/
structure Holds (guard : Kring V) (q : List (KPtr V)) : Prop where
  cap_le : guard.opts.cap ≤ 2 ^ 31
  isPointer : guard.opts.valType.IsPointer
  no_ctor : guard.opts.valCtor = false
  mask_eq : guard.mask = guard.opts.cap - 1
  size_eq : guard.val.size = guard.opts.cap
  tail_lt : guard.tail < guard.opts.cap
  length_lt : q.length < guard.opts.cap
  head_eq : guard.head = (guard.tail + q.length) % guard.opts.cap
  slots : circle guard.val.get guard.opts.cap (guard.tail + 1) q.length = q.map KmathVal.v

theorem holds_create {opts : KringOpts} (h1 : 1 ≤ opts.cap) (h2 : opts.cap ≤ 2 ^ 31)
    (htype : opts.valType.IsPointer) (hctor : opts.valCtor = false) :
    Holds (create opts : Kring V) [] where
  cap_le := h2
  isPointer := htype
  no_ctor := hctor
  mask_eq := sizeSub_of_le h1 (by show opts.cap < 2 ^ 64; omega)
  size_eq := rfl
  tail_lt := h1
  length_lt := h1
  head_eq := by simp [create]
  slots := rfl

namespace Holds
variable {guard : Kring V} {q : List (KPtr V)}

theorem head_lt (H : Holds guard q) : guard.head < guard.opts.cap := by
  rw [H.head_eq]
  exact Nat.mod_lt _ (by have := H.length_lt; omega)

/-- Advancing an index of the ring is adding one modulo the capacity. -/
theorem nextIndex_eq (H : Holds guard q) {i : ℕ} (hi : i < guard.opts.cap) :
    nextIndex guard.mask i = (i + 1) % guard.opts.cap := by
  have hcap := H.cap_le
  rw [nextIndex, H.mask_eq]
  split
  case isTrue h =>
    rw [h, Nat.sub_add_cancel (by omega), Nat.mod_self]
  case isFalse h =>
    rw [Nat.mod_eq_of_lt (by omega : i + 1 < 2 ^ 32), Nat.mod_eq_of_lt (by omega)]

/-- The index a value is written to. -/
theorem newHead_eq (H : Holds guard q) :
    nextIndex guard.mask guard.head = (guard.tail + 1 + q.length) % guard.opts.cap := by
  rw [H.nextIndex_eq H.head_lt, H.head_eq, Nat.mod_add_mod]
  congr 1
  omega

/-- The ring refuses a value exactly when `cap - 1` are stored. -/
theorem full_iff (H : Holds guard q) :
    nextIndex guard.mask guard.head = guard.tail ↔ q.length = guard.opts.cap - 1 := by
  have hq := H.length_lt
  have ht := H.tail_lt
  rw [H.newHead_eq]
  constructor
  · intro h
    by_contra hne
    refine add_mod_ne (o := guard.tail) (i := 0) (j := 1 + q.length) (N := guard.opts.cap)
      (by omega) (by omega) ?_
    rw [← Nat.add_assoc, h, Nat.add_zero, Nat.mod_eq_of_lt ht]
  · intro h
    rw [show guard.tail + 1 + q.length = guard.tail + guard.opts.cap by omega,
      Nat.add_mod_right, Nat.mod_eq_of_lt ht]

/-- The indices agree exactly when nothing is stored. -/
theorem empty_iff (H : Holds guard q) : guard.tail = guard.head ↔ q = [] := by
  have hq := H.length_lt
  have ht := H.tail_lt
  rw [H.head_eq]
  constructor
  · intro h
    by_contra hne
    have hpos : 0 < q.length := List.length_pos_iff.mpr hne
    refine add_mod_ne (o := guard.tail) (i := 0) (j := q.length) (N := guard.opts.cap)
      hpos (by omega) ?_
    rw [Nat.add_zero, Nat.mod_eq_of_lt ht, ← h]
  · rintro rfl
    rw [List.length_nil, Nat.add_zero, Nat.mod_eq_of_lt ht]

/-- **Enqueueing** appends the value unless the ring is full, and otherwise changes
nothing. -/
theorem enqueue_spec (H : Holds guard q) (p : KPtr V) :
    ∃ g', guard.enqueue p = some (if q.length < guard.opts.cap - 1 then .ok else .nomem, g') ∧
      g'.opts = guard.opts ∧
      (if q.length < guard.opts.cap - 1 then Holds g' (q ++ [p]) else g' = guard) := by
  have hq := H.length_lt
  by_cases hfull : nextIndex guard.mask guard.head = guard.tail
  · have hlen := H.full_iff.mp hfull
    have hn : ¬ q.length < guard.opts.cap - 1 := by omega
    exact ⟨guard, by simp [enqueue, enqueueLoop, hfull, hn], rfl, by simp [hn]⟩
  · have hlt : q.length < guard.opts.cap - 1 := by
      have := mt H.full_iff.mpr hfull
      omega
    have hslot : nextIndex guard.mask guard.head < guard.val.size := by
      rw [H.newHead_eq, H.size_eq]
      exact Nat.mod_lt _ (by omega)
    have hctor : kmathValCtor p guard.opts.valType guard.opts.valCtor = some (.v p) := by
      rw [H.no_ctor, kmathValCtor_no_ctor H.isPointer]
    refine ⟨{ guard with head := nextIndex guard.mask guard.head, val := { guard.val with
      get := Function.update guard.val.get (nextIndex guard.mask guard.head) (.v p) } },
      ?_, rfl, ?_⟩
    · simp [enqueue, enqueueLoop, hfull, atomic32Cmpset, hctor, Buffer.store_of_lt hslot, hlt]
    · rw [if_pos hlt]
      refine ⟨H.cap_le, H.isPointer, H.no_ctor, H.mask_eq, H.size_eq, H.tail_lt, ?_, ?_, ?_⟩
      · simp only [List.length_append, List.length_singleton]
        omega
      · simp only [List.length_append, List.length_singleton, H.newHead_eq]
        congr 1
        omega
      · -- the new slot is the one after the view, and no slot of the view
        have hview := circle_overwrite guard.val.get
          (Function.update guard.val.get (nextIndex guard.mask guard.head) (.v p))
          guard.opts.cap (guard.tail + 1) q.length [KmathVal.v p]
          (by
            intro i hi
            rw [H.newHead_eq, Function.update_of_ne]
            exact add_mod_ne hi (by omega))
          (by
            intro j hj
            obtain rfl : j = 0 := by simpa using hj
            rw [Nat.add_zero, ← H.newHead_eq]
            simp)
        simpa [H.slots] using hview

/-- The slot `kylin_ring_dequeue` and `kylin_ring_peek` read. -/
theorem load_newTail {p : KPtr V} (H : Holds guard (p :: q)) :
    guard.val.load (nextIndex guard.mask guard.tail) = some (.v p) := by
  have hlt : nextIndex guard.mask guard.tail < guard.val.size := by
    rw [H.nextIndex_eq H.tail_lt, H.size_eq]
    exact Nat.mod_lt _ (by have := H.tail_lt; omega)
  rw [Buffer.load_of_lt hlt, H.nextIndex_eq H.tail_lt]
  have hslots := H.slots
  rw [List.length_cons, circle_succ, List.map_cons] at hslots
  rw [(List.cons.inj hslots).1]

/-- **Dequeueing** a non-empty ring returns its oldest value and removes it. -/
theorem dequeue_cons {p : KPtr V} (H : Holds guard (p :: q)) :
    guard.dequeue = some (p, { guard with tail := nextIndex guard.mask guard.tail }) ∧
      Holds { guard with tail := nextIndex guard.mask guard.tail } q := by
  have hne : guard.tail ≠ guard.head := by
    rw [Ne, H.empty_iff]
    exact List.cons_ne_nil p q
  have hcap : 0 < guard.opts.cap := by have := H.tail_lt; omega
  refine ⟨?_, H.cap_le, H.isPointer, H.no_ctor, H.mask_eq, H.size_eq, ?_, ?_, ?_, ?_⟩
  · simp [dequeue, dequeueLoop, hne, atomic32Cmpset, H.load_newTail,
      kmathValGet_of_isPointer H.isPointer]
  · show nextIndex guard.mask guard.tail < _
    rw [H.nextIndex_eq H.tail_lt]
    exact Nat.mod_lt _ hcap
  · have := H.length_lt
    simp only [List.length_cons] at this
    change q.length < guard.opts.cap
    omega
  · show guard.head = (nextIndex guard.mask guard.tail + q.length) % guard.opts.cap
    rw [H.nextIndex_eq H.tail_lt, Nat.mod_add_mod, H.head_eq, List.length_cons]
    congr 1
    omega
  · show circle guard.val.get guard.opts.cap (nextIndex guard.mask guard.tail + 1) q.length = _
    have hslots := H.slots
    rw [List.length_cons, circle_succ, List.map_cons] at hslots
    rw [H.nextIndex_eq H.tail_lt, ← circle_mod, Nat.mod_add_mod, circle_mod]
    exact (List.cons.inj hslots).2

theorem dequeue_nil (H : Holds guard []) : guard.dequeue = some (.null, guard) := by
  simp [dequeue, dequeueLoop, H.empty_iff.mpr rfl]

theorem peek_eq (H : Holds guard q) : guard.peek = some (q.head?.getD .null) := by
  cases q with
  | nil => simp [peek, H.empty_iff.mpr rfl]
  | cons p q =>
      have hne : guard.tail ≠ guard.head := by
        rw [Ne, H.empty_iff]
        exact List.cons_ne_nil p q
      simp [peek, hne, H.load_newTail, kmathValGet_of_isPointer H.isPointer]

end Holds

/-! ## Runs -/

/-- The calls of one thread. -/
inductive Call (V : Type)
  | enqueue (buf : KPtr V)
  | dequeue
  | peek

/-- What a call returns: an error code or a pointer. -/
inductive Result (V : Type)
  | err (ret : Kerr)
  | ptr (buf : KPtr V)

/-- One call on a ring. -/
def step (guard : Kring V) : Call V → Option (Result V × Kring V)
  | .enqueue buf => (guard.enqueue buf).map fun (ret, g) => (.err ret, g)
  | .dequeue => (guard.dequeue).map fun (buf, g) => (.ptr buf, g)
  | .peek => guard.peek.map fun buf => (.ptr buf, guard)

/-- The reference machine: a list that takes values while it holds fewer than
`cap - 1`. -/
def queue (cap : ℕ) (q : List (KPtr V)) : Call V → Result V × List (KPtr V)
  | .enqueue buf => if q.length < cap - 1 then (.err .ok, q ++ [buf]) else (.err .nomem, q)
  | .dequeue => (.ptr (q.head?.getD .null), q.tail)
  | .peek => (.ptr (q.head?.getD .null), q)

/-- Callers pass non-`NULL` values. -/
def NonNull (_ : Kring V) : Call V → Prop
  | .enqueue buf => buf ≠ .null
  | .dequeue | .peek => True

/-- One call of the ring is one call of the queue, and a refused value or a peek
leaves the ring as it was. -/
theorem step_simulates {guard : Kring V} {q : List (KPtr V)} (H : Holds guard q) (a : Call V) :
    ∃ g', step guard a = some ((queue guard.opts.cap q a).1, g') ∧ g'.opts = guard.opts ∧
      Holds g' (queue guard.opts.cap q a).2 ∧
      ((queue guard.opts.cap q a).1 = .err .nomem ∨ a = .peek → g' = guard) := by
  cases a with
  | enqueue buf =>
      obtain ⟨g', he, ho, hg⟩ := H.enqueue_spec buf
      refine ⟨g', ?_, ho, ?_, ?_⟩
      · rw [step, he, queue]
        split <;> rfl
      · rw [queue]
        split
        case isTrue h => simpa [h] using hg
        case isFalse h => rw [if_neg h] at hg; rw [hg]; exact H
      · rw [queue]
        split
        case isTrue h => simp
        case isFalse h => intro _; simpa [h] using hg
  | dequeue =>
      cases q with
      | nil => exact ⟨guard, by simp [step, queue, H.dequeue_nil], rfl, H, fun _ => rfl⟩
      | cons p q =>
          obtain ⟨he, hg⟩ := H.dequeue_cons
          refine ⟨{ guard with tail := nextIndex guard.mask guard.tail }, ?_, rfl, hg, ?_⟩
          · simp [step, queue, he]
          · rintro (h | h) <;> cases h
  | peek => exact ⟨guard, by simp [step, queue, H.peek_eq], rfl, H, fun _ => rfl⟩

/-- No `NULL` gets into the queue, so `kylin_ring_dequeue` returns `NULL` for an
empty ring only. -/
theorem null_notMem_queue {guard : Kring V} {cap : ℕ} {q : List (KPtr V)} {a : Call V}
    (ha : NonNull guard a) (hq : KPtr.null ∉ q) : KPtr.null ∉ (queue cap q a).2 := by
  cases a with
  | enqueue buf =>
      rw [queue]
      split
      · simp only [List.mem_append, List.mem_singleton, not_or]
        exact ⟨hq, fun h => ha h.symm⟩
      · exact hq
  | dequeue => exact fun h => hq (List.mem_of_mem_tail h)
  | peek => exact hq

/-- What every run of the ring maintains, with the queue it stands for. -/
private theorem run_holds {opts : KringOpts} (h1 : 1 ≤ opts.cap) (h2 : opts.cap ≤ 2 ^ 31)
    (htype : opts.valType.IsPointer) (hctor : opts.valCtor = false)
    {tr : List (Step (Kring V) (Call V) (Result V))} {guard : Kring V}
    (h : Run step NonNull (create opts) tr guard) :
    ∃ q, specRun (queue opts.cap) [] (tr.map Step.call) = (tr.map Step.result, q) ∧
      guard.opts = opts ∧ KPtr.null ∉ q ∧ Holds guard q := by
  refine h.simulates (R := fun g q => g.opts = opts ∧ KPtr.null ∉ q ∧ Holds g q)
    ⟨rfl, List.not_mem_nil, holds_create h1 h2 htype hctor⟩ ?_
  rintro g a r g' q ⟨ho, hnull, H⟩ hok hs
  obtain ⟨g'', hs', ho', H', -⟩ := step_simulates H a
  rw [hs'] at hs
  simp only [Option.some.injEq, Prod.mk.injEq] at hs
  obtain ⟨rfl, rfl⟩ := hs
  rw [ho] at H' ho' ⊢
  exact ⟨rfl, ho', null_notMem_queue hok hnull, H'⟩

/-- **A ring used by one thread is a bounded queue.**  For every capacity and every
run from `kylin_ring_create`: the results are those of the queue, the indices stay
inside the array, a refused value or a peek changes nothing, and every call
returns. -/
theorem run_refines_queue {opts : KringOpts} (h1 : 1 ≤ opts.cap) (h2 : opts.cap ≤ 2 ^ 31)
    (htype : opts.valType.IsPointer) (hctor : opts.valCtor = false)
    {tr : List (Step (Kring V) (Call V) (Result V))} {guard : Kring V}
    (h : Run step NonNull (create opts) tr guard) :
    (∃ q, specRun (queue opts.cap) [] (tr.map Step.call) = (tr.map Step.result, q) ∧
        KPtr.null ∉ q) ∧
      guard.head < opts.cap ∧ guard.tail < opts.cap ∧
      (∀ e ∈ tr, e.result = .err .nomem ∨ e.call = .peek → e.after = e.before) ∧
      ∀ a, NonNull guard a → (step guard a).isSome := by
  obtain ⟨q, hrun, ho, hnull, H⟩ := run_holds h1 h2 htype hctor h
  refine ⟨⟨q, hrun, hnull⟩, ho ▸ H.head_lt, ho ▸ H.tail_lt, ?_, ?_⟩
  · refine h.forall_mem ?_
    intro tr g a r g' hr _ hs
    obtain ⟨q, -, -, -, H⟩ := run_holds h1 h2 htype hctor hr
    obtain ⟨g'', hs', -, -, hkeep⟩ := step_simulates H a
    rw [hs'] at hs
    obtain ⟨rfl, rfl⟩ := Prod.mk.inj (Option.some.inj hs)
    exact hkeep
  · intro a _
    obtain ⟨g', hs, -⟩ := step_simulates H a
    simp [hs]

/-- A ring of two slots: the second value is refused, the first comes back. -/
theorem run_refines_queue_two :
    ∃ q, specRun (queue 2) []
        [.enqueue (.user (.obj 7)), .enqueue (.user (.obj 8)), .peek, .dequeue, .dequeue] =
      ([.err .ok, .err .nomem, .ptr (.user (.obj 7)), .ptr (.user (.obj 7)), .ptr .null], q) ∧
      KPtr.null ∉ q := by
  have hrun : Run step NonNull (create ⟨2, .others, false⟩ : Kring ℕ) _ _ :=
    run_of_runList [.enqueue (.user (.obj 7)), .enqueue (.user (.obj 8)), .peek, .dequeue,
      .dequeue] rfl (by simp [NonNull])
  exact (run_refines_queue (by decide) (by decide) (by decide) rfl hrun).1

end Kring

end Kylin
