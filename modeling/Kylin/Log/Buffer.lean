import Kylin.Lib.Run
import Kylin.Math.Ring

/-!
# The log buffers, between a logging thread and the writer

`lib/core/log/kylin_log_buf.c` keeps the messages for each logger in a ring, with a flag
`need_log` that marks the rings with messages.  `buffer_enqueue` puts a message on the ring
and sets the flag; the thread of `__buffer_process` reads the flag, takes a message off and
clears the flag when it finds the ring empty.

Finding the ring empty and clearing the flag are two steps.  If a message and its flag come
between them, the flag is cleared with the message on the ring: the writer does not look at
the ring until the next message, `unwoken_of_flag_before_clear`.  `Orderly` excludes this
one step, and no other run leaves a message behind, `run_wakes`.

The ring is the bounded queue that `Kring.run_refines_queue` shows it to be, `ring_is_queue`.
That is about one thread.  That a call on the ring is one step here is an assumption, as it is that
there is memory for the copy of a message: `Kring.System.unsafe_interleaving` shows what may happen
to calls that come between each other.

## Main definitions

* `System`, `System.advance` — one ring, its flag, the two threads and one atomic step.
* `System.Wakes` — a message on the ring is seen.
* `System.Orderly` — the side condition on one step.

## Main results

* `run_wakes` — runs of orderly steps lose no message.
-/

namespace Kylin.Klog

open Lib

variable {V : Type}

/-- `log_ring_opts.cap`. -/
def ringCap : ℕ := 1024

/-- `kylin_ring_enqueue` of a message. -/
def ringEnqueue (ring : List V) (buf : V) : List V :=
  if ring.length < ringCap - 1 then ring ++ [buf] else ring

/-- `kylin_ring_dequeue`. -/
def ringDequeue (ring : List V) : Option V × List V := (ring.head?, ring.tail)

/-- `kylin_ring_peek`. -/
def ringPeek (ring : List V) : Option V := ring.head?

/-- The pointer to a message that the ring has copied. -/
def pointer (buf : V) : KPtr V := .copy (.obj buf)

/-- The three functions are the calls of the queue that a ring refines. -/
theorem ring_is_queue (ring : List V) (buf : V) :
    (Kring.queue ringCap (ring.map pointer) (.enqueue (pointer buf))).2 =
        (ringEnqueue ring buf).map pointer ∧
      Kring.queue ringCap (ring.map pointer) .dequeue =
        (.ptr (((ringDequeue ring).1.map pointer).getD .null), (ringDequeue ring).2.map pointer) ∧
      Kring.queue ringCap (ring.map pointer) .peek =
        (.ptr (((ringPeek ring).map pointer).getD .null), ring.map pointer) := by
  refine ⟨?_, ?_, ?_⟩
  · rw [Kring.queue, ringEnqueue, List.length_map]
    split <;> simp
  · simp [Kring.queue, ringDequeue]
  · simp [Kring.queue, ringPeek]

/-- Where the logging thread stands. -/
inductive Producer
  | idle
  /-- About to set the flag. -/
  | flag
  deriving DecidableEq

/-- Where the writer stands. -/
inductive Consumer
  /-- About to read the flag. -/
  | top
  | dequeue
  | peek
  /-- About to clear the flag, having found the ring empty. -/
  | clear
  deriving DecidableEq

/-- One ring with its flag, and the two threads. -/
structure System (V : Type) where
  ring : List V
  need : Bool
  producer : Producer
  consumer : Consumer

/-- The atomic steps; `known` says whether `object_find` finds the log object of a message. -/
inductive Act (V : Type)
  | enqueue (buf : V)
  | flag
  | read
  | dequeue (known : Bool)
  | peek
  | clear

namespace System

/-- One atomic step. -/
def advance (s : System V) : Act V → Option (Unit × System V)
  | .enqueue buf =>
      if s.producer = .idle then
        some ((), { s with ring := ringEnqueue s.ring buf, producer := .flag })
      else none
  | .flag =>
      if s.producer = .flag then some ((), { s with need := true, producer := .idle }) else none
  | .read =>
      if s.consumer = .top then
        some ((), { s with consumer := if s.need then .dequeue else .top })
      else none
  | .dequeue known =>
      if s.consumer = .dequeue then
        match ringDequeue s.ring with
        | (none, ring) => some ((), { s with ring := ring, consumer := .clear })
        | (some _, ring) =>
            some ((), { s with ring := ring, consumer := if known then .peek else .top })
      else none
  | .peek =>
      if s.consumer = .peek then
        some ((), { s with consumer := if (ringPeek s.ring).isNone then .clear else .top })
      else none
  | .clear =>
      if s.consumer = .clear then some ((), { s with need := false, consumer := .top }) else none

/-- After `buffer_init`. -/
def init : System V := ⟨[], false, .idle, .top⟩

/-- **No lost wake-up**: when both threads are between their calls, a message on the ring has
its flag. -/
def Wakes (s : System V) : Prop :=
  s.producer = .idle → s.consumer = .top → s.ring ≠ [] → s.need = true

/-- The flag of a message is not set while the writer is about to clear it. -/
def Orderly (s : System V) : Act V → Prop
  | .flag => s.consumer = .clear → s.ring = []
  | .enqueue _ | .read | .dequeue _ | .peek | .clear => True

/-- What holds along runs of orderly steps. -/
structure Inv (s : System V) : Prop where
  flagged : s.producer = .idle → s.consumer ≠ .clear → s.ring ≠ [] → s.need = true
  empty : s.producer = .idle → s.consumer = .clear → s.ring = []

section Steps
variable {s s' : System V} {a : Act V} {u : Unit}

/-- What each step does, and where it is taken. -/
theorem advance_cases (h : s.advance a = some (u, s')) :
    (∃ buf, a = .enqueue buf ∧
        s' = { s with ring := ringEnqueue s.ring buf, producer := .flag }) ∨
      (a = .flag ∧ s' = { s with need := true, producer := .idle }) ∨
      (s.consumer ≠ .clear ∧ ∃ pc, pc ≠ .clear ∧ ∃ n, s' = { s with
        ring := s.ring.drop n, consumer := pc }) ∨
      (s.consumer ≠ .clear ∧ s.ring = [] ∧ s' = { s with consumer := .clear }) ∨
      (s.consumer = .clear ∧ s' = { s with need := false, consumer := .top }) := by
  cases a with
  | enqueue buf =>
      obtain ⟨_, h⟩ := Option.ite_none_right_eq_some.mp h
      exact .inl ⟨buf, rfl, (Prod.mk.inj (Option.some.inj h)).2.symm⟩
  | flag =>
      obtain ⟨_, h⟩ := Option.ite_none_right_eq_some.mp h
      exact .inr (.inl ⟨rfl, (Prod.mk.inj (Option.some.inj h)).2.symm⟩)
  | read =>
      obtain ⟨hpc, h⟩ := Option.ite_none_right_eq_some.mp h
      refine .inr (.inr (.inl ⟨by simp [hpc], _, ?_, 0, (Prod.mk.inj (Option.some.inj h)).2.symm⟩))
      split <;> simp
  | dequeue known =>
      obtain ⟨hpc, h⟩ := Option.ite_none_right_eq_some.mp h
      cases hring : s.ring with
      | nil =>
          rw [ringDequeue, hring] at h
          refine .inr (.inr (.inr (.inl ⟨by simp [hpc], rfl, ?_⟩)))
          rw [← (Prod.mk.inj (Option.some.inj h)).2, ← hring]
          simp [hring]
      | cons buf ring =>
          rw [ringDequeue, hring] at h
          refine .inr (.inr (.inl ⟨by simp [hpc], if known then .peek else .top, ?_, 1, ?_⟩))
          · split <;> simp
          · exact (Prod.mk.inj (Option.some.inj h)).2.symm
  | peek =>
      obtain ⟨hpc, h⟩ := Option.ite_none_right_eq_some.mp h
      have hs' := (Prod.mk.inj (Option.some.inj h)).2
      cases hring : s.ring with
      | nil =>
          refine .inr (.inr (.inr (.inl ⟨by simp [hpc], rfl, ?_⟩)))
          simp [← hs', ringPeek, hring]
      | cons buf ring =>
          refine .inr (.inr (.inl ⟨by simp [hpc], .top, by simp, 0, ?_⟩))
          simp [← hs', ringPeek, hring]
  | clear =>
      obtain ⟨hpc, h⟩ := Option.ite_none_right_eq_some.mp h
      exact .inr (.inr (.inr (.inr ⟨hpc, (Prod.mk.inj (Option.some.inj h)).2.symm⟩)))

/-- An orderly step keeps the invariant. -/
theorem Inv.advance (hI : Inv s) (ho : Orderly s a) (h : s.advance a = some (u, s')) : Inv s' := by
  rcases advance_cases h with ⟨buf, rfl, rfl⟩ | ⟨rfl, rfl⟩ | ⟨hpc, pc, hpc', n, rfl⟩ |
    ⟨_, hring, rfl⟩ | ⟨hpc, rfl⟩
  · exact ⟨nofun, nofun⟩
  · exact ⟨fun _ _ _ => rfl, fun _ hc => ho hc⟩
  · refine ⟨fun hp _ hr => ?_, fun _ hc => absurd hc hpc'⟩
    apply hI.flagged hp hpc
    rintro hnil
    apply hr
    change s.ring.drop n = []
    rw [hnil, List.drop_nil]
  · exact ⟨fun _ hc => absurd rfl hc, fun _ _ => hring⟩
  · refine ⟨fun hp _ hr => ?_, nofun⟩
    exact absurd (hI.empty hp hpc) hr

/-- The step that `Orderly` excludes, and the one after it: the message stays behind. -/
theorem unwoken_of_flag_before_clear (hp : s.producer = .flag) (ho : ¬ Orderly s .flag) :
    ∃ s₁ s₂, s.advance .flag = some ((), s₁) ∧ s₁.advance .clear = some ((), s₂) ∧ ¬ Wakes s₂ := by
  simp only [Orderly, Classical.not_imp] at ho
  obtain ⟨hc, hring⟩ := ho
  refine ⟨_, _, if_pos hp, if_pos hc, ?_⟩
  intro hwakes
  cases hwakes rfl rfl hring

end Steps

/-- **No lost wake-up** along every run of orderly steps; and wherever such a run could take a
step that is not orderly, it can lose a message. -/
theorem run_wakes {tr : List (Step (System V) (Act V) Unit)} {s : System V}
    (h : Run advance Orderly init tr s) :
    Wakes s ∧ ∀ a, (s.advance a).isSome → ¬ Orderly s a →
      ∃ s₁ s₂, s.advance a = some ((), s₁) ∧ s₁.advance .clear = some ((), s₂) ∧ ¬ Wakes s₂ := by
  have hI : Inv s := h.invariant ⟨fun _ _ hr => absurd rfl hr, nofun⟩
    fun s a u s' hI ho hs => hI.advance ho hs
  refine ⟨fun hp hc hr => hI.flagged hp (by simp [hc]) hr, ?_⟩
  intro a hsome hnot
  cases a with
  | flag =>
      obtain ⟨r, hr⟩ := Option.isSome_iff_exists.mp hsome
      exact unwoken_of_flag_before_clear (Option.ite_none_right_eq_some.mp hr).1 hnot
  | enqueue _ | read | dequeue _ | peek | clear => exact absurd trivial hnot

/-- Two messages, the second coming while the first is taken off the ring. -/
theorem run_wakes_two :
    ∃ (tr : List (Step (System ℕ) (Act ℕ) Unit)) (s : System ℕ),
      Run advance Orderly init tr s ∧ s.ring = [2] ∧ s.producer = .idle ∧ s.consumer = .top ∧
        Wakes s := by
  have hrun : Run advance Orderly (init : System ℕ) _ _ :=
    run_of_runList [.enqueue 1, .flag, .read, .enqueue 2, .dequeue true, .flag, .peek] rfl (by
      simp only [List.forall_mem_cons]
      exact ⟨trivial, nofun, trivial, trivial, trivial, nofun, trivial, by simp⟩)
  exact ⟨_, _, hrun, rfl, rfl, rfl, (run_wakes hrun).1⟩

/-- A message and its flag between the writer's look at the ring and its clearing of the
flag. -/
theorem not_wakes_interleaving :
    ∃ (tr : List (Step (System ℕ) (Act ℕ) Unit)) (s : System ℕ),
      Run advance (fun _ _ => True) init tr s ∧ s.ring = [2] ∧ s.need = false ∧
        s.producer = .idle ∧ s.consumer = .top ∧ ¬ Wakes s := by
  refine ⟨_, ⟨[2], false, .idle, .top⟩, run_of_runList [.enqueue 1, .flag, .read, .dequeue true,
    .peek, .enqueue 2, .flag, .clear] rfl (fun _ _ => trivial), rfl, rfl, rfl, rfl, ?_⟩
  intro hwakes
  cases hwakes rfl rfl (by simp)

end System

end Kylin.Klog
