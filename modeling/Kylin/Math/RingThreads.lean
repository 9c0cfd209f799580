import Kylin.Math.Ring

/-!
# The ring of values, shared by threads

`kylin_ring_enqueue` and `kylin_ring_dequeue` are written for concurrent use: each
loads both indices, reserves a slot with `kylin_atomic32_cmpset` on one of them and
then stores or loads the slot.  This module runs any number of threads through
these atomic steps in any order, over a sequentially consistent memory.

The index is published before the slot is written, and indices come back after
one revolution.  So a dequeue may load a slot before the matching enqueue has
stored it, `unsafe_interleaving`, and a reservation may succeed on an index that
has gone all the way round.  `Orderly` excludes exactly the steps that do this,
and `run_safe` shows that nothing else goes wrong: along runs of orderly steps no value is
read early, returned twice or overwritten.

History variables number the reservations: enqueue `i` is the `i`-th successful
compare-and-set on `head`, and it is matched with dequeue `i`.

## Main definitions

* `Pc`, `System`, `System.advance` — threads, the shared ring and one atomic step.
* `System.Safe` — the guarantee of the ring.
* `System.Orderly` — the side condition on one step.
* `System.Inv` — the invariant behind `run_safe`.
-/

namespace Kylin.Kring

open Lib

variable {ι V : Type} [DecidableEq ι]

/-- Where a thread stands in the call it makes. -/
inductive Pc (V : Type)
  | idle
  /-- Enqueue, about to load `head`. -/
  | enqHead (buf : KPtr V)
  /-- Enqueue, about to load `tail` and compare. -/
  | enqTail (buf : KPtr V) (head : ℕ)
  /-- Enqueue, about to reserve the slot after `head`. -/
  | enqCas (buf : KPtr V) (head : ℕ)
  /-- Enqueue number `seq`, about to store its slot. -/
  | enqStore (buf : KPtr V) (slot seq : ℕ)
  /-- Dequeue, about to load `tail`. -/
  | deqTail
  /-- Dequeue, about to load `head` and compare. -/
  | deqHead (tail : ℕ)
  /-- Dequeue, about to reserve the slot after `tail`. -/
  | deqCas (tail : ℕ)
  /-- Dequeue number `seq`, about to load its slot. -/
  | deqLoad (slot seq : ℕ)

/-- The slot and number a thread has reserved for an enqueue and not stored. -/
def Pc.storing : Pc V → Option (ℕ × ℕ)
  | .enqStore _ slot seq => some (slot, seq)
  | _ => none

/-- The slot and number a thread has reserved for a dequeue and not loaded. -/
def Pc.loading : Pc V → Option (ℕ × ℕ)
  | .deqLoad slot seq => some (slot, seq)
  | _ => none

/-- A finished dequeue: its number, what it returned, the number of the enqueue
that wrote it, and whether the matching enqueue had stored its value by then. -/
structure Load (V : Type) where
  seq : ℕ
  buf : KPtr V
  writer : Option ℕ
  ready : Bool

/-- The shared ring, the threads, and the history of the run. -/
structure System (ι V : Type) where
  ring : Kring V
  pc : ι → Pc V
  /-- Reservations made by enqueues and by dequeues. -/
  enqs : ℕ
  deqs : ℕ
  /-- The enqueue whose value a slot holds. -/
  writer : ℕ → Option ℕ
  /-- Enqueues that stored their value and returned `KYLIN_ERROR_OK`. -/
  stored : List ℕ
  loads : List (Load V)
  /-- Values overwritten before they were dequeued. -/
  lost : List ℕ

/-- What the scheduler can do with a thread. -/
inductive Act (V : Type)
  | enqueue (buf : KPtr V)
  | dequeue
  | step

namespace System

/-- A fresh ring and idle threads. -/
def init (opts : KringOpts) : System ι V where
  ring := create opts
  pc := fun _ => .idle
  enqs := 0
  deqs := 0
  writer := fun _ => none
  stored := []
  loads := []
  lost := []

/-- Move a thread to a program point. -/
def goto (s : System ι V) (t : ι) (pc : Pc V) : System ι V :=
  { s with pc := Function.update s.pc t pc }

/-- The enqueues whose values have been returned. -/
def returned (s : System ι V) : List ℕ := s.loads.filterMap Load.writer

/-- A successful compare-and-set on `head`: thread `t` owns the slot `newHead`. -/
def reserveHead (s : System ι V) (t : ι) (buf : KPtr V) (newHead : ℕ) : System ι V :=
  { s with
    ring := { s.ring with head := newHead }
    enqs := s.enqs + 1
    pc := Function.update s.pc t (.enqStore buf newHead (s.enqs + 1)) }

/-- A successful compare-and-set on `tail`. -/
def reserveTail (s : System ι V) (t : ι) (newTail : ℕ) : System ι V :=
  { s with
    ring := { s.ring with tail := newTail }
    deqs := s.deqs + 1
    pc := Function.update s.pc t (.deqLoad newTail (s.deqs + 1)) }

/-- Enqueue `seq` has written its slot, `val` being the array after it, and returns. -/
def storeSlot (s : System ι V) (t : ι) (slot seq : ℕ) (val : Buffer (KmathVal V)) : System ι V :=
  { s with
    ring := { s.ring with val := val }
    pc := Function.update s.pc t .idle
    writer := Function.update s.writer slot (some seq)
    stored := seq :: s.stored
    lost := match s.writer slot with
      | some w => if w ∈ s.returned then s.lost else w :: s.lost
      | none => s.lost }

/-- Dequeue `seq` has read `buf` from its slot and returns it. -/
def loadSlot (s : System ι V) (t : ι) (slot seq : ℕ) (buf : KPtr V) : System ι V :=
  { s with
    pc := Function.update s.pc t .idle
    loads := ⟨seq, buf, s.writer slot, decide (seq ∈ s.stored)⟩ :: s.loads }

/-- The next atomic step of thread `t`, with the result of its call if that ends. -/
def advance (s : System ι V) (t : ι) : Option (Option (Result V) × System ι V) :=
  match s.pc t with
  | .idle => none
  | .enqHead buf => some (none, s.goto t (.enqTail buf s.ring.head))
  | .enqTail buf head =>
      if nextIndex s.ring.mask head = s.ring.tail then
        some (some (.err .nomem), s.goto t .idle)
      else some (none, s.goto t (.enqCas buf head))
  | .enqCas buf head =>
      match atomic32Cmpset s.ring.head head (nextIndex s.ring.mask head) with
      | (true, newHead) => some (none, s.reserveHead t buf newHead)
      | (false, _) => some (none, s.goto t (.enqHead buf))
  | .enqStore buf slot seq => do
      let x ← kmathValCtor buf s.ring.opts.valType s.ring.opts.valCtor
      let val ← s.ring.val.store slot x
      some (some (.err .ok), s.storeSlot t slot seq val)
  | .deqTail => some (none, s.goto t (.deqHead s.ring.tail))
  | .deqHead tail =>
      if tail = s.ring.head then some (some (.ptr .null), s.goto t .idle)
      else some (none, s.goto t (.deqCas tail))
  | .deqCas tail =>
      match atomic32Cmpset s.ring.tail tail (nextIndex s.ring.mask tail) with
      | (true, newTail) => some (none, s.reserveTail t newTail)
      | (false, _) => some (none, s.goto t .deqTail)
  | .deqLoad slot seq => do
      let x ← s.ring.val.load slot
      let buf := kmathValGet x s.ring.opts.valType
      some (some (.ptr buf), s.loadSlot t slot seq buf)

/-- The system: an idle thread may start a call, a busy one takes its next step. -/
def step (s : System ι V) : ι × Act V → Option (Option (Result V) × System ι V)
  | (t, .enqueue buf) =>
      match s.pc t with
      | .idle => some (none, s.goto t (.enqHead buf))
      | _ => none
  | (t, .dequeue) =>
      match s.pc t with
      | .idle => some (none, s.goto t .deqTail)
      | _ => none
  | (t, .step) => s.advance t

/-- **What a ring promises its users**: no dequeue has returned a slot before the
matching enqueue stored it, no enqueued value has been returned twice, and no
value whose enqueue succeeded has been overwritten before it was dequeued. -/
structure Safe (s : System ι V) : Prop where
  ready : ∀ l ∈ s.loads, l.ready = true
  once : s.returned.Nodup
  kept : s.lost = []

/-- The steps that use the ring in order: a reservation is made only while the ring
is really not full, respectively not empty; a slot is stored only when no earlier
dequeue has still to load it; and it is loaded only when the matching enqueue has
stored it. -/
def Orderly (s : System ι V) : ι × Act V → Prop
  | (t, .step) =>
      match s.pc t with
      | .enqCas _ head => s.ring.head = head → nextIndex s.ring.mask head ≠ s.ring.tail
      | .deqCas tail => s.ring.tail = tail → tail ≠ s.ring.head
      | .enqStore _ slot seq => ∀ t' seq', s.pc t' = .deqLoad slot seq' → seq ≤ seq'
      | .deqLoad _ seq => ∀ t' buf slot', s.pc t' ≠ .enqStore buf slot' seq
      | _ => True
  | _ => True

/-! ## Reservations -/

/-- What thread `t` has reserved and not stored. -/
def storing (s : System ι V) (t : ι) : Option (ℕ × ℕ) := (s.pc t).storing

/-- What thread `t` has reserved and not loaded. -/
def loading (s : System ι V) (t : ι) : Option (ℕ × ℕ) := (s.pc t).loading

/-- The numbers of the finished dequeues. -/
def loaded (s : System ι V) : List ℕ := s.loads.map Load.seq

/-- The invariant of orderly runs on a ring of `N` slots.  Reservation `i` uses
slot `i % N`; at any time at most `N - 1` enqueues are ahead of the dequeues; and
a stored value that is not loaded yet is still in its slot. -/
structure Inv (N : ℕ) (s : System ι V) : Prop where
  next : ∀ x, nextIndex s.ring.mask (x % N) = (x + 1) % N
  head_eq : s.ring.head = s.enqs % N
  tail_eq : s.ring.tail = s.deqs % N
  deqs_le : s.deqs ≤ s.enqs
  enqs_lt : s.enqs < s.deqs + N
  storing_spec : ∀ t slot i, s.storing t = some (slot, i) →
    0 < i ∧ i ≤ s.enqs ∧ slot = i % N ∧ i ∉ s.stored
  storing_inj : ∀ t t' slot slot' i, s.storing t = some (slot, i) →
    s.storing t' = some (slot', i) → t = t'
  stored_or : ∀ i, 0 < i → i ≤ s.enqs → i ∈ s.stored ∨ ∃ t slot, s.storing t = some (slot, i)
  loading_spec : ∀ t slot j, s.loading t = some (slot, j) →
    0 < j ∧ j ≤ s.deqs ∧ slot = j % N ∧ j ∉ s.loaded
  loading_inj : ∀ t t' slot slot' j, s.loading t = some (slot, j) →
    s.loading t' = some (slot', j) → t = t'
  loaded_or : ∀ j, 0 < j → j ≤ s.deqs → j ∈ s.loaded ∨ ∃ t slot, s.loading t = some (slot, j)
  stored_spec : ∀ i ∈ s.stored, 0 < i ∧ i ≤ s.enqs ∧ (N < i → i - N ∈ s.loaded)
  loaded_spec : ∀ j ∈ s.loaded, j ∈ s.stored ∧ j ≤ s.deqs
  in_slot : ∀ i ∈ s.stored, i ∉ s.loaded → s.writer (i % N) = some i
  writer_spec : ∀ x w, s.writer x = some w → w ∈ s.stored ∧ w % N = x
  loads_spec : ∀ l ∈ s.loads, l.ready = true ∧ l.writer = some l.seq
  loaded_nodup : s.loaded.Nodup
  lost_eq : s.lost = []

/-- Operations with the numbers up to `n`: each is done, or under way in one thread on the
slot of its number. -/
structure Tickets (N n : ℕ) (done : List ℕ) (pending : ι → Option (ℕ × ℕ)) : Prop where
  spec : ∀ t slot i, pending t = some (slot, i) → 0 < i ∧ i ≤ n ∧ slot = i % N ∧ i ∉ done
  inj : ∀ t t' slot slot' i, pending t = some (slot, i) → pending t' = some (slot', i) → t = t'
  done_or : ∀ i, 0 < i → i ≤ n → i ∈ done ∨ ∃ t slot, pending t = some (slot, i)

namespace Tickets
variable {N n i slot : ℕ} {done : List ℕ} {f f' : ι → Option (ℕ × ℕ)} {t : ι}

/-- The next operation starts, in a thread that has none under way. -/
theorem start (h : Tickets N n done f) (hdone : ∀ i ∈ done, i ≤ n) (ht : f t = none)
    (hslot : slot = (n + 1) % N)
    (hf : ∀ t', f' t' = if t' = t then some (slot, n + 1) else f t') :
    Tickets N (n + 1) done f' := by
  have hold : ∀ {t' slot i}, f t' = some (slot, i) → i ≠ n + 1 := by
    intro t' slot i hi
    have := (h.spec _ _ _ hi).2.1
    omega
  constructor
  case spec =>
    intro t' slot' i hi
    rw [hf] at hi
    split at hi
    · simp only [Option.some.injEq, Prod.mk.injEq] at hi
      obtain ⟨rfl, rfl⟩ := hi
      refine ⟨Nat.succ_pos _, le_rfl, hslot, fun hmem => ?_⟩
      exact absurd (hdone _ hmem) (Nat.not_succ_le_self n)
    · obtain ⟨h1, h2, h3⟩ := h.spec _ _ _ hi
      exact ⟨h1, Nat.le_succ_of_le h2, h3⟩
  case inj =>
    intro t₁ t₂ slot₁ slot₂ i h₁ h₂
    rw [hf] at h₁ h₂
    split at h₁ <;> split at h₂
    case isTrue.isTrue ht₁ ht₂ => rw [ht₁, ht₂]
    case isTrue.isFalse => cases h₁; exact absurd rfl (hold h₂)
    case isFalse.isTrue => cases h₂; exact absurd rfl (hold h₁)
    case isFalse.isFalse => exact h.inj _ _ _ _ _ h₁ h₂
  case done_or =>
    intro i hi hile
    rcases Nat.lt_or_eq_of_le hile with hlt | rfl
    · rcases h.done_or i hi (Nat.le_of_lt_succ hlt) with hmem | ⟨t', slot', ht'⟩
      · exact .inl hmem
      · have hne : t' ≠ t := fun heq => by
          rw [heq, ht] at ht'
          cases ht'
        exact .inr ⟨t', slot', by rw [hf, if_neg hne, ht']⟩
    · exact .inr ⟨t, slot, by rw [hf, if_pos rfl]⟩

/-- An operation ends. -/
theorem finish (h : Tickets N n done f) (ht : f t = some (slot, i))
    (hf : ∀ t', f' t' = if t' = t then none else f t') : Tickets N n (i :: done) f' := by
  have hold : ∀ {t' slot' k}, f' t' = some (slot', k) → f t' = some (slot', k) ∧ t' ≠ t := by
    intro t' slot' k hk
    rw [hf] at hk
    split at hk
    case isTrue => cases hk
    case isFalse hne => exact ⟨hk, hne⟩
  constructor
  case spec =>
    intro t' slot' k hk
    obtain ⟨hk, hne⟩ := hold hk
    obtain ⟨h1, h2, h3, h4⟩ := h.spec _ _ _ hk
    refine ⟨h1, h2, h3, fun hmem => ?_⟩
    rcases List.mem_cons.mp hmem with rfl | hmem
    · exact hne (h.inj _ _ _ _ _ hk ht)
    · exact h4 hmem
  case inj =>
    intro t₁ t₂ slot₁ slot₂ k h₁ h₂
    exact h.inj _ _ _ _ _ (hold h₁).1 (hold h₂).1
  case done_or =>
    intro k hk hkle
    rcases h.done_or k hk hkle with hmem | ⟨t', slot', ht'⟩
    · exact .inl (List.mem_cons_of_mem _ hmem)
    · by_cases heq : t' = t
      · rw [heq, ht] at ht'
        cases ht'
        exact .inl List.mem_cons_self
      · exact .inr ⟨t', slot', by rw [hf, if_neg heq, ht']⟩

end Tickets

section Update
variable {s s' : System ι V} {t : ι} {pc : Pc V}

theorem storing_of_update (h : s'.pc = Function.update s.pc t pc) (t' : ι) :
    s'.storing t' = if t' = t then pc.storing else s.storing t' := by
  rw [storing, h, Function.update_apply]
  split <;> rfl

theorem loading_of_update (h : s'.pc = Function.update s.pc t pc) (t' : ι) :
    s'.loading t' = if t' = t then pc.loading else s.loading t' := by
  rw [loading, h, Function.update_apply]
  split <;> rfl

theorem storing_of_quiet (h : s'.pc = Function.update s.pc t pc) (h1 : s.storing t = none)
    (h2 : pc.storing = none) : s'.storing = s.storing := by
  funext t'
  rw [storing_of_update h]
  split
  case isTrue ht => rw [ht, h1, h2]
  case isFalse => rfl

theorem loading_of_quiet (h : s'.pc = Function.update s.pc t pc) (h1 : s.loading t = none)
    (h2 : pc.loading = none) : s'.loading = s.loading := by
  funext t'
  rw [loading_of_update h]
  split
  case isTrue ht => rw [ht, h1, h2]
  case isFalse => rfl

end Update

namespace Inv
variable {N : ℕ} {s : System ι V} {t : ι}

omit [DecidableEq ι] in
theorem enqueues (h : Inv N s) : Tickets N s.enqs s.stored s.storing :=
  ⟨h.storing_spec, h.storing_inj, h.stored_or⟩

omit [DecidableEq ι] in
theorem dequeues (h : Inv N s) : Tickets N s.deqs s.loaded s.loading :=
  ⟨h.loading_spec, h.loading_inj, h.loaded_or⟩

/-- Loading an index, failing a reservation and leaving without one change nothing
the invariant speaks about. -/
theorem goto_quiet (h : Inv N s) {pc : Pc V} (hs : s.storing t = none) (hl : s.loading t = none)
    (hs' : pc.storing = none) (hl' : pc.loading = none) : Inv N (s.goto t pc) := by
  have es : (s.goto t pc).storing = s.storing := storing_of_quiet rfl hs hs'
  have el : (s.goto t pc).loading = s.loading := loading_of_quiet rfl hl hl'
  exact { h with
    storing_spec := by rw [es]; exact h.storing_spec
    storing_inj := by rw [es]; exact h.storing_inj
    stored_or := by rw [es]; exact h.stored_or
    loading_spec := by rw [el]; exact h.loading_spec
    loading_inj := by rw [el]; exact h.loading_inj
    loaded_or := by rw [el]; exact h.loaded_or }

omit [DecidableEq ι] in
/-- Every returned value was written by the enqueue its dequeue is matched with. -/
theorem returned_eq (h : Inv N s) : s.returned = s.loaded := by
  have hl := h.loads_spec
  unfold returned loaded
  generalize s.loads = l at hl
  induction l with
  | nil => rfl
  | cons a l ih =>
      rw [List.filterMap_cons_some (hl a (by simp)).2, List.map_cons,
        ih fun x hx => hl x (by simp [hx])]

omit [DecidableEq ι] in
theorem safe (h : Inv N s) : s.Safe where
  ready := fun l hl => (h.loads_spec l hl).1
  once := h.returned_eq ▸ h.loaded_nodup
  kept := h.lost_eq

omit [DecidableEq ι] in
/-- Along one slot, a stored value implies that all earlier ones were stored. -/
theorem stored_of_stored_add (h : Inv N s) {i : ℕ} (hi : 0 < i) :
    ∀ k, i + k * N ∈ s.stored → i ∈ s.stored := by
  intro k
  induction k with
  | zero => simp
  | succ k ih =>
      intro hk
      have hstep : i + (k + 1) * N - N = i + k * N := by
        rw [Nat.succ_mul]
        omega
      have hlt : N < i + (k + 1) * N := by
        rw [Nat.succ_mul]
        omega
      have hmem := (h.stored_spec _ hk).2.2 hlt
      rw [hstep] at hmem
      exact ih (h.loaded_spec _ hmem).1

omit [DecidableEq ι] in
/-- A slot about to be stored in order holds no value that is still wanted: any
other stored value of that slot has been loaded. -/
theorem loaded_of_same_slot (h : Inv N s) {slot i e : ℕ} (hst : s.storing t = some (slot, i))
    (hord : ∀ t' j, s.loading t' = some (slot, j) → i ≤ j) (he : e ∈ s.stored)
    (hmod : e % N = i % N) : e ∈ s.loaded := by
  obtain ⟨hipos, hile, hslot, hnot⟩ := h.storing_spec _ _ _ hst
  have hne : e ≠ i := fun hei => hnot (hei ▸ he)
  have hepos := (h.stored_spec e he).1
  rcases Nat.lt_or_gt_of_ne hne with hlt | hgt
  · -- an earlier enqueue: its dequeue has reserved, and is not pending on this slot
    have hdvd : N ∣ i - e := (Nat.modEq_iff_dvd' hlt.le).mp hmod
    have hN : N ≤ i - e := Nat.le_of_dvd (by omega) hdvd
    have hdeq : e ≤ s.deqs := by have := h.enqs_lt; omega
    rcases h.loaded_or e hepos hdeq with hl | ⟨t', slot', hl⟩
    · exact hl
    · have hs' := (h.loading_spec _ _ _ hl).2.2.1
      have := hord t' e (by rw [hl, hs', hmod, hslot])
      omega
  · -- a later enqueue of the slot would have needed this one to be stored first
    obtain ⟨k, hk⟩ : N ∣ e - i := (Nat.modEq_iff_dvd' hgt.le).mp hmod.symm
    have hei : e = i + k * N := by rw [Nat.mul_comm, ← hk]; omega
    exact absurd (h.stored_of_stored_add hipos k (hei ▸ he)) hnot

/-- An enqueue reserves a slot of a ring that is not full. -/
theorem reserveHead (h : Inv N s) (hs : s.storing t = none) (hl : s.loading t = none)
    {newHead : ℕ} (hnew : newHead = nextIndex s.ring.mask s.ring.head)
    (hfree : newHead ≠ s.ring.tail) (buf : KPtr V) : Inv N (s.reserveHead t buf newHead) := by
  have hpc : (s.reserveHead t buf newHead).pc =
      Function.update s.pc t (.enqStore buf newHead (s.enqs + 1)) := rfl
  have es : ∀ t', (s.reserveHead t buf newHead).storing t' =
      if t' = t then some (newHead, s.enqs + 1) else s.storing t' := storing_of_update hpc
  have el : (s.reserveHead t buf newHead).loading = s.loading := loading_of_quiet rfl hl rfl
  have hslot : newHead = (s.enqs + 1) % N := by rw [hnew, h.head_eq, h.next]
  have hlt : s.enqs + 1 < s.deqs + N := by
    by_contra hge
    have heq : s.enqs + 1 = s.deqs + N := by have := h.enqs_lt; omega
    exact hfree (by rw [hslot, heq, Nat.add_mod_right, h.tail_eq])
  have htickets := h.enqueues.start (fun i hi => (h.stored_spec i hi).2.1) hs hslot es
  exact { h with
    head_eq := hslot
    deqs_le := Nat.le_succ_of_le h.deqs_le
    enqs_lt := hlt
    storing_spec := htickets.spec
    storing_inj := htickets.inj
    stored_or := htickets.done_or
    loading_spec := by rw [el]; exact h.loading_spec
    loading_inj := by rw [el]; exact h.loading_inj
    loaded_or := by rw [el]; exact h.loaded_or
    stored_spec := by
      intro i hi
      obtain ⟨h1, h2, h3⟩ := h.stored_spec i hi
      exact ⟨h1, Nat.le_succ_of_le h2, h3⟩ }

/-- A dequeue reserves a slot of a ring that is not empty. -/
theorem reserveTail (h : Inv N s) (hs : s.storing t = none) (hl : s.loading t = none)
    {newTail : ℕ} (hnew : newTail = nextIndex s.ring.mask s.ring.tail)
    (hfull : s.ring.tail ≠ s.ring.head) : Inv N (s.reserveTail t newTail) := by
  have es : (s.reserveTail t newTail).storing = s.storing := storing_of_quiet rfl hs rfl
  have hpc : (s.reserveTail t newTail).pc =
      Function.update s.pc t (.deqLoad newTail (s.deqs + 1)) := rfl
  have el : ∀ t', (s.reserveTail t newTail).loading t' =
      if t' = t then some (newTail, s.deqs + 1) else s.loading t' := loading_of_update hpc
  have hslot : newTail = (s.deqs + 1) % N := by rw [hnew, h.tail_eq, h.next]
  have hle : s.deqs + 1 ≤ s.enqs := by
    by_contra hgt
    have heq : s.deqs = s.enqs := by have := h.deqs_le; omega
    exact hfull (by rw [h.tail_eq, h.head_eq, heq])
  have htickets := h.dequeues.start (fun j hj => (h.loaded_spec j hj).2) hl hslot el
  exact { h with
    tail_eq := hslot
    deqs_le := hle
    enqs_lt := by
      have := h.enqs_lt
      change s.enqs < s.deqs + 1 + N
      omega
    storing_spec := by rw [es]; exact h.storing_spec
    storing_inj := by rw [es]; exact h.storing_inj
    stored_or := by rw [es]; exact h.stored_or
    loading_spec := htickets.spec
    loading_inj := htickets.inj
    loaded_or := htickets.done_or
    loaded_spec := by
      intro j hj
      obtain ⟨h1, h2⟩ := h.loaded_spec j hj
      exact ⟨h1, Nat.le_succ_of_le h2⟩ }

/-- An enqueue stores a slot that no earlier dequeue has still to load. -/
theorem storeSlot (h : Inv N s) {slot i : ℕ} (hst : s.storing t = some (slot, i))
    (hl : s.loading t = none) (hord : ∀ t' j, s.loading t' = some (slot, j) → i ≤ j)
    (val : Buffer (KmathVal V)) : Inv N (s.storeSlot t slot i val) := by
  obtain ⟨hipos, hile, hslot, hnot⟩ := h.storing_spec _ _ _ hst
  have hpc : (s.storeSlot t slot i val).pc = Function.update s.pc t .idle := rfl
  have es : ∀ t', (s.storeSlot t slot i val).storing t' =
      if t' = t then none else s.storing t' := storing_of_update hpc
  have el : (s.storeSlot t slot i val).loading = s.loading := loading_of_quiet rfl hl rfl
  have hfree : ∀ e ∈ s.stored, e % N = i % N → e ∈ s.loaded :=
    fun e he hmod => h.loaded_of_same_slot hst hord he hmod
  have htickets := h.enqueues.finish hst es
  exact { h with
    storing_spec := htickets.spec
    storing_inj := htickets.inj
    stored_or := htickets.done_or
    loading_spec := by rw [el]; exact h.loading_spec
    loading_inj := by rw [el]; exact h.loading_inj
    loaded_or := by rw [el]; exact h.loaded_or
    stored_spec := by
      intro k hk
      rcases List.mem_cons.mp hk with rfl | hk
      · refine ⟨hipos, hile, fun hN => ?_⟩
        -- the previous enqueue of the slot is stored, or its dequeue still waits for it
        have hprev : k - N ≤ s.deqs := by have := h.enqs_lt; omega
        rcases h.loaded_or (k - N) (by omega) hprev with hmem | ⟨t', slot', ht'⟩
        · exact hmem
        · have hs' := (h.loading_spec _ _ _ ht').2.2.1
          have hmod : (k - N) % N = k % N := (Nat.mod_eq_sub_mod hN.le).symm
          have hle := hord t' (k - N) (by rw [ht', hs', hmod, hslot])
          have hNpos : 0 < N := by have := h.enqs_lt; have := h.deqs_le; omega
          omega
      · exact h.stored_spec k hk
    loaded_spec := by
      intro j hj
      obtain ⟨h1, h2⟩ := h.loaded_spec j hj
      exact ⟨List.mem_cons_of_mem _ h1, h2⟩
    in_slot := by
      intro k hk hkl
      change Function.update s.writer slot (some i) (k % N) = some k
      rcases List.mem_cons.mp hk with rfl | hk
      · rw [← hslot, Function.update_self]
      · rw [Function.update_of_ne, h.in_slot k hk hkl]
        rw [hslot]
        exact fun hmod => hkl (hfree k hk hmod)
    writer_spec := by
      intro x w hw
      change Function.update s.writer slot (some i) x = some w at hw
      by_cases hx : x = slot
      · rw [hx, Function.update_self] at hw
        cases hw
        exact ⟨List.mem_cons_self, by rw [hx, hslot]⟩
      · rw [Function.update_of_ne hx] at hw
        obtain ⟨h1, h2⟩ := h.writer_spec x w hw
        exact ⟨List.mem_cons_of_mem _ h1, h2⟩
    lost_eq := by
      change (match s.writer slot with
        | some w => if w ∈ s.returned then s.lost else w :: s.lost
        | none => s.lost) = []
      cases hw : s.writer slot with
      | none => exact h.lost_eq
      | some w =>
          obtain ⟨h1, h2⟩ := h.writer_spec slot w hw
          have hmem : w ∈ s.returned := by
            rw [h.returned_eq]
            exact hfree w h1 (by rw [h2, hslot])
          simp [hmem, h.lost_eq] }

/-- A dequeue loads a slot whose enqueue has stored it. -/
theorem loadSlot (h : Inv N s) {slot j : ℕ} (hld : s.loading t = some (slot, j))
    (hs : s.storing t = none) (hord : ∀ t' slot', s.storing t' ≠ some (slot', j))
    (buf : KPtr V) : Inv N (s.loadSlot t slot j buf) := by
  obtain ⟨hjpos, hjle, hslot, hnot⟩ := h.loading_spec _ _ _ hld
  have hpc : (s.loadSlot t slot j buf).pc = Function.update s.pc t .idle := rfl
  have es : (s.loadSlot t slot j buf).storing = s.storing := storing_of_quiet rfl hs rfl
  have el : ∀ t', (s.loadSlot t slot j buf).loading t' =
      if t' = t then none else s.loading t' := loading_of_update hpc
  have hld' : (s.loadSlot t slot j buf).loaded = j :: s.loaded := rfl
  have hstored : j ∈ s.stored := by
    rcases h.stored_or j hjpos (hjle.trans h.deqs_le) with hmem | ⟨t', slot', ht'⟩
    · exact hmem
    · exact absurd ht' (hord t' slot')
  have htickets := h.dequeues.finish hld el
  exact { h with
    storing_spec := by rw [es]; exact h.storing_spec
    storing_inj := by rw [es]; exact h.storing_inj
    stored_or := by rw [es]; exact h.stored_or
    loading_spec := htickets.spec
    loading_inj := htickets.inj
    loaded_or := htickets.done_or
    stored_spec := by
      intro k hk
      obtain ⟨h1, h2, h3⟩ := h.stored_spec k hk
      exact ⟨h1, h2, fun hN => List.mem_cons_of_mem _ (h3 hN)⟩
    loaded_spec := by
      intro k hk
      rcases List.mem_cons.mp hk with rfl | hk
      · exact ⟨hstored, hjle⟩
      · exact h.loaded_spec k hk
    in_slot := by
      intro k hk hkl
      exact h.in_slot k hk fun hmem => hkl (List.mem_cons_of_mem _ hmem)
    loads_spec := by
      intro l hl
      rcases List.mem_cons.mp hl with rfl | hl
      · exact ⟨by simp [hstored], by rw [hslot]; exact h.in_slot j hstored hnot⟩
      · exact h.loads_spec l hl
    loaded_nodup := by
      rw [hld', List.nodup_cons]
      exact ⟨hnot, h.loaded_nodup⟩ }

end Inv

/-! ## Runs -/

theorem nextIndex_mod {cap : ℕ} (h2 : 2 ≤ cap) (hcap : cap < 2 ^ 64) (x : ℕ) :
    nextIndex (sizeSub cap 1) (x % min cap (2 ^ 32)) = (x + 1) % min cap (2 ^ 32) := by
  have hmask : sizeSub cap 1 = cap - 1 := sizeSub_of_le (by omega) hcap
  have hlt : x % min cap (2 ^ 32) < min cap (2 ^ 32) := Nat.mod_lt _ (by omega)
  have hsucc : (x + 1) % min cap (2 ^ 32) = (x % min cap (2 ^ 32) + 1) % min cap (2 ^ 32) :=
    (Nat.mod_add_mod x (min cap (2 ^ 32)) 1).symm
  rw [hsucc, nextIndex, hmask]
  generalize x % min cap (2 ^ 32) = y at hlt ⊢
  by_cases hlast : y = cap - 1
  · have hN : min cap (2 ^ 32) = cap := by omega
    rw [if_pos hlast, hlast, hN, Nat.sub_add_cancel (by omega), Nat.mod_self]
  · rw [if_neg hlast]
    rcases Nat.le_total cap (2 ^ 32) with hle | hle
    · rw [Nat.min_eq_left hle] at hlt ⊢
      have hfit : y + 1 < cap := by omega
      rw [Nat.mod_eq_of_lt hfit, Nat.mod_eq_of_lt (by omega)]
    · rw [Nat.min_eq_right hle]

omit [DecidableEq ι] in
theorem inv_init {opts : KringOpts} (h2 : 2 ≤ opts.cap) (hcap : opts.cap < 2 ^ 64) :
    Inv (min opts.cap (2 ^ 32)) (init opts : System ι V) where
  next := nextIndex_mod h2 hcap
  head_eq := (Nat.zero_mod _).symm
  tail_eq := (Nat.zero_mod _).symm
  deqs_le := le_rfl
  enqs_lt := by
    change 0 < 0 + min opts.cap (2 ^ 32)
    omega
  storing_spec := fun _ _ _ h => by cases h
  storing_inj := fun _ _ _ _ _ h => by cases h
  stored_or := fun i hi hle => by
    change i ≤ 0 at hle
    omega
  loading_spec := fun _ _ _ h => by cases h
  loading_inj := fun _ _ _ _ _ h => by cases h
  loaded_or := fun j hj hle => by
    change j ≤ 0 at hle
    omega
  stored_spec := fun _ h => by cases h
  loaded_spec := fun _ h => by cases h
  in_slot := fun _ h => by cases h
  writer_spec := fun _ _ h => by cases h
  loads_spec := fun _ h => by cases h
  loaded_nodup := List.nodup_nil
  lost_eq := rfl

/-- One orderly step keeps the invariant. -/
theorem inv_advance {N : ℕ} {s s' : System ι V} {t : ι} {r : Option (Result V)} (h : Inv N s)
    (hord : s.Orderly (t, .step)) (hs : s.advance t = some (r, s')) : Inv N s' := by
  rw [advance] at hs
  cases hpc : s.pc t with
  | idle => simp [hpc] at hs
  | enqHead buf =>
      simp only [hpc, Option.some.injEq, Prod.mk.injEq] at hs
      rw [← hs.2]
      exact h.goto_quiet (by simp [storing, hpc, Pc.storing]) (by simp [loading, hpc, Pc.loading])
        rfl rfl
  | enqTail buf head =>
      simp only [hpc] at hs
      split at hs <;> simp only [Option.some.injEq, Prod.mk.injEq] at hs <;> rw [← hs.2] <;>
        exact h.goto_quiet (by simp [storing, hpc, Pc.storing])
          (by simp [loading, hpc, Pc.loading]) rfl rfl
  | enqCas buf head =>
      simp only [hpc, atomic32Cmpset] at hs
      have hst : s.storing t = none := by simp [storing, hpc, Pc.storing]
      have hld : s.loading t = none := by simp [loading, hpc, Pc.loading]
      by_cases heq : s.ring.head = head
      · simp only [heq, if_true, Option.some.injEq, Prod.mk.injEq] at hs
        simp only [Orderly, hpc] at hord
        rw [← hs.2]
        exact h.reserveHead hst hld (by rw [heq]) (hord heq) buf
      · simp only [heq, if_false, Option.some.injEq, Prod.mk.injEq] at hs
        rw [← hs.2]
        exact h.goto_quiet hst hld rfl rfl
  | enqStore buf slot i =>
      simp only [hpc, Option.bind_eq_bind, Option.bind_eq_some_iff, Option.some.injEq,
        Prod.mk.injEq] at hs
      obtain ⟨x, -, val, -, -, rfl⟩ := hs
      simp only [Orderly, hpc] at hord
      refine h.storeSlot (by simp [storing, hpc, Pc.storing])
        (by simp [loading, hpc, Pc.loading]) ?_ val
      intro t' j hj
      refine hord t' j ?_
      cases hpc' : s.pc t' <;> simp [loading, hpc', Pc.loading] at hj
      rw [hj.1, hj.2]
  | deqTail =>
      simp only [hpc, Option.some.injEq, Prod.mk.injEq] at hs
      rw [← hs.2]
      exact h.goto_quiet (by simp [storing, hpc, Pc.storing]) (by simp [loading, hpc, Pc.loading])
        rfl rfl
  | deqHead tail =>
      simp only [hpc] at hs
      split at hs <;> simp only [Option.some.injEq, Prod.mk.injEq] at hs <;> rw [← hs.2] <;>
        exact h.goto_quiet (by simp [storing, hpc, Pc.storing])
          (by simp [loading, hpc, Pc.loading]) rfl rfl
  | deqCas tail =>
      simp only [hpc, atomic32Cmpset] at hs
      have hst : s.storing t = none := by simp [storing, hpc, Pc.storing]
      have hld : s.loading t = none := by simp [loading, hpc, Pc.loading]
      by_cases heq : s.ring.tail = tail
      · simp only [heq, if_true, Option.some.injEq, Prod.mk.injEq] at hs
        simp only [Orderly, hpc] at hord
        rw [← hs.2]
        exact h.reserveTail hst hld (by rw [heq]) (by rw [heq]; exact hord heq)
      · simp only [heq, if_false, Option.some.injEq, Prod.mk.injEq] at hs
        rw [← hs.2]
        exact h.goto_quiet hst hld rfl rfl
  | deqLoad slot j =>
      simp only [hpc, Option.bind_eq_bind, Option.bind_eq_some_iff, Option.some.injEq,
        Prod.mk.injEq] at hs
      obtain ⟨x, -, -, rfl⟩ := hs
      simp only [Orderly, hpc] at hord
      refine h.loadSlot (by simp [loading, hpc, Pc.loading])
        (by simp [storing, hpc, Pc.storing]) ?_ _
      intro t' slot' hst
      cases hpc' : s.pc t' <;> simp [storing, hpc', Pc.storing] at hst
      exact hord t' _ _ (by rw [hpc', hst.2])

theorem inv_step {N : ℕ} {s s' : System ι V} {a : ι × Act V} {r : Option (Result V)}
    (h : Inv N s) (hord : s.Orderly a) (hs : s.step a = some (r, s')) : Inv N s' := by
  obtain ⟨t, act⟩ := a
  cases act with
  | step => exact inv_advance h hord hs
  | enqueue buf =>
      rw [step] at hs
      cases hpc : s.pc t <;> simp only [hpc, Option.some.injEq, Prod.mk.injEq, reduceCtorEq] at hs
      rw [← hs.2]
      exact h.goto_quiet (by simp [storing, hpc, Pc.storing]) (by simp [loading, hpc, Pc.loading])
        rfl rfl
  | dequeue =>
      rw [step] at hs
      cases hpc : s.pc t <;> simp only [hpc, Option.some.injEq, Prod.mk.injEq, reduceCtorEq] at hs
      rw [← hs.2]
      exact h.goto_quiet (by simp [storing, hpc, Pc.storing]) (by simp [loading, hpc, Pc.loading])
        rfl rfl

/-- **The ring is safe along orderly runs**, for any number of threads, any capacity
of at least two, and any interleaving. -/
theorem run_safe {opts : KringOpts} (h2 : 2 ≤ opts.cap) (hcap : opts.cap < 2 ^ 64)
    {tr : List (Step (System ι V) (ι × Act V) (Option (Result V)))} {s : System ι V}
    (h : Run step Orderly (init opts) tr s) : s.Safe :=
  (h.invariant (I := Inv (min opts.cap (2 ^ 32))) (inv_init h2 hcap)
    fun _ _ _ _ hI hord hs => inv_step hI hord hs).safe

/-- An enqueue by one thread and then a dequeue by another, undisturbed. -/
theorem run_safe_undisturbed :
    ∃ s : System Bool ℕ, s.loads.map Load.buf = [.user (.obj 7)] ∧ s.Safe := by
  have hrun : Run step Orderly (init ⟨2, .others, false⟩ : System Bool ℕ) _ _ :=
    run_of_runList [(false, .enqueue (.user (.obj 7))), (false, .step), (false, .step),
      (false, .step), (false, .step), (true, .dequeue), (true, .step), (true, .step),
      (true, .step), (true, .step)] rfl (by
        simp only [List.forall_mem_cons]
        refine ⟨trivial, trivial, trivial, ?_, ?_, trivial, trivial, trivial, ?_, ?_, by simp⟩
        · intro _
          decide
        · rintro (_ | _) seq' h <;> cases h
        · intro _
          decide
        · rintro (_ | _) buf slot' h <;> cases h)
  exact ⟨_, rfl, run_safe (by decide) (by decide) hrun⟩

/-- The index is published before the slot is written: a dequeue that runs between
the two returns the slot's old contents. -/
theorem unsafe_interleaving :
    ∃ (tr : List _) (s : System Bool ℕ),
      Run step (fun _ _ => True) (init ⟨2, .others, false⟩) tr s ∧ ¬ s.Safe := by
  refine ⟨_, _, run_of_runList [(false, .enqueue (.user (.obj 7))), (false, .step),
    (false, .step), (false, .step), (true, .dequeue), (true, .step), (true, .step),
    (true, .step), (true, .step)] rfl (fun _ _ => trivial), fun h => ?_⟩
  exact absurd (h.ready _ List.mem_cons_self) (by decide)

end System

end Kylin.Kring
