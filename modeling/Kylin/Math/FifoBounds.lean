import Kylin.Math.Fifo

/-!
# The copies of a byte queue and its block

Getting and peeking copy from inside the block whatever the length.  `kylin_fifo_put` compares
`in + len` modulo `cap` with `out`, so it lets lengths of a whole turn and more through, which
leave `in` at the end of the block or are copied past it, and lengths for which the sum wraps.
`Keeps` excludes them, and along runs of the other calls both positions stay in the block.

## Main definitions

* `StaysIn` — no copy of a call leaves the block, and the positions are in it afterwards.
* `Keeps` — the lengths that `kylin_fifo_put` can be given.

## Main results

* `Inside.staysIn_iff` — which calls stay in the block.
* `run_staysIn_iff` — the same in every state of a run.
-/

namespace Kylin.Kfifo

open Lib

/-- A length that fits a `size_t`. -/
def Sized : Call → Prop
  | .put buf => buf.length < 2 ^ 64
  | .get len | .peek len => len < 2 ^ 64

/-- **A call stays in the block**: it returns, so every copy was inside, and both positions are
below the capacity afterwards. -/
def StaysIn (fifo : Kfifo) (c : Call) : Prop :=
  ∃ r fifo', step fifo c = some (r, fifo') ∧
    fifo'.inPos < fifo.opts.cap ∧ fifo'.outPos < fifo.opts.cap

/-- The calls that `kylin_fifo_put`, `kylin_fifo_get` and `kylin_fifo_peek` make inside the
block. -/
def Keeps (fifo : Kfifo) : Call → Prop
  | .put buf =>
      fifo.isFull = false → fifo.inPos + buf.length < 2 ^ 64 ∧
        (fifo.outPos ≤ fifo.inPos → 2 * fifo.opts.cap ≤ fifo.inPos + buf.length →
          fifo.outPos < (fifo.inPos + buf.length) % fifo.opts.cap)
  | .get _ | .peek _ => True

instance (c : Call) : Decidable (Sized c) := by
  cases c <;> exact inferInstanceAs (Decidable (_ < _))

instance (fifo : Kfifo) (c : Call) : Decidable (Keeps fifo c) := by
  cases c
  case put => exact inferInstanceAs (Decidable (_ → _ ∧ (_ → _ → _)))
  all_goals exact inferInstanceAs (Decidable True)

/-- No call changes the capacity, the mask or the size of the block. -/
theorem step_frame {fifo fifo' : Kfifo} {c : Call} {r : Option (List Byte)}
    (h : step fifo c = some (r, fifo')) :
    fifo'.opts = fifo.opts ∧ fifo'.mask = fifo.mask ∧ fifo'.val.size = fifo.val.size := by
  cases c with
  | put buf =>
      obtain ⟨⟨ret, fifo''⟩, hput, hr⟩ := Option.map_eq_some_iff.mp h
      obtain ⟨-, rfl⟩ := Prod.mk.inj hr
      rw [put] at hput
      simp only [Option.bind_eq_bind] at hput
      split at hput
      · cases hput
        exact ⟨rfl, rfl, rfl⟩
      · split at hput
        · simp only [Option.bind_eq_some_iff] at hput
          obtain ⟨_, _, val, hval, _, _, val', hval', hput⟩ := hput
          cases hput
          exact ⟨rfl, rfl, (Buffer.size_of_write hval').trans (Buffer.size_of_write hval)⟩
        · simp only [Option.bind_eq_some_iff] at hput
          obtain ⟨_, _, val, hval, hput⟩ := hput
          cases hput
          exact ⟨rfl, rfl, Buffer.size_of_write hval⟩
  | get len =>
      obtain ⟨⟨ret, buf, fifo''⟩, hget, hr⟩ := Option.map_eq_some_iff.mp h
      obtain ⟨-, rfl⟩ := Prod.mk.inj hr
      rw [get] at hget
      split at hget
      · cases hget
        exact ⟨rfl, rfl, rfl⟩
      · obtain ⟨buf, -, hget⟩ := Option.bind_eq_some_iff.mp hget
        cases hget
        exact ⟨rfl, rfl, rfl⟩
  | peek len =>
      obtain ⟨ret, -, hr⟩ := Option.map_eq_some_iff.mp h
      obtain ⟨-, rfl⟩ := Prod.mk.inj hr
      exact ⟨rfl, rfl, rfl⟩

namespace Inside
variable {fifo : Kfifo} {len : ℕ}

theorem create {opts : KfifoOpts} (hcap : opts.cap < 2 ^ 64) (h : Kfifo.create opts = some fifo) :
    Inside fifo ∧ fifo.opts = opts := by
  refine ⟨(holds_create hcap h).inside, ?_⟩
  rw [Kfifo.create] at h
  split at h
  · obtain rfl := Option.some.inj h
    rfl
  · cases h

/-! ## The test of `kylin_fifo_put` -/

/-- A sum that wraps passes the test: it is below every position. -/
theorem not_refused_of_wraps (I : Inside fifo) (hfull : fifo.isFull = false)
    (hlen : len < 2 ^ 64) (hsum : 2 ^ 64 ≤ fifo.inPos + len) :
    ¬ fifo.refused len ∧ sizeAdd fifo.inPos len < fifo.inPos := by
  have hcap := I.cap_le
  have hin := I.in_lt
  have hmask := I.mask_eq
  have hwrap : sizeAdd fifo.inPos len = fifo.inPos + len - 2 ^ 64 := by
    rw [sizeAdd, Nat.mod_eq_sub_mod hsum, Nat.mod_eq_of_lt (by omega)]
  constructor
  · rw [refused, hwrap]
    simp only [hfull, Bool.false_eq_true, false_or]
    omega
  · omega

/-- The lengths that pass the test, when the sum does not wrap. -/
theorem refused_iff (I : Inside fifo) (hfull : fifo.isFull = false) (hpos : 0 < len)
    (hsum : fifo.inPos + len < 2 ^ 64) : fifo.refused len ↔
      (fifo.inPos < fifo.outPos ∧ fifo.outPos < fifo.inPos + len) ∨
        (fifo.outPos ≤ fifo.inPos ∧ fifo.opts.cap ≤ fifo.inPos + len ∧
          fifo.outPos < (fifo.inPos + len) % fifo.opts.cap) := by
  have hin := I.in_lt
  have hmask := I.mask_eq
  rw [refused, sizeAdd_of_lt hsum, I.and_mask]
  simp only [hfull, Bool.false_eq_true, false_or]
  omega

/-! ## One call -/

theorem staysIn_none (I : Inside fifo) {c : Call} (h : step fifo c = some (none, fifo)) :
    StaysIn fifo c := ⟨_, _, h, I.in_lt, I.out_lt⟩

theorem staysIn_get (I : Inside fifo) (len : ℕ) : StaysIn fifo (.get len) := by
  by_cases hav : fifo.unavailable len
  · exact I.staysIn_none (by simp [step, get, hav, outcome])
  · rw [StaysIn, step, I.get_eq hav]
    exact ⟨_, _, rfl, I.in_lt, (I.advance len).out_lt⟩

theorem staysIn_peek (I : Inside fifo) (len : ℕ) : StaysIn fifo (.peek len) := by
  by_cases hav : fifo.unavailable len
  · exact I.staysIn_none (by simp [step, peek, hav, outcome])
  · rw [StaysIn, step, I.peek_eq hav]
    exact ⟨_, _, rfl, I.in_lt, I.out_lt⟩

/-- A sum that wraps: the bytes are copied to `in` in one piece. -/
theorem put_wraps (I : Inside fifo) {buf : List Byte} (hfull : fifo.isFull = false)
    (hlen : buf.length < 2 ^ 64) (hsum : 2 ^ 64 ≤ fifo.inPos + buf.length) :
    fifo.put buf = none := by
  have hcap := I.cap_le
  have hin := I.in_lt
  obtain ⟨hacc, hlow⟩ := I.not_refused_of_wraps hfull hlen hsum
  have hshort : ¬ fifo.opts.cap < sizeAdd fifo.inPos buf.length := by omega
  have hout : ¬ fifo.inPos + buf.length ≤ fifo.val.size := by
    rw [I.size_eq]
    omega
  have hsrc : source buf 0 buf.length = some buf := by simp [source]
  rw [put]
  simp only [if_neg hacc, if_neg hshort, hsrc, Option.bind_eq_bind, Option.bind_some]
  rw [Buffer.write, if_neg hout]
  rfl

/-- The write of a length that is not refused and does not wrap. -/
theorem staysIn_put_iff (I : Inside fifo) {buf : List Byte} (hacc : ¬ fifo.refused buf.length)
    (hlt : fifo.inPos + buf.length < 2 ^ 64) :
    StaysIn fifo (.put buf) ↔ fifo.inPos + buf.length < 2 * fifo.opts.cap := by
  have hin := I.in_lt
  rcases Nat.lt_or_ge fifo.opts.cap (fifo.inPos + buf.length) with hend | hend
  · rcases Nat.lt_or_ge (2 * fifo.opts.cap) (fifo.inPos + buf.length) with hlong | hfit
    · rw [StaysIn, step, I.put_beyond hacc hlong hlt]
      simp only [Option.map_none, reduceCtorEq, false_and, exists_false, false_iff]
      omega
    · rw [StaysIn, step, I.put_wrap hacc hend hfit hlt]
      simp only [Option.map_some, Option.some.injEq, Prod.mk.injEq]
      constructor
      · rintro ⟨r, fifo', ⟨-, rfl⟩, hin', -⟩
        change buf.length - (fifo.opts.cap - fifo.inPos) < _ at hin'
        omega
      · intro hfit'
        refine ⟨_, _, ⟨rfl, rfl⟩, ?_, I.out_lt⟩
        change buf.length - (fifo.opts.cap - fifo.inPos) < _
        omega
  · rw [StaysIn, step, I.put_straight hacc hend]
    refine ⟨fun _ => by omega, fun _ => ⟨_, _, rfl, Nat.mod_lt _ (by omega), I.out_lt⟩⟩

/-- **Which calls stay in the block.** -/
theorem staysIn_iff (I : Inside fifo) {c : Call} (hc : Sized c) :
    StaysIn fifo c ↔ Keeps fifo c := by
  cases c with
  | get len => exact iff_of_true (I.staysIn_get len) trivial
  | peek len => exact iff_of_true (I.staysIn_peek len) trivial
  | put buf =>
      have hcap := I.cap_le
      have hin := I.in_lt
      have hout := I.out_lt
      have hrefused : fifo.refused buf.length → StaysIn fifo (.put buf) := by
        intro h
        exact I.staysIn_none (by simp [step, put, h, outcome])
      rw [Keeps]
      cases hfull : fifo.isFull with
      | true => simpa using hrefused (.inr (.inl hfull))
      | false =>
          simp only [forall_const]
          by_cases hsum : fifo.inPos + buf.length < 2 ^ 64
          · by_cases hpos : 0 < buf.length
            · have hiff := I.refused_iff hfull hpos hsum
              by_cases hacc : fifo.refused buf.length
              · have := hiff.mp hacc
                simp only [hrefused hacc, hsum, true_and, true_iff]
                omega
              · have := mt hiff.mpr hacc
                rw [I.staysIn_put_iff hacc hsum]
                simp only [hsum, true_and]
                omega
            · have := hrefused (.inl (by omega))
              simp only [this, hsum, true_and, true_iff]
              omega
          · refine iff_of_false ?_ (fun h => hsum h.1)
            rw [StaysIn, step, I.put_wraps hfull hc (by omega)]
            rintro ⟨r, fifo', h, -⟩
            cases h

/-- What the calls that stay in the block leave. -/
theorem of_staysIn (I : Inside fifo) {c : Call} (h : StaysIn fifo c) {r : Option (List Byte)}
    {fifo' : Kfifo} (hs : step fifo c = some (r, fifo')) :
    Inside fifo' ∧ fifo'.opts = fifo.opts := by
  obtain ⟨hopts, hmask, hsize⟩ := step_frame hs
  obtain ⟨r', fifo'', hs', hin, hout⟩ := h
  rw [hs] at hs'
  obtain ⟨-, rfl⟩ := Prod.mk.inj (Option.some.inj hs')
  rw [← hopts] at hin hout
  refine ⟨⟨?_, ?_, ?_, ?_, hin, hout⟩, hopts⟩
  · exact hopts ▸ I.pow
  · exact hopts ▸ I.cap_lt
  · rw [hmask, hopts, I.mask_eq]
  · rw [hsize, hopts, I.size_eq]

end Inside

/-- **A byte queue never leaves its block**, along every run of calls with lengths that it can
be given: both positions are in the block, and the next call stays in the block exactly when
its length can be given. -/
theorem run_staysIn_iff {opts : KfifoOpts} (hcap : opts.cap < 2 ^ 64) {fifo₀ fifo : Kfifo}
    (h0 : create opts = some fifo₀) {tr : List (Step Kfifo Call (Option (List Byte)))}
    (h : Run step (fun fifo c => Sized c ∧ Keeps fifo c) fifo₀ tr fifo) :
    (fifo.inPos < opts.cap ∧ fifo.outPos < opts.cap) ∧
      ∀ c, Sized c → (StaysIn fifo c ↔ Keeps fifo c) := by
  obtain ⟨I, ho⟩ := h.invariant (I := fun fifo => Inside fifo ∧ fifo.opts = opts)
    (Inside.create hcap h0) (by
      intro fifo c r fifo' ⟨I, ho⟩ ⟨hc, hkeep⟩ hs
      obtain ⟨I', ho'⟩ := I.of_staysIn ((I.staysIn_iff hc).mpr hkeep) hs
      exact ⟨I', ho'.trans ho⟩)
  rw [← ho]
  exact ⟨⟨I.in_lt, I.out_lt⟩, fun c hc => I.staysIn_iff hc⟩

/-- Writes round the end of a block of four, the last one refused for its length. -/
theorem run_staysIn_iff_four : ∃ (fifo₀ fifo : Kfifo)
    (tr : List (Step Kfifo Call (Option (List Byte)))), create ⟨4⟩ = some fifo₀ ∧
      tr.map Step.result = [some [], some [1, 2], some [], none] ∧
      Run step (fun fifo c => Sized c ∧ Keeps fifo c) fifo₀ tr fifo ∧
      (fifo.inPos < 4 ∧ fifo.outPos < 4) ∧
      ∀ c, Sized c → (StaysIn fifo c ↔ Keeps fifo c) := by
  have hcap : (⟨4⟩ : KfifoOpts).cap < 2 ^ 64 := by decide
  have hrun : Run step (fun fifo c => Sized c ∧ Keeps fifo c)
      (⟨⟨4⟩, 3, 0, 0, false, ⟨4, fun _ => 0⟩⟩ : Kfifo) _ _ :=
    run_of_runList [.put [1, 2, 3], .get 2, .put [4, 5], .put [6, 7, 8, 9, 10]] rfl (by decide)
  exact ⟨_, _, _, rfl, rfl, hrun, run_staysIn_iff hcap rfl hrun⟩

/-- Three turns are copied past the end of a block of four, and two leave `in` there. -/
theorem not_staysIn_turns : ∃ fifo₀ : Kfifo, create ⟨4⟩ = some fifo₀ ∧
    Sized (.put (List.replicate 12 0)) ∧ ¬ StaysIn fifo₀ (.put (List.replicate 12 0)) ∧
      ∃ r fifo, step fifo₀ (.put (List.replicate 8 0)) = some (r, fifo) ∧ fifo.inPos = 4 := by
  refine ⟨_, rfl, by decide, ?_, _, _, rfl, rfl⟩
  rintro ⟨r, fifo', h, -⟩
  cases h

end Kylin.Kfifo
