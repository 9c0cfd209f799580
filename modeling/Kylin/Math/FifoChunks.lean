import Kylin.Math.Fifo

/-!
# Reading a byte queue in chunks

Reading `a + b` bytes is reading `a` bytes and then `b` bytes, in every state of a queue, and
peeking is reading without taking out.  The one exception is in the result: the functions
return the length as an `int`, and a length whose low 32 bits are all ones is returned as
`-1`, which says that nothing was read.

## Main definitions

* `Formed` — the states of a queue.
* `ReadsInChunks`, `PeeksAsGets` — the two properties.

## Main results

* `Formed.holds` — what such a queue holds.
* `reads_iff` — which lengths can be split.
-/

namespace Kylin.Kfifo

open Lib

/-- A state of a queue: its positions are in the block, and they are equal if it is full. -/
structure Formed (fifo : Kfifo) : Prop extends Inside fifo where
  full : fifo.isFull = true → fifo.inPos = fifo.outPos

/-- **Reads are independent of chunking**: when `a + b` bytes can be got, so can `a` and then
`b`, and the bytes and the queue after it are the same. -/
def ReadsInChunks (fifo : Kfifo) (a b : ℕ) : Prop :=
  ∀ buf fifo', step fifo (.get (a + b)) = some (some buf, fifo') →
    ∃ buf₁ fifo₁ buf₂, step fifo (.get a) = some (some buf₁, fifo₁) ∧
      step fifo₁ (.get b) = some (some buf₂, fifo') ∧ buf = buf₁ ++ buf₂

/-- **Peeking** has the result of getting, and changes nothing. -/
def PeeksAsGets (fifo : Kfifo) (len : ℕ) : Prop :=
  ∃ r fifo', step fifo (.get len) = some (r, fifo') ∧ step fifo (.peek len) = some (r, fifo)

/-- A length that is returned as `-1`. -/
def Masked (len : ℕ) : Prop := len % 2 ^ 32 = 2 ^ 32 - 1

instance (len : ℕ) : Decidable (Masked len) := inferInstanceAs (Decidable (_ = _))

variable {fifo : Kfifo} {q : List Byte}

theorem Formed.count_lt (F : Formed fifo) (hfull : fifo.isFull = false) :
    fifo.count < fifo.opts.cap := by
  have hin := F.in_lt
  have hout := F.out_lt
  rw [count, if_neg (by simp [hfull])]
  split
  · omega
  · omega

/-- The bytes of a queue are those from `outPos` on, `count` of them. -/
theorem Formed.holds (F : Formed fifo) :
    Holds fifo (circle fifo.val.get fifo.opts.cap fifo.outPos fifo.count) := by
  have hin := F.in_lt
  have hout := F.out_lt
  have hlen := length_circle fifo.val.get fifo.opts.cap fifo.outPos fifo.count
  refine ⟨F.pow, F.cap_lt, F.mask_eq, F.size_eq, F.out_lt, ?_, ?_, ?_, by rw [hlen]⟩
  · rw [hlen]
    cases hfull : fifo.isFull with
    | false => exact (F.count_lt hfull).le
    | true => simp [count, hfull]
  · rw [hlen]
    cases hfull : fifo.isFull with
    | false =>
        rw [count, if_neg (by simp [hfull])]
        split
        · rw [Nat.add_sub_cancel' (by assumption), Nat.mod_eq_of_lt hin]
        · have hsum : fifo.outPos + (fifo.opts.cap - (fifo.outPos - fifo.inPos)) =
              fifo.inPos + fifo.opts.cap := by omega
          rw [hsum, Nat.add_mod_right, Nat.mod_eq_of_lt hin]
    | true =>
        rw [count, if_pos hfull, Nat.add_mod_right, Nat.mod_eq_of_lt hout]
        exact F.full hfull
  · rw [hlen]
    cases hfull : fifo.isFull with
    | false => simpa using (F.count_lt hfull).ne
    | true => simp [count, hfull]

theorem outcome_toInt (len : ℕ) (buf : List Byte) :
    outcome (toInt len) buf = if Masked len then none else some buf := by
  rw [outcome]
  exact if_congr (toInt_eq_neg_one_iff len) rfl rfl

namespace Holds

/-- What a caller sees of a read. -/
theorem step_get (H : Holds fifo q) (len : ℕ) : step fifo (.get len) =
    if 0 < len ∧ len ≤ q.length then
      some (if Masked len then none else some (q.take len), fifo.advance len)
    else some (none, fifo) := by
  rw [step, H.get_spec len, ← outcome_toInt]
  split <;> rfl

theorem step_peek (H : Holds fifo q) (len : ℕ) : step fifo (.peek len) =
    if 0 < len ∧ len ≤ q.length then
      some (if Masked len then none else some (q.take len), fifo)
    else some (none, fifo) := by
  rw [step, H.peek_spec len, ← outcome_toInt]
  split <;> rfl

theorem peeksAsGets (H : Holds fifo q) (len : ℕ) : PeeksAsGets fifo len := by
  rw [PeeksAsGets, H.step_get, H.step_peek]
  by_cases hlen : 0 < len ∧ len ≤ q.length
  · simp only [if_pos hlen]
    exact ⟨_, _, rfl, rfl⟩
  · simp only [if_neg hlen]
    exact ⟨_, _, rfl, rfl⟩

/-- A read that can be split. -/
theorem readsInChunks (H : Holds fifo q) {a b : ℕ} (ha : 0 < a) (hb : 0 < b)
    (h : a + b ≤ q.length → ¬ Masked (a + b) → ¬ Masked a ∧ ¬ Masked b) :
    ReadsInChunks fifo a b := by
  intro buf fifo' hget
  rw [H.step_get] at hget
  split at hget
  · next hlen =>
      split at hget
      · cases hget
      · next hmask =>
          obtain ⟨hbuf, rfl⟩ := Prod.mk.inj (Option.some.inj hget)
          obtain rfl := Option.some.inj hbuf
          obtain ⟨hma, hmb⟩ := h hlen.2 hmask
          have hrest : 0 < b ∧ b ≤ (q.drop a).length := by
            rw [List.length_drop]
            omega
          have hfirst := H.step_get a
          have hsecond := (H.advance ha (by omega)).step_get b
          rw [if_pos ⟨ha, by omega⟩, if_neg hma] at hfirst
          rw [if_pos hrest, if_neg hmb, advance_advance] at hsecond
          exact ⟨_, _, _, hfirst, hsecond, List.take_add⟩
  · cases hget

/-- A read that cannot. -/
theorem not_masked_of_readsInChunks (H : Holds fifo q) {a b : ℕ} (ha : 0 < a)
    (h : ReadsInChunks fifo a b) (hlen : a + b ≤ q.length) (hmask : ¬ Masked (a + b)) :
    ¬ Masked a ∧ ¬ Masked b := by
  have hget := H.step_get (a + b)
  rw [if_pos ⟨by omega, hlen⟩, if_neg hmask] at hget
  obtain ⟨buf₁, fifo₁, buf₂, hfirst, hsecond, -⟩ := h _ _ hget
  rw [H.step_get, if_pos ⟨ha, by omega⟩] at hfirst
  have hma : ¬ Masked a := by
    intro hm
    rw [if_pos hm] at hfirst
    cases hfirst
  rw [if_neg hma] at hfirst
  obtain ⟨-, rfl⟩ := Prod.mk.inj (Option.some.inj hfirst)
  refine ⟨hma, ?_⟩
  intro hm
  rw [(H.advance ha (by omega)).step_get, if_pos hm] at hsecond
  split at hsecond
  · cases hsecond
  · cases hsecond

end Holds

/-- **Which lengths can be split**: those for which neither part is returned as `-1`.  Peeking
always has the result of getting. -/
theorem reads_iff (F : Formed fifo) {a b : ℕ} (ha : 0 < a) (hb : 0 < b) :
    (ReadsInChunks fifo a b ∧ ∀ len, PeeksAsGets fifo len) ↔
      (a + b ≤ fifo.count → ¬ Masked (a + b) → ¬ Masked a ∧ ¬ Masked b) := by
  have H := F.holds
  have hlen := length_circle fifo.val.get fifo.opts.cap fifo.outPos fifo.count
  rw [and_iff_left H.peeksAsGets]
  constructor
  · intro h hab hmask
    exact H.not_masked_of_readsInChunks ha h (by rwa [hlen]) hmask
  · intro h
    rw [← hlen] at h
    exact H.readsInChunks ha hb h

/-- Six bytes round the end of a full block of eight. -/
theorem reads_iff_round : ∃ fifo : Kfifo, Formed fifo ∧ fifo.isFull = true ∧ fifo.count = 8 ∧
    ReadsInChunks fifo 2 4 ∧ ∀ len, PeeksAsGets fifo len := by
  have hformed : Formed ⟨⟨8⟩, 7, 5, 5, true, ⟨8, fun i => i.toUInt8⟩⟩ :=
    ⟨⟨by decide, by decide, rfl, rfl, by decide, by decide⟩, fun _ => rfl⟩
  exact ⟨_, hformed, rfl, rfl, (reads_iff hformed (by decide) (by decide)).mpr
    fun _ _ => ⟨by decide, by decide⟩⟩

/-- A full queue of four gigabytes: all of it can be got at once, but getting all but the last
byte is reported as a failure. -/
theorem not_readsInChunks : ∃ fifo : Kfifo, Formed fifo ∧ fifo.count = 2 ^ 32 ∧
    (∃ buf fifo', step fifo (.get (2 ^ 32 - 1 + 1)) = some (some buf, fifo')) ∧
      ¬ ReadsInChunks fifo (2 ^ 32 - 1) 1 := by
  have hformed : Formed ⟨⟨2 ^ 32⟩, 2 ^ 32 - 1, 0, 0, true, ⟨2 ^ 32, fun _ => 0⟩⟩ :=
    ⟨⟨by decide, by decide, rfl, rfl, by decide, by decide⟩, fun _ => rfl⟩
  have hlen : 2 ^ 32 - 1 + 1 ≤ (circle (fun _ => (0 : Byte)) (2 ^ 32) 0 (2 ^ 32)).length := by
    rw [length_circle]
    decide
  refine ⟨_, hformed, rfl, ?_, ?_⟩
  · have hget := hformed.holds.step_get (2 ^ 32 - 1 + 1)
    rw [if_pos ⟨by decide, hlen⟩, if_neg (by decide)] at hget
    exact ⟨_, _, hget⟩
  · intro h
    have hmask := hformed.holds.not_masked_of_readsInChunks (by decide) h hlen (by decide)
    exact hmask.1 (by decide)

end Kylin.Kfifo
