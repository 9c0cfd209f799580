import Kylin.Arch.Word
import Kylin.Lib.Endian
import Mathlib.Data.BitVec
import Mathlib.Data.LawfulXor.Basic
import Mathlib.Logic.Function.Basic

/-!
# The hash functions

`include/utils/kylin_hash.h`.  Both functions keep three words `a`, `b`, `c`, add the key to
them in blocks of three words, and mix after each block.  `kylin_hash` reads the blocks from
bytes, as the machine orders them, and puts a last, shorter block together byte by byte;
`kylin_hash2` takes an array of words.

The lines of the two mixing macros are of one form each, with the three variables in turn.  A
line changes one variable by an operation that can be undone, so mixing is a bijection, and a
block once added is never lost.

A key is given by its bytes, or words, from the pointer on.

## Main definitions

* `hashMix`, `hashFinal` — the two macros.
* `hashState`, `hash`, `hash2` — the functions; `hashState` is all three variables.
* `DifferInOneBlock` — keys that differ in one block only.

## Main results

* `hashMix_bijective`, `hashFinal_bijective` — mixing can be undone.
* `hash_eq_hash2` — the two functions agree on the bytes of an array.
* `hashState_ne` — keys that differ in one block have different states.
-/

namespace Kylin.Khash

open Lib

/-- The variables `a`, `b`, `c`. -/
@[ext]
structure State where
  a : BitVec 32
  b : BitVec 32
  c : BitVec 32
  deriving DecidableEq

/-- `rol32`. -/
def rol32 (word : BitVec 32) (shift : ℕ) : BitVec 32 := word <<< shift ||| word >>> (32 - shift)

/-- A line of `__kylin_hash_mix`: `a -= c; a ^= rol32(c, shift); c += b`.  The variables `a` and
`c` after it. -/
def mixLine (shift : ℕ) (a b c : BitVec 32) : BitVec 32 × BitVec 32 :=
  ((a - c) ^^^ rol32 c shift, c + b)

/-- `__kylin_hash_mix`. -/
def hashMix (s : State) : State :=
  let (a, b, c) := (s.a, s.b, s.c)
  let (a, c) := mixLine 4 a b c
  let (b, a) := mixLine 6 b c a
  let (c, b) := mixLine 8 c a b
  let (a, c) := mixLine 16 a b c
  let (b, a) := mixLine 19 b c a
  let (c, b) := mixLine 4 c a b
  ⟨a, b, c⟩

/-- A line of `__kylin_hash_final`: `c ^= b; c -= rol32(b, shift)`.  The variable `c` after it. -/
def finalLine (shift : ℕ) (c b : BitVec 32) : BitVec 32 := (c ^^^ b) - rol32 b shift

/-- `__kylin_hash_final`. -/
def hashFinal (s : State) : State :=
  let (a, b, c) := (s.a, s.b, s.c)
  let c := finalLine 14 c b
  let a := finalLine 11 a c
  let b := finalLine 25 b a
  let c := finalLine 16 c b
  let a := finalLine 4 a c
  let b := finalLine 14 b a
  let c := finalLine 24 c b
  ⟨a, b, c⟩

/-- `JHASH_INITVAL`. -/
def jhashInitval : BitVec 32 := 0xdeadbeef

/-- What is added for a block of three words. -/
def addBlock (s : State) (x y z : BitVec 32) : State := ⟨s.a + x, s.b + y, s.c + z⟩

/-! ## Keys of bytes -/

/-- `case i + 1: x += (uint32_t)k[i]<<shift;`, reached by every length above `i`. -/
def addByte (k : ℕ → Byte) (length i shift : ℕ) (x : BitVec 32) : BitVec 32 :=
  if i < length then x + (k i).toBitVec.setWidth 32 <<< shift else x

/-- The four cases that add to one variable, from `case off + 4` down. -/
def addBytes (k : ℕ → Byte) (length off : ℕ) (x : BitVec 32) : BitVec 32 :=
  let x := addByte k length (off + 3) 24 x
  let x := addByte k length (off + 2) 16 x
  let x := addByte k length (off + 1) 8 x
  addByte k length off 0 x

/-- The `switch` of `kylin_hash`. -/
def hashTail (k : ℕ → Byte) (length : ℕ) (s : State) : State :=
  let c := addBytes k length 8 s.c
  let b := addBytes k length 4 s.b
  let a := addBytes k length 0 s.a
  if length = 0 then s else hashFinal ⟨a, b, c⟩

/-- The loop of `kylin_hash`, and what comes behind it, on a machine of byte order `o`. -/
def hashLoop (o : Order) (k : ℕ → Byte) (length : ℕ) (s : State) : State :=
  if 12 < length then
    hashLoop o (fun i => k (12 + i)) (length - 12)
      (hashMix (addBlock s (o.load 4 k 0) (o.load 4 k 4) (o.load 4 k 8)))
  else hashTail k length s
termination_by length

/-- The variables when `kylin_hash` returns. -/
def hashState (o : Order) (key : ℕ → Byte) (length initval : BitVec 32) : State :=
  let init := jhashInitval + length + initval
  hashLoop o key length.toNat ⟨init, init, init⟩

/-- `kylin_hash`. -/
def hash (o : Order) (key : ℕ → Byte) (length initval : BitVec 32) : BitVec 32 :=
  (hashState o key length initval).c

/-! ## Keys of words -/

/-- The `switch` of `kylin_hash2`. -/
def hash2Tail (k : ℕ → BitVec 32) (length : ℕ) (s : State) : State :=
  let c := if 2 < length then s.c + k 2 else s.c
  let b := if 1 < length then s.b + k 1 else s.b
  let a := if 0 < length then s.a + k 0 else s.a
  if length = 0 then s else hashFinal ⟨a, b, c⟩

/-- The loop of `kylin_hash2`, and what comes behind it. -/
def hash2Loop (k : ℕ → BitVec 32) (length : ℕ) (s : State) : State :=
  if 3 < length then
    hash2Loop (fun i => k (3 + i)) (length - 3) (hashMix (addBlock s (k 0) (k 1) (k 2)))
  else hash2Tail k length s
termination_by length

/-- `kylin_hash2`. -/
def hash2 (k : ℕ → BitVec 32) (length initval : BitVec 32) : BitVec 32 :=
  let init := jhashInitval + length <<< 2 + initval
  (hash2Loop k length.toNat ⟨init, init, init⟩).c

/-! ## Mixing -/

/-- The variables with the next one in the place of each. -/
def turn (s : State) : State := ⟨s.b, s.c, s.a⟩

theorem turn_bijective : Function.Bijective turn :=
  Function.bijective_iff_has_inverse.mpr ⟨fun s => ⟨s.c, s.a, s.b⟩, fun _ => rfl, fun _ => rfl⟩

/-- A line of `__kylin_hash_mix` and a turn. -/
def mixTurn (shift : ℕ) (s : State) : State :=
  turn ⟨(mixLine shift s.a s.b s.c).1, s.b, (mixLine shift s.a s.b s.c).2⟩

theorem mixTurn_bijective (shift : ℕ) : Function.Bijective (mixTurn shift) := by
  -- `c` is had back first
  let undo (s : State) : State :=
    ⟨(s.c ^^^ rol32 (s.b - s.a) shift) + (s.b - s.a), s.a, s.b - s.a⟩
  refine Function.bijective_iff_has_inverse.mpr ⟨undo, ?_, ?_⟩
  · intro s
    simp [undo, mixTurn, turn, mixLine]
  · intro s
    simp [undo, mixTurn, turn, mixLine]

theorem hashMix_bijective : Function.Bijective hashMix := by
  have h : hashMix = mixTurn 4 ∘ mixTurn 19 ∘ mixTurn 16 ∘ mixTurn 8 ∘ mixTurn 6 ∘ mixTurn 4 := rfl
  rw [h]
  exact (mixTurn_bijective 4).comp <| (mixTurn_bijective 19).comp <|
    (mixTurn_bijective 16).comp <| (mixTurn_bijective 8).comp <|
    (mixTurn_bijective 6).comp (mixTurn_bijective 4)

/-- A line of `__kylin_hash_final` and a turn. -/
def finalTurn (shift : ℕ) (s : State) : State := turn ⟨s.a, s.b, finalLine shift s.c s.b⟩

theorem finalTurn_bijective (shift : ℕ) : Function.Bijective (finalTurn shift) := by
  let undo (s : State) : State := ⟨s.c, s.a, (s.b + rol32 s.a shift) ^^^ s.a⟩
  refine Function.bijective_iff_has_inverse.mpr ⟨undo, ?_, ?_⟩
  · intro s
    simp [undo, finalTurn, turn, finalLine]
  · intro s
    simp [undo, finalTurn, turn, finalLine]

theorem hashFinal_bijective : Function.Bijective hashFinal := by
  have h : hashFinal = turn ∘ turn ∘ finalTurn 24 ∘ finalTurn 14 ∘ finalTurn 4 ∘ finalTurn 16 ∘
      finalTurn 25 ∘ finalTurn 11 ∘ finalTurn 14 := rfl
  rw [h]
  exact turn_bijective.comp <| turn_bijective.comp <| (finalTurn_bijective 24).comp <|
    (finalTurn_bijective 14).comp <| (finalTurn_bijective 4).comp <|
    (finalTurn_bijective 16).comp <| (finalTurn_bijective 25).comp <|
    (finalTurn_bijective 11).comp (finalTurn_bijective 14)

/-! ## The bytes of a block -/

/-- What `kylin_hash` has of the key, and zeros behind it. -/
def padded (k : ℕ → Byte) (length : ℕ) : ℕ → Byte := fun i => if i < length then k i else 0

section Bytes
variable {k k' : ℕ → Byte} {length off : ℕ} {x : BitVec 32}

theorem shiftLeft_byte (b : Byte) (shift : ℕ) :
    b.toBitVec.setWidth 32 <<< shift = BitVec.ofNat 32 (b.toNat * 2 ^ shift) := by
  apply BitVec.eq_of_toNat_eq
  simp [Nat.shiftLeft_eq]

theorem addByte_eq (k : ℕ → Byte) (length i shift : ℕ) (x : BitVec 32) :
    addByte k length i shift x = x + BitVec.ofNat 32 ((padded k length i).toNat * 2 ^ shift) := by
  rw [addByte, padded]
  split
  · rw [shiftLeft_byte]
  · simp

/-- Four cases of the `switch` add the word that four bytes are, those behind the key being
zero. -/
theorem addBytes_eq (k : ℕ → Byte) (length off : ℕ) (x : BitVec 32) :
    addBytes k length off x = x + Order.little.load 4 (padded k length) off := by
  have hslice : slice (padded k length) off 4 = [padded k length off, padded k length (off + 1),
      padded k length (off + 2), padded k length (off + 3)] := rfl
  rw [Order.load, hslice, Order.decode]
  simp only [addBytes, addByte_eq, List.map_cons, List.map_nil, Nat.ofDigits_cons,
    Nat.ofDigits_nil, BitVec.add_assoc, ← BitVec.ofNat_add]
  congr 2
  ring

/-- A block of the whole key. -/
theorem load_padded (o : Order) (h : off + 4 ≤ length) :
    o.load 4 (padded k length) off = o.load 4 k off := by
  rw [Order.load_inj]
  apply slice_congr
  intro i hi
  exact if_pos (by omega)

/-- A block behind the key. -/
theorem load_padded_zero (o : Order) (h : length ≤ off) : o.load 4 (padded k length) off = 0 := by
  apply Order.load_of_slice_eq
  have hzero : slice (padded k length) off 4 = slice (fun _ => 0) off 4 :=
    slice_congr fun i _ => if_neg (by omega)
  rw [hzero]
  cases o <;> rfl

theorem addBlock_left_injective {x y z : BitVec 32} :
    Function.Injective fun s => addBlock s x y z := by
  intro s t h
  simp only [addBlock, State.mk.injEq, BitVec.add_left_inj] at h
  exact State.ext h.1 h.2.1 h.2.2

/-- What a block adds tells its bytes. -/
theorem addBlock_load_inj {o : Order} {s : State}
    (h : addBlock s (o.load 4 k 0) (o.load 4 k 4) (o.load 4 k 8) =
      addBlock s (o.load 4 k' 0) (o.load 4 k' 4) (o.load 4 k' 8)) :
    ∀ i, i < 12 → k i = k' i := by
  simp only [addBlock, State.mk.injEq, BitVec.add_right_inj] at h
  have h₀ : slice k 0 4 = slice k' 0 4 := (o.load_inj 4 k k' 0 0).mp h.1
  have h₁ : slice k 4 4 = slice k' 4 4 := (o.load_inj 4 k k' 4 4).mp h.2.1
  have h₂ : slice k 8 4 = slice k' 8 4 := (o.load_inj 4 k k' 8 8).mp h.2.2
  have hslice : slice k 0 12 = slice k' 0 12 := by
    rw [slice_append k 0 8 4, slice_append k 4 4 4, slice_append k' 0 8 4, slice_append k' 4 4 4,
      h₀, h₁, h₂]
  rw [slice_eq_iff] at hslice
  simpa using hslice

theorem hashTail_eq (k : ℕ → Byte) (length : ℕ) (s : State) :
    hashTail k length s =
      if length = 0 then s
      else hashFinal (addBlock s (Order.little.load 4 (padded k length) 0)
        (Order.little.load 4 (padded k length) 4) (Order.little.load 4 (padded k length) 8)) := by
  simp only [hashTail, addBytes_eq, addBlock]

end Bytes

/-! ## Arrays of words -/

/-- The bytes of an array of words. -/
def wordBytes (o : Order) (k : ℕ → BitVec 32) : ℕ → Byte := fun p =>
  (o.encode 4 (k (p / 4)).toNat).getD (p % 4) 0

section Words
variable (o : Order) (k : ℕ → BitVec 32)

theorem load_wordBytes (j : ℕ) : o.load 4 (wordBytes o k) (4 * j) = k j := by
  apply Order.load_of_slice_eq
  apply List.ext_getElem (by rw [length_slice, Order.length_encode])
  intro i hi hi'
  rw [length_slice] at hi
  have hdiv : (4 * j + i) / 4 = j := by omega
  have hmod : (4 * j + i) % 4 = i := by omega
  rw [getElem_slice, wordBytes, hdiv, hmod, List.getD_eq_getElem _ _ hi']

theorem wordBytes_advance (n : ℕ) :
    (fun i => wordBytes o k (4 * n + i)) = wordBytes o fun j => k (n + j) := by
  funext i
  have hdiv : (4 * n + i) / 4 = n + i / 4 := by omega
  have hmod : (4 * n + i) % 4 = i % 4 := by omega
  rw [wordBytes, wordBytes, hdiv, hmod]

/-- A word of the array, or nothing behind it. -/
theorem load_padded_wordBytes (n j : ℕ) :
    o.load 4 (padded (wordBytes o k) (4 * n)) (4 * j) = if j < n then k j else 0 := by
  split
  · rw [load_padded o (by omega), load_wordBytes]
  · rw [load_padded_zero o (by omega)]

theorem hashTail_wordBytes (n : ℕ) (s : State) :
    hashTail (wordBytes .little k) (4 * n) s = hash2Tail k n s := by
  have hzero : 4 * n = 0 ↔ n = 0 := by omega
  have hadd : ∀ (x : BitVec 32) j,
      x + (if j < n then k j else 0) = if j < n then x + k j else x := by
    intro x j
    split <;> simp
  have h₀ := load_padded_wordBytes .little k n 0
  have h₁ := load_padded_wordBytes .little k n 1
  have h₂ := load_padded_wordBytes .little k n 2
  rw [Nat.mul_zero] at h₀
  rw [Nat.mul_one] at h₁
  rw [hashTail_eq, hash2Tail, h₀, h₁, h₂]
  simp only [addBlock, hzero, hadd]

theorem hashLoop_wordBytes (n : ℕ) (s : State) :
    hashLoop .little (wordBytes .little k) (4 * n) s = hash2Loop k n s := by
  fun_induction hash2Loop k n s with
  | case1 k n s hn ih =>
      have hrest : 4 * n - 12 = 4 * (n - 3) := by omega
      rw [hashLoop, if_pos (by omega), hrest, wordBytes_advance .little k 3, ← ih,
        ← load_wordBytes .little k 0, ← load_wordBytes .little k 1, ← load_wordBytes .little k 2]
  | case2 k n s hn => rw [hashLoop, if_neg (by omega), hashTail_wordBytes]

end Words

/-- **The two functions agree**: on a little-endian machine the hash of the bytes of an array is
that of the array. -/
theorem hash_eq_hash2 (k : ℕ → BitVec 32) {n : ℕ} (h : 4 * n < 2 ^ 32) (initval : BitVec 32) :
    hash .little (wordBytes .little k) (BitVec.ofNat 32 (4 * n)) initval =
      hash2 k (BitVec.ofNat 32 n) initval := by
  have hlen : BitVec.ofNat 32 (4 * n) = BitVec.ofNat 32 n <<< 2 := by
    apply BitVec.eq_of_toNat_eq
    simp [Nat.shiftLeft_eq]
    omega
  have hbytes : (BitVec.ofNat 32 (4 * n)).toNat = 4 * n := Nat.mod_eq_of_lt h
  have hwords : (BitVec.ofNat 32 n).toNat = n := Nat.mod_eq_of_lt (by omega)
  simp only [hash, hashState, hash2, hbytes, hwords, hashLoop_wordBytes, ← hlen]

/-- Four words: one block, and a tail of one. -/
theorem hash_eq_hash2_four :
    hash .little (wordBytes .little fun j => BitVec.ofNat 32 j) (BitVec.ofNat 32 (4 * 4)) 7 =
      hash2 (fun j => BitVec.ofNat 32 j) (BitVec.ofNat 32 4) 7 :=
  hash_eq_hash2 _ (by decide) _

/-! ## Different keys -/

/-- Keys of one length that differ in exactly one of their blocks of twelve bytes. -/
def DifferInOneBlock (length : ℕ) (k k' : ℕ → Byte) : Prop :=
  ∃ i, (∃ p, p < length ∧ p / 12 = i ∧ k p ≠ k' p) ∧ ∀ p, p < length → p / 12 ≠ i → k p = k' p

section Keys
variable {o : Order} {k k' : ℕ → Byte} {length : ℕ} {s : State}

theorem padded_congr (h : ∀ p, p < length → k p = k' p) : padded k length = padded k' length := by
  funext i
  rw [padded, padded]
  split
  · next hi => exact h i hi
  · rfl

theorem hashTail_injective : Function.Injective (hashTail k length) := by
  intro s t h
  rw [hashTail_eq, hashTail_eq] at h
  split at h
  · exact h
  · exact addBlock_left_injective (hashFinal_bijective.injective h)

theorem hashLoop_block (h : 12 < length) (s : State) : hashLoop o k length s =
    hashLoop o (fun i => k (12 + i)) (length - 12)
      (hashMix (addBlock s (o.load 4 k 0) (o.load 4 k 4) (o.load 4 k 8))) := by
  rw [hashLoop, if_pos h]

theorem hashLoop_tail (h : ¬ 12 < length) (s : State) :
    hashLoop o k length s = hashTail k length s := by
  rw [hashLoop, if_neg h]

/-- What is behind a block cannot lose it. -/
theorem hashLoop_injective : Function.Injective (hashLoop o k length) := by
  induction length using Nat.strong_induction_on generalizing k with
  | h length ih =>
      intro s t h
      by_cases hlt : 12 < length
      · rw [hashLoop_block hlt, hashLoop_block hlt] at h
        exact addBlock_left_injective (hashMix_bijective.injective (ih _ (by omega) h))
      · rw [hashLoop_tail hlt, hashLoop_tail hlt] at h
        exact hashTail_injective h

/-- Only the bytes of the key are read. -/
theorem hashLoop_congr (h : ∀ p, p < length → k p = k' p) (s : State) :
    hashLoop o k length s = hashLoop o k' length s := by
  induction length using Nat.strong_induction_on generalizing k k' s with
  | h length ih =>
      by_cases hlt : 12 < length
      · have hload : ∀ off, off + 4 ≤ 12 → o.load 4 k off = o.load 4 k' off := by
          intro off hoff
          rw [Order.load_inj]
          exact slice_congr fun i hi => h _ (by omega)
        rw [hashLoop_block hlt, hashLoop_block hlt, hload 0 (by omega), hload 4 (by omega),
          hload 8 (by omega)]
        exact ih _ (by omega) (fun p hp => h _ (by omega)) _
      · rw [hashLoop_tail hlt, hashLoop_tail hlt, hashTail_eq, hashTail_eq, padded_congr h]

/-- A difference in the last block. -/
theorem hashTail_ne {p : ℕ} (hp : p < length) (hle : length ≤ 12) (hne : k p ≠ k' p) :
    hashTail k length s ≠ hashTail k' length s := by
  intro h
  rw [hashTail_eq, hashTail_eq, if_neg (by omega), if_neg (by omega)] at h
  have hbytes := addBlock_load_inj (hashFinal_bijective.injective h) p (by omega)
  rw [padded, padded, if_pos hp, if_pos hp] at hbytes
  exact hne hbytes

theorem hashLoop_ne (h : DifferInOneBlock length k k') (s : State) :
    hashLoop o k length s ≠ hashLoop o k' length s := by
  induction length using Nat.strong_induction_on generalizing k k' s with
  | h length ih =>
      rcases h with ⟨i, ⟨p, hp, hpi, hne⟩, hothers⟩
      by_cases hlt : 12 < length
      · rw [hashLoop_block hlt, hashLoop_block hlt]
        by_cases hi : i = 0
        · -- the first block: the states differ behind it, and the rest is the same
          have hrest : ∀ q, q < length - 12 → k (12 + q) = k' (12 + q) := fun q hq =>
            hothers (12 + q) (by omega) (by omega)
          rw [hashLoop_congr hrest]
          intro heq
          have hblock := hashMix_bijective.injective (hashLoop_injective heq)
          exact hne (addBlock_load_inj hblock p (by omega))
        · -- a later block: the state behind the first is the same
          have hload : ∀ off, off + 4 ≤ 12 → o.load 4 k off = o.load 4 k' off := by
            intro off hoff
            rw [Order.load_inj]
            exact slice_congr fun j hj => hothers _ (by omega) (by omega)
          have hp12 : 12 + (p - 12) = p := by omega
          rw [hload 0 (by omega), hload 4 (by omega), hload 8 (by omega)]
          refine ih _ (by omega) ⟨i - 1, ⟨p - 12, by omega, by omega, ?_⟩, ?_⟩ _
          · rwa [hp12]
          · exact fun q hq hqi => hothers (12 + q) (by omega) (by omega)
      · rw [hashLoop_tail hlt, hashLoop_tail hlt]
        exact hashTail_ne hp (by omega) hne

end Keys

/-- **No block is lost**: mixing is a bijection, and keys of one length that differ in exactly one
block leave different states. -/
theorem hashState_ne (o : Order) (length initval : BitVec 32) {k k' : ℕ → Byte}
    (h : DifferInOneBlock length.toNat k k') :
    hashState o k length initval ≠ hashState o k' length initval ∧
      Function.Bijective hashMix ∧ Function.Bijective hashFinal :=
  ⟨hashLoop_ne h _, hashMix_bijective, hashFinal_bijective⟩

/-- Keys of fourteen bytes that differ in the last one. -/
theorem hashState_ne_last :
    hashState .little (fun _ => 0) 14 7 ≠
        hashState .little (fun i => if i = 13 then 1 else 0) 14 7 ∧
      Function.Bijective hashMix ∧ Function.Bijective hashFinal :=
  hashState_ne .little 14 7 ⟨1, ⟨13, by decide, by decide, by decide⟩, fun p hp hne => by
    have hlt : p < 14 := hp
    have h13 : p ≠ 13 := by
      rintro rfl
      exact hne rfl
    exact (if_neg h13).symm⟩

end Kylin.Khash
