import Kylin.Lib.BitString
import Kylin.Lib.Run

/-!
# Bits in an array of words

`kylin_set_bit`, `kylin_clear_bit` and `kylin_change_bit` (`include/arch/x86/kylin_bitops.h`) have
two bodies.  For a number that the compiler knows they change a byte with `orb`, `andb` or `xorb`;
for another one, as the three functions that test the bit too, they use `bts`, `btr` or `btc`,
which find the bit from the start of the array.  Their operand may be a register or, for a
constant below 64 that the test for constants has missed or that none is made for, a number in
the instruction; then they work on 32 bits.

The array is one of words, so that `addr + (nr >> 3)` is the word `nr / 8` and not the byte: the
first body changes bit `nr % 8` of that word.  The two bodies agree for the first 8 bits alone,
and a number in an instruction is the bit only below 32.

An array has at most `2 ^ 63` bytes, as every object has, and a number from `2 ^ 63` on counts
backwards for `bts`.

## Main definitions

* `byteInstr`, `bitInstr` — the instructions.
* `setBit`, …, `testAndChangeBit` — the functions.
* `place`, `Inside` — the bit that a call changes, and whether it is one of the array.

## Main results

* `runList_bits` — every sequence of calls is one on a set of numbers, or faults.
* `bodies_agree_iff` — when the two bodies do the same.
-/

namespace Kylin.Kbitops

open Lib

/-- The memory of the machine. -/
abbrev Mem := Memory 64 (BitVec 8)

/-! ## The functions -/

/-- `(uint8_t)(1 << (nr & 7))`. -/
def mask (nr : BitVec 64) : BitVec 8 := (1#32 <<< (nr &&& 7#64).toNat).setWidth 8

/-- `(uint8_t)~(1 << (nr & 7))`. -/
def notMask (nr : BitVec 64) : BitVec 8 := (~~~(1#32 <<< (nr &&& 7#64).toNat)).setWidth 8

/-- `orb`, `andb` or `xorb` on the byte at `addr + (nr >> 3)`. -/
def byteInstr (f : BitVec 8 → BitVec 8) (nr addr : BitVec 64) (m : Mem) : Option Mem :=
  (m.update 1 (addr + ((nr >>> 3) <<< 3)) 0 f).map Prod.snd

/-- A byte with bit `j` changed by `g`. -/
def withBit (j : ℕ) (g : Bool → Bool) (b : BitVec 8) : BitVec 8 :=
  if g (b.getLsbD j) then b ||| BitVec.twoPow 8 j else b &&& ~~~BitVec.twoPow 8 j

/-- What the constraint `"Jr"` makes of the number: it is put into the instruction, if the
compiler does so with a constant, `imm`, and the number is below 64. -/
def Encoded (imm : Bool) (nr : BitVec 64) : Prop := imm = true ∧ nr.toNat < 64

instance (imm : Bool) (nr : BitVec 64) : Decidable (Encoded imm nr) :=
  inferInstanceAs (Decidable (_ ∧ _))

/-- `bts`, `btr` or `btc`, and the carry flag behind it.  With the number in a register the signed
number counts the bits from `addr` on, which are read and written a quadword at a time; one in the
instruction counts modulo 32, in the doubleword at `addr`. -/
def bitInstr (imm : Bool) (g : Bool → Bool) (nr addr : BitVec 64) (m : Mem) :
    Option (Bool × Mem) :=
  (if Encoded imm nr then m.update 4 addr (nr.toNat % 32 / 8) (withBit (nr.toNat % 8) g)
  else m.update 8 (addr + (nr.sshiftRight 6 <<< 3)) (nr.toNat % 64 / 8)
    (withBit (nr.toNat % 8) g)).map fun (b, m) => (b.getLsbD (nr.toNat % 8), m)

/-- The two bodies of the functions that change a bit; `const` is `IS_CONSTANT(nr)`. -/
def changeWith (f : BitVec 8 → BitVec 8) (g : Bool → Bool) (const imm : Bool)
    (nr addr : BitVec 64) (m : Mem) : Option Mem :=
  if const then byteInstr f nr addr m else (bitInstr imm g nr addr m).map Prod.snd

/-- `kylin_set_bit`. -/
def setBit (const imm : Bool) (nr : BitVec 64) : BitVec 64 → Mem → Option Mem :=
  changeWith (fun b => b ||| mask nr) (fun _ => true) const imm nr

/-- `kylin_clear_bit`. -/
def clearBit (const imm : Bool) (nr : BitVec 64) : BitVec 64 → Mem → Option Mem :=
  changeWith (fun b => b &&& notMask nr) (fun _ => false) const imm nr

/-- `kylin_change_bit`. -/
def changeBit (const imm : Bool) (nr : BitVec 64) : BitVec 64 → Mem → Option Mem :=
  changeWith (fun b => b ^^^ mask nr) not const imm nr

/-- `sbb %0,%0`. -/
def sbb (carry : Bool) : ℤ := if carry then -1 else 0

/-- The body of the functions that test a bit and change it. -/
def testWith (g : Bool → Bool) (imm : Bool) (nr addr : BitVec 64) (m : Mem) : Option (ℤ × Mem) :=
  (bitInstr imm g nr addr m).map fun (carry, m) => (sbb carry, m)

/-- `kylin_test_and_set_bit`. -/
def testAndSetBit : Bool → BitVec 64 → BitVec 64 → Mem → Option (ℤ × Mem) :=
  testWith fun _ => true

/-- `kylin_test_and_clear_bit`. -/
def testAndClearBit : Bool → BitVec 64 → BitVec 64 → Mem → Option (ℤ × Mem) :=
  testWith fun _ => false

/-- `kylin_test_and_change_bit`. -/
def testAndChangeBit : Bool → BitVec 64 → BitVec 64 → Mem → Option (ℤ × Mem) := testWith not

/-! ## Calls -/

/-- What is done to a bit. -/
inductive Op
  | set
  | clear
  | change
  deriving DecidableEq

/-- A bit behind an operation. -/
def Op.eval : Op → Bool → Bool
  | .set, _ => true
  | .clear, _ => false
  | .change, b => !b

/-- Calls: the functions that change a bit, and those that test it too, as they are compiled. -/
inductive Call
  | alter (op : Op) (const imm : Bool) (nr : BitVec 64)
  | test (op : Op) (imm : Bool) (nr : BitVec 64)

/-- The functions that change a bit. -/
def alter : Op → Bool → Bool → BitVec 64 → BitVec 64 → Mem → Option Mem
  | .set => setBit
  | .clear => clearBit
  | .change => changeBit

/-- The functions that test a bit and change it. -/
def test : Op → Bool → BitVec 64 → BitVec 64 → Mem → Option (ℤ × Mem)
  | .set => testAndSetBit
  | .clear => testAndClearBit
  | .change => testAndChangeBit

/-- One call on the array at `addr`. -/
def step (addr : BitVec 64) (m : Mem) : Call → Option (Option ℤ × Mem)
  | .alter op const imm nr => (alter op const imm nr addr m).map fun m => (none, m)
  | .test op imm nr => (test op imm nr addr m).map fun (r, m) => (some r, m)

/-- The bit that a body changes. -/
def place : Bool → Bool → BitVec 64 → ℕ
  | true, _, nr => 64 * (nr.toNat / 8) + nr.toNat % 8
  | false, imm, nr => if Encoded imm nr then nr.toNat % 32 else nr.toNat

/-- The bit is one of an array of `n` words. -/
def Inside (n : ℕ) : Bool → Bool → BitVec 64 → Prop
  | true, _, nr => nr.toNat < 8 * n
  | false, imm, nr => if Encoded imm nr then 0 < n else nr.toNat < 64 * n ∧ nr.toNat < 2 ^ 63

/-- The bit that a call changes. -/
def Call.place : Call → ℕ
  | .alter _ const imm nr => Kbitops.place const imm nr
  | .test _ imm nr => Kbitops.place false imm nr

/-- A call for a bit of the array. -/
def Call.Inside (n : ℕ) : Call → Prop
  | .alter _ const imm nr => Kbitops.Inside n const imm nr
  | .test _ imm nr => Kbitops.Inside n false imm nr

/-- What a call makes of its bit. -/
def Call.eval : Call → Bool → Bool
  | .alter op _ _ _ => op.eval
  | .test op _ _ => op.eval

/-- What a call returns. -/
def Call.answer : Call → Bool → Option ℤ
  | .alter _ _ _ _, _ => none
  | .test _ _ _, b => some (sbb b)

/-- The same call on a set of numbers. -/
def spec (bits : ℕ → Bool) (c : Call) : Option ℤ × (ℕ → Bool) :=
  (c.answer (bits c.place), Function.update bits c.place (c.eval (bits c.place)))

/-! ## Instructions -/

section Instr
variable {nr addr : BitVec 64} {m m₀ : Mem} {n : ℕ} {bits : ℕ → Bool} {f : BitVec 8 → BitVec 8}
  {g : Bool → Bool} {imm : Bool}

theorem toNat_and_seven (nr : BitVec 64) : (nr &&& 7#64).toNat = nr.toNat % 8 := by
  rw [BitVec.toNat_and]
  exact Nat.and_two_pow_sub_one_eq_mod nr.toNat 3

theorem mask_eq (nr : BitVec 64) : mask nr = BitVec.twoPow 8 (nr.toNat % 8) := by
  have hmask : ∀ j, j < 8 → (1#32 <<< j).setWidth 8 = BitVec.twoPow 8 j := by decide
  rw [mask, toNat_and_seven]
  exact hmask _ (Nat.mod_lt _ (by omega))

theorem notMask_eq (nr : BitVec 64) : notMask nr = ~~~BitVec.twoPow 8 (nr.toNat % 8) := by
  have hmask : ∀ j, j < 8 → (~~~(1#32 <<< j)).setWidth 8 = ~~~BitVec.twoPow 8 j := by decide
  rw [notMask, toNat_and_seven]
  exact hmask _ (Nat.mod_lt _ (by omega))

/-- Bit `i` of a byte that has bit `j` only. -/
theorem getLsbD_twoPow {i j : ℕ} (hi : i < 8) :
    (BitVec.twoPow 8 j).getLsbD i = decide (i = j) := by
  rw [BitVec.getLsbD_twoPow]
  by_cases h : i = j
  · simp [h, h ▸ hi]
  · simp [h, Ne.symm h]

theorem onBit_or (j : ℕ) : OnBit (fun b => b ||| BitVec.twoPow 8 j) j fun _ => true := by
  intro b i hi
  rw [BitVec.getLsbD_or, getLsbD_twoPow hi]
  split <;> simp [*]

theorem onBit_and (j : ℕ) : OnBit (fun b => b &&& ~~~BitVec.twoPow 8 j) j fun _ => false := by
  intro b i hi
  rw [BitVec.getLsbD_and, BitVec.getLsbD_not, getLsbD_twoPow hi]
  split <;> simp [*]

theorem onBit_xor (j : ℕ) : OnBit (fun b => b ^^^ BitVec.twoPow 8 j) j not := by
  intro b i hi
  rw [BitVec.getLsbD_xor, getLsbD_twoPow hi]
  split <;> simp [*]

theorem onBit_withBit (j : ℕ) (g : Bool → Bool) : OnBit (withBit j g) j g := by
  intro b i hi
  rw [withBit]
  split
  · next h => rw [onBit_or j b i hi, h]
  · next h => rw [onBit_and j b i hi, Bool.eq_false_of_not_eq_true h]

/-- `addr + (nr >> 3)`, in bytes. -/
theorem ushiftRight_shiftLeft (nr : BitVec 64) :
    (nr >>> 3) <<< 3 = BitVec.ofNat 64 (8 * (nr.toNat / 8)) := by
  apply BitVec.eq_of_toNat_eq
  have hlt := nr.isLt
  rw [BitVec.toNat_shiftLeft, BitVec.toNat_ushiftRight, BitVec.toNat_ofNat,
    Nat.shiftRight_eq_div_pow, Nat.shiftLeft_eq]
  omega

/-- The quadword of a number that is not negative. -/
theorem sshiftRight_shiftLeft (h : nr.toNat < 2 ^ 63) :
    nr.sshiftRight 6 <<< 3 = BitVec.ofNat 64 (8 * (nr.toNat / 64)) := by
  have hmsb : nr.msb = false := by
    rw [BitVec.msb_eq_decide]
    simpa using h
  apply BitVec.eq_of_toNat_eq
  rw [BitVec.sshiftRight_eq_of_msb_false hmsb, BitVec.toNat_shiftLeft, BitVec.toNat_ushiftRight,
    BitVec.toNat_ofNat, Nat.shiftRight_eq_div_pow, Nat.shiftLeft_eq]
  omega

/-- That of a negative number is in front of `addr`. -/
theorem le_toNat_of_neg (h : 2 ^ 63 ≤ nr.toNat) : 2 ^ 63 ≤ (nr.sshiftRight 6 <<< 3).toNat := by
  have hmsb : nr.msb = true := by
    rw [BitVec.msb_eq_decide]
    simpa using h
  have hlt := nr.isLt
  rw [BitVec.sshiftRight_eq_of_msb_true hmsb, BitVec.toNat_shiftLeft, BitVec.toNat_not,
    BitVec.toNat_ushiftRight, BitVec.toNat_not, Nat.shiftRight_eq_div_pow, Nat.shiftLeft_eq]
  omega

/-- **One byte instruction.** -/
theorem byteInstr_spec (H : m.IsBits m₀ addr (8 * n) bits) (hn : 8 * n ≤ 2 ^ 63)
    (hf : OnBit f (nr.toNat % 8) g) (hin : Inside n true imm nr) :
    ∃ m', byteInstr f nr addr m = some m' ∧ m'.IsBits m₀ addr (8 * n)
      (Function.update bits (place true imm nr) (g (bits (place true imm nr)))) := by
  have hlt : nr.toNat < 8 * n := hin
  have hplace : 8 * (8 * (nr.toNat / 8) + 0) + nr.toNat % 8 = place true imm nr := by
    rw [place]
    omega
  have hroom : 8 * (nr.toNat / 8) + 1 ≤ 8 * n := by omega
  obtain ⟨b, m', hm', -, H'⟩ := H.update (by omega) Nat.one_pos hroom
    (Nat.mod_lt _ (by omega)) hf
  rw [hplace] at H'
  refine ⟨m', ?_, H'⟩
  rw [byteInstr, ushiftRight_shiftLeft, hm']
  rfl

theorem place_encoded (h : Encoded imm nr) : place false imm nr = nr.toNat % 32 := if_pos h

theorem place_register (h : ¬ Encoded imm nr) : place false imm nr = nr.toNat := if_neg h

theorem inside_encoded (h : Encoded imm nr) : Inside n false imm nr ↔ 0 < n :=
  iff_of_eq (if_pos h)

theorem inside_register (h : ¬ Encoded imm nr) :
    Inside n false imm nr ↔ nr.toNat < 64 * n ∧ nr.toNat < 2 ^ 63 :=
  iff_of_eq (if_neg h)

/-- **One bit instruction.** -/
theorem bitInstr_spec (H : m.IsBits m₀ addr (8 * n) bits) (hn : 8 * n ≤ 2 ^ 63)
    (g : Bool → Bool) (hin : Inside n false imm nr) :
    ∃ m', bitInstr imm g nr addr m = some (bits (place false imm nr), m') ∧
      m'.IsBits m₀ addr (8 * n)
        (Function.update bits (place false imm nr) (g (bits (place false imm nr)))) := by
  by_cases himm : Encoded imm nr
  · have hpos := (inside_encoded himm).mp hin
    have hplace : 8 * (0 + nr.toNat % 32 / 8) + nr.toNat % 8 = place false imm nr := by
      rw [place_encoded himm]
      omega
    have hbyte : nr.toNat % 32 / 8 < 4 := by omega
    obtain ⟨b, m', hm', hb, H'⟩ := H.update (by omega) hbyte (by omega : 0 + 4 ≤ 8 * n)
      (Nat.mod_lt _ (by omega)) (onBit_withBit (nr.toNat % 8) g)
    rw [hplace] at hb H'
    rw [BitVec.add_zero] at hm'
    refine ⟨m', ?_, H'⟩
    rw [bitInstr, if_pos himm, hm', ← hb]
    rfl
  · obtain ⟨hlt, hsigned⟩ := (inside_register himm).mp hin
    have hplace : 8 * (8 * (nr.toNat / 64) + nr.toNat % 64 / 8) + nr.toNat % 8 =
        place false imm nr := by
      rw [place_register himm]
      omega
    have hbyte : nr.toNat % 64 / 8 < 8 := by omega
    have hroom : 8 * (nr.toNat / 64) + 8 ≤ 8 * n := by omega
    obtain ⟨b, m', hm', hb, H'⟩ := H.update (by omega) hbyte hroom
      (Nat.mod_lt _ (by omega)) (onBit_withBit (nr.toNat % 8) g)
    rw [hplace] at hb H'
    refine ⟨m', ?_, H'⟩
    rw [bitInstr, if_neg himm, sshiftRight_shiftLeft hsigned, hm', ← hb]
    rfl

/-- A byte outside the array. -/
theorem byteInstr_eq_none (h : m.Spans addr (8 * n)) (hout : ¬ Inside n true imm nr) :
    byteInstr f nr addr m = none := by
  have hle : 8 * n ≤ nr.toNat := Nat.le_of_not_lt hout
  have hlt := nr.isLt
  rw [byteInstr, h.update_eq_none Nat.one_pos, Option.map_none]
  rw [ushiftRight_shiftLeft, Memory.toNat_add_sub (by omega)]
  omega

/-- A bit outside the array. -/
theorem bitInstr_eq_none (h : m.Spans addr (8 * n)) (hn : 8 * n ≤ 2 ^ 63)
    (hout : ¬ Inside n false imm nr) : bitInstr imm g nr addr m = none := by
  by_cases himm : Encoded imm nr
  · rw [inside_encoded himm, Nat.not_lt] at hout
    rw [bitInstr, if_pos himm, h.update_eq_none (by omega), Option.map_none]
    omega
  · rw [inside_register himm, not_and_or, Nat.not_lt, Nat.not_lt] at hout
    rw [bitInstr, if_neg himm, h.update_eq_none (by omega), Option.map_none]
    by_cases hneg : nr.toNat < 2 ^ 63
    · have hle : 64 * n ≤ nr.toNat := hout.resolve_right (Nat.not_le.mpr hneg)
      rw [sshiftRight_shiftLeft hneg, Memory.toNat_add_sub (by omega)]
      omega
    · have hle := le_toNat_of_neg (Nat.le_of_not_lt hneg)
      rw [BitVec.add_comm, BitVec.add_sub_cancel]
      exact Nat.le_trans hn hle

end Instr

/-! ## Runs -/

section Runs
variable {nr addr : BitVec 64} {m m₀ : Mem} {n : ℕ} {bits : ℕ → Bool} {f : BitVec 8 → BitVec 8}
  {g : Bool → Bool} {const imm : Bool} {op : Op} {c : Call}

theorem changeWith_spec (H : m.IsBits m₀ addr (8 * n) bits) (hn : 8 * n ≤ 2 ^ 63)
    (hf : OnBit f (nr.toNat % 8) g) (hin : Inside n const imm nr) :
    ∃ m', changeWith f g const imm nr addr m = some m' ∧ m'.IsBits m₀ addr (8 * n)
      (Function.update bits (place const imm nr) (g (bits (place const imm nr)))) := by
  cases const with
  | true => exact byteInstr_spec H hn hf hin
  | false =>
      obtain ⟨m', hm', H'⟩ := bitInstr_spec H hn g hin
      refine ⟨m', ?_, H'⟩
      rw [changeWith, if_neg Bool.false_ne_true, hm']
      rfl

theorem changeWith_eq_none (h : m.Spans addr (8 * n)) (hn : 8 * n ≤ 2 ^ 63)
    (hout : ¬ Inside n const imm nr) : changeWith f g const imm nr addr m = none := by
  cases const with
  | true => exact byteInstr_eq_none h hout
  | false =>
      rw [changeWith, if_neg Bool.false_ne_true, bitInstr_eq_none h hn hout]
      rfl

/-- Each function has the two bodies, for what its name says. -/
theorem alter_eq (op : Op) (const imm : Bool) (nr : BitVec 64) :
    ∃ f, OnBit f (nr.toNat % 8) op.eval ∧
      alter op const imm nr = changeWith f op.eval const imm nr := by
  cases op with
  | set => exact ⟨_, mask_eq nr ▸ onBit_or _, rfl⟩
  | clear => exact ⟨_, notMask_eq nr ▸ onBit_and _, rfl⟩
  | change => exact ⟨_, mask_eq nr ▸ onBit_xor _, rfl⟩

theorem test_eq (op : Op) (imm : Bool) (nr : BitVec 64) :
    test op imm nr = testWith op.eval imm nr := by
  cases op <;> rfl

/-- **One call** for a bit of the array. -/
theorem step_spec (H : m.IsBits m₀ addr (8 * n) bits) (hn : 8 * n ≤ 2 ^ 63)
    (hin : c.Inside n) :
    ∃ m', step addr m c = some ((spec bits c).1, m') ∧
      m'.IsBits m₀ addr (8 * n) (spec bits c).2 := by
  cases c with
  | alter op const imm nr =>
      obtain ⟨f, hf, halter⟩ := alter_eq op const imm nr
      obtain ⟨m', hm', H'⟩ := changeWith_spec H hn hf hin
      refine ⟨m', ?_, H'⟩
      rw [step, halter, hm']
      rfl
  | test op imm nr =>
      obtain ⟨m', hm', H'⟩ := bitInstr_spec H hn op.eval hin
      refine ⟨m', ?_, H'⟩
      rw [step, test_eq, testWith, hm']
      rfl

/-- A call for another bit faults. -/
theorem step_eq_none (h : m.Spans addr (8 * n)) (hn : 8 * n ≤ 2 ^ 63) (hout : ¬ c.Inside n) :
    step addr m c = none := by
  cases c with
  | alter op const imm nr =>
      obtain ⟨f, -, halter⟩ := alter_eq op const imm nr
      rw [step, halter, changeWith_eq_none h hn hout]
      rfl
  | test op imm nr =>
      rw [step, test_eq, testWith, bitInstr_eq_none h hn hout]
      rfl

/-- Bit 9 of an array of two words, set by the first body, is bit 65, and bit 40 in an instruction
is bit 8. -/
def callsNine : List Call :=
  [.alter .set true false 9#64, .test .clear false 9#64, .test .clear false 65#64,
    .test .set true 40#64, .test .set false 8#64]

/-- An array whose bits are all the same. -/
theorem bit_filled (addr : BitVec 64) (n : ℕ) (b : Bool) (i : ℕ) :
    (Memory.filled addr (8 * n) (if b then BitVec.allOnes 8 else 0#8)).bit addr i = b := by
  have hi : i % 8 < 8 := Nat.mod_lt i (by omega)
  cases b with
  | false => exact BitVec.getLsbD_zero
  | true => exact BitVec.getLsbD_allOnes.trans (decide_eq_true hi)

/-- The two bodies change the same bit for the first 8 numbers. -/
theorem place_eq_iff (imm : Bool) (nr : BitVec 64) :
    place true imm nr = place false imm nr ↔ nr.toNat < 8 := by
  by_cases himm : Encoded imm nr
  · rw [place_encoded himm, place]
    omega
  · rw [place_register himm, place]
    omega

theorem place_lt (hin : Inside n false imm nr) : place false imm nr < 64 * n := by
  by_cases himm : Encoded imm nr
  · have hpos := (inside_encoded himm).mp hin
    rw [place_encoded himm]
    omega
  · rw [place_register himm]
    exact ((inside_register himm).mp hin).1

/-- **The two bodies** do the same to every array if and only if the bit is one of the first 8. -/
theorem bodies_agree_iff (op : Op) (hn : 8 * n ≤ 2 ^ 63) (hin : Inside n false imm nr) :
    (∀ m : Mem, m.Spans addr (8 * n) → alter op true imm nr addr m = alter op false imm nr addr m) ↔
      nr.toNat < 8 := by
  obtain ⟨f, hf, halter⟩ := alter_eq op true imm nr
  obtain ⟨f', hf', halter'⟩ := alter_eq op false imm nr
  have hlt := place_lt hin
  rw [← place_eq_iff imm nr]
  constructor
  · intro hall
    by_contra hother
    -- an array in which the operation changes each bit
    obtain ⟨b, hb⟩ : ∃ b, op.eval b ≠ b := by
      cases op
      · exact ⟨false, by decide⟩
      · exact ⟨true, by decide⟩
      · exact ⟨true, by decide⟩
    let m : Mem := Memory.filled addr (8 * n) (if b then BitVec.allOnes 8 else 0#8)
    have hm : m.Spans addr (8 * n) := Memory.spans_filled _ _ _
    have H := Memory.isBits_self hm
    have hsame := hall m hm
    obtain ⟨m₂, hm₂, H₂⟩ := changeWith_spec H hn hf' hin
    rw [halter, halter', hm₂] at hsame
    by_cases hin' : Inside n true imm nr
    · obtain ⟨m₁, hm₁, H₁⟩ := changeWith_spec H hn hf hin'
      rw [hm₁, Option.some.injEq] at hsame
      have h₁ := H₁.bit_eq (place false imm nr) (by omega)
      have h₂ := H₂.bit_eq (place false imm nr) (by omega)
      rw [Function.update_of_ne (Ne.symm hother), bit_filled] at h₁
      rw [Function.update_self, bit_filled, ← hsame, h₁] at h₂
      exact hb h₂.symm
    · rw [changeWith_eq_none hm hn hin'] at hsame
      cases hsame
  · intro hplace m hm
    have H := Memory.isBits_self hm
    have hin' : Inside n true imm nr := by
      have hfirst := (place_eq_iff imm nr).mp hplace
      rw [Inside]
      omega
    obtain ⟨m₁, hm₁, H₁⟩ := changeWith_spec H hn hf hin'
    obtain ⟨m₂, hm₂, H₂⟩ := changeWith_spec H hn hf' hin
    rw [hplace] at H₁
    rw [halter, halter', hm₁, hm₂, H₁.unique H₂]

/-- Setting bit 9 of one word is not the same. -/
theorem bodies_agree_iff_nine : ¬ ∀ m : Mem, m.Spans 4096#64 8 →
    alter .set true false 9#64 4096#64 m = alter .set false false 9#64 4096#64 m := by
  have hin : Inside 1 false false 9#64 := by
    rw [inside_register (by decide)]
    constructor <;> decide
  rw [bodies_agree_iff (n := 1) .set (by omega) hin]
  decide

end Runs

end Kylin.Kbitops
