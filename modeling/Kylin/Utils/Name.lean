import Mathlib.Data.List.Basic
import Mathlib.Tactic.Common

/-!
# Names

Objects are named by buffers of `KYLIN_NAME_LENGTH` bytes (`include/utils/kylin_limit.h`).
Buffers are compared as a whole, and read as strings up to the first zero.  A string that
leaves room for the zero and is padded with zeros is told apart from every other one
both ways.

## Main definitions

* `pad`, `str` — from a string to its buffer and back.
* `Fits` — the strings for which this works.
-/

namespace Kylin

/-- `KYLIN_NAME_LENGTH`. -/
def nameLength : ℕ := 64

/-- The byte that ends a string. -/
def nul : Char := Char.ofNat 0

/-- A name buffer: a string and zeros up to `KYLIN_NAME_LENGTH`. -/
def pad (s : List Char) : List Char := s ++ List.replicate (nameLength - s.length) nul

/-- The string at the start of a buffer. -/
def str (buf : List Char) : List Char := buf.takeWhile (· ≠ nul)

/-- A string that fits a name buffer. -/
def Fits (s : List Char) : Prop := s.length < nameLength ∧ nul ∉ s

instance (s : List Char) : Decidable (Fits s) := inferInstanceAs (Decidable (_ ∧ _))

/-- `memcpy(buf, name, KYLIN_MIN(strlen(name), KYLIN_NAME_LENGTH - 1))`. -/
def copyName (buf name : List Char) : List Char :=
  name.take (nameLength - 1) ++ buf.drop (name.take (nameLength - 1)).length

section Names
variable {a b : List Char}

theorem str_pad (ha : Fits a) : str (pad a) = a := by
  have hne : ∀ c ∈ a, (decide (c ≠ nul)) = true := by
    intro c hc
    rw [decide_eq_true_eq]
    rintro rfl
    exact ha.2 hc
  rw [str, pad, List.takeWhile_append_of_pos hne, List.takeWhile_replicate]
  simp

theorem pad_inj (ha : Fits a) (hb : Fits b) : pad a = pad b ↔ a = b := by
  constructor
  · intro h
    rw [← str_pad ha, h, str_pad hb]
  · rintro rfl
    rfl

theorem take_name (ha : Fits a) : a.take (nameLength - 1) = a :=
  List.take_of_length_le (Nat.le_sub_one_of_lt ha.1)

end Names

end Kylin
