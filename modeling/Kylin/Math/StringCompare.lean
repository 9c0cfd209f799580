import Kylin.Lib.Compare
import Kylin.Math.StringCat

/-!
# Comparing strings

`kylin_strcmp` and `kylin_strcmp_raw` (`lib/core/math/kylin_string.c`) compare the bytes that
both strings have, and not their lengths: a string is equal to all that begin with it.

## Main definitions

* `Kstr.strcmp`, `Kstr.strcmpRaw` — the functions.
* `Kstr.Compares` — what comparison is for.

## Main results

* `Kstr.strcmp_spec`, `Kstr.strcmpRaw_spec` — what the functions return.
* `Kstr.compares_iff` — the strings for which this is an order.
-/

namespace Kylin.Kstr

open Lib

/-- `kylin_strcmp`. -/
def strcmp (s1 s2 : Kstr) : Option ℤ := do
  let x ← s1.val.read 0 (min s1.used s2.used)
  let y ← s2.val.read 0 (min s1.used s2.used)
  some (memcmp x y)

/-- `kylin_strcmp_raw`. -/
def strcmpRaw (s1 : Kstr) (s2 : CString) : Option ℤ := do
  let x ← s1.val.read 0 (min s1.used s2.len)
  some (memcmp x (s2.chars.take (min s1.used s2.len)))

/-- **What comparison is for**: strings are ordered by their bytes and lengths, and a C string
with the bytes of a string compares as it does. -/
structure Compares (a b c : Kstr) (t : CString) : Prop where
  eq : ∃ r, strcmp a b = some r ∧ (r = 0 ↔ a.content = b.content)
  swap : ∃ r r', strcmp a b = some r ∧ strcmp b a = some r' ∧ r.sign = -r'.sign
  trans : ∃ x y z, strcmp a b = some x ∧ strcmp b c = some y ∧ strcmp a c = some z ∧
    (x ≤ 0 → y ≤ 0 → z ≤ 0)
  raw : b.content = t.chars →
    ∃ r r', strcmpRaw a t = some r ∧ strcmp a b = some r' ∧ r.sign = r'.sign

section Compare
variable {a b c : Kstr} {t : CString}

/-- The bytes that both strings have are compared. -/
theorem strcmp_spec (Ha : a.Room) (Hb : b.Room) :
    strcmp a b = some (memcmp a.content b.content) := by
  rw [strcmp, Ha.read (Nat.min_le_left _ _), Hb.read (Nat.min_le_right _ _)]
  apply congrArg some
  apply memcmp_take
  rw [length_content, length_content]

theorem strcmpRaw_spec (Ha : a.Room) (t : CString) :
    strcmpRaw a t = some (memcmp a.content t.chars) := by
  rw [strcmpRaw, Ha.read (Nat.min_le_left _ _)]
  apply congrArg some
  apply memcmp_take
  rw [length_content]
  exact le_rfl

/-- **When comparison is an order**: the strings are equal, or neither begins with the
other. -/
theorem compares_iff (Ha : a.Room) (Hb : b.Room) (Hc : c.Room) :
    Compares a b c t ↔
      a.content = b.content ∨ ¬ a.content <+: b.content ∧ ¬ b.content <+: a.content := by
  have hab := strcmp_spec Ha Hb
  have heq : (memcmp a.content b.content = 0 ↔ a.content = b.content) ↔
      a.content = b.content ∨ ¬ a.content <+: b.content ∧ ¬ b.content <+: a.content := by
    rw [memcmp_eq_zero_iff, ← not_or]
    by_cases h : a.content = b.content
    · rw [h]
      simp
    · simp [h]
  rw [← heq]
  constructor
  · intro h
    rcases h.eq with ⟨r, hr, hiff⟩
    rw [hab] at hr
    cases hr
    exact hiff
  · intro h
    refine ⟨⟨_, hab, h⟩, ⟨_, _, hab, strcmp_spec Hb Ha, ?_⟩,
      ⟨_, _, _, hab, strcmp_spec Hb Hc, strcmp_spec Ha Hc, ?_⟩, fun hraw => ?_⟩
    · rw [memcmp_swap, Int.sign_neg]
    · apply memcmp_trans
      by_cases hzero : memcmp a.content b.content = 0
      · exact Or.inl (h.mp hzero)
      · exact Or.inr hzero
    · refine ⟨_, _, strcmpRaw_spec Ha t, hab, ?_⟩
      rw [hraw]

end Compare

/-- A string of characters, in a block of its length. -/
def ofChars (chars : List Byte) : Kstr :=
  ⟨⟨chars.length⟩, chars.length, ⟨chars.length + 1, fun i => chars.getD i 0⟩⟩

theorem room_ofChars {chars : List Byte} (h : chars.length < 2 ^ 64) : (ofChars chars).Room :=
  ⟨h, rfl, le_rfl⟩

/-- Three strings that differ in their first byte. -/
theorem compares_iff_letters :
    Compares (ofChars [97, 98]) (ofChars [98]) (ofChars [99]) (letters 1) :=
  (compares_iff (room_ofChars (by decide)) (room_ofChars (by decide))
    (room_ofChars (by decide))).mpr (Or.inr (by decide))

/-- The empty string is equal to all others, and so between any two. -/
theorem not_compares_empty :
    strcmp (ofChars []) (ofChars [97]) = some 0 ∧
      strcmp (ofChars [98]) (ofChars []) = some 0 ∧
      strcmp (ofChars [98]) (ofChars [97]) = some 1 ∧
      ∀ t, ¬ Compares (ofChars [98]) (ofChars []) (ofChars [97]) t := by
  refine ⟨by decide, by decide, by decide, fun t h => ?_⟩
  rcases h.eq with ⟨r, hr, hiff⟩
  have hzero : strcmp (ofChars [98]) (ofChars []) = some 0 := by decide
  rw [hzero] at hr
  cases hr
  exact absurd (hiff.mp rfl) (by decide)

end Kylin.Kstr
