import Mathlib.Data.Int.Notation
import Mathlib.Data.Int.Order.Basic
import Mathlib.Data.List.Infix
import Mathlib.Tactic.Common

/-!
# Comparing arrays of bytes

`memcmp` of two arrays, of which only the sign is specified: that of the difference of the
first two bytes that are not the same.  It is stated for lists of any lengths and looks at no
more than the shorter has; there it finds no difference exactly when one list begins with the
other.

## Main definitions

* `memcmp` — the difference.

## Main results

* `memcmp_eq_zero_iff` — when there is none.
* `memcmp_swap`, `memcmp_trans` — as in an order.
-/

namespace Lib

/-- The difference of the first two bytes that differ. -/
def memcmp : List UInt8 → List UInt8 → ℤ
  | x :: xs, y :: ys => if x = y then memcmp xs ys else (x.toNat : ℤ) - y.toNat
  | [], _ | _, [] => 0

section Memcmp
variable {x y : UInt8} {xs ys zs : List UInt8}

@[simp] theorem memcmp_nil_left : memcmp [] ys = 0 := by
  cases ys <;> rfl

@[simp] theorem memcmp_nil_right : memcmp xs [] = 0 := by
  cases xs <;> rfl

@[simp] theorem memcmp_cons_self : memcmp (x :: xs) (x :: ys) = memcmp xs ys := if_pos rfl

theorem memcmp_cons_of_ne (h : x ≠ y) :
    memcmp (x :: xs) (y :: ys) = (x.toNat : ℤ) - y.toNat := if_neg h

/-- Bytes that differ have a difference. -/
theorem toNat_sub_ne_zero (h : x ≠ y) : (x.toNat : ℤ) - y.toNat ≠ 0 := by
  intro hsub
  exact h (UInt8.toNat_inj.mp (by omega))

/-- There is no difference when one list begins with the other. -/
theorem memcmp_eq_zero_iff : memcmp xs ys = 0 ↔ xs <+: ys ∨ ys <+: xs := by
  induction xs generalizing ys with
  | nil => simp
  | cons x xs ih =>
      cases ys with
      | nil => simp
      | cons y ys =>
          by_cases hxy : x = y
          · subst hxy
            simp [ih]
          · rw [memcmp_cons_of_ne hxy]
            refine iff_of_false (toNat_sub_ne_zero hxy) ?_
            simp [hxy, Ne.symm hxy]

theorem memcmp_eq_zero_iff_eq (h : xs.length = ys.length) : memcmp xs ys = 0 ↔ xs = ys := by
  rw [memcmp_eq_zero_iff]
  constructor
  · rintro (hpre | hpre)
    · exact hpre.eq_of_length h
    · exact (hpre.eq_of_length h.symm).symm
  · rintro rfl
    exact Or.inl (List.prefix_refl xs)

theorem memcmp_swap : memcmp ys xs = -memcmp xs ys := by
  induction xs generalizing ys with
  | nil => simp
  | cons x xs ih =>
      cases ys with
      | nil => simp
      | cons y ys =>
          by_cases hxy : x = y
          · subst hxy
            simp [ih]
          · rw [memcmp_cons_of_ne hxy, memcmp_cons_of_ne (Ne.symm hxy)]
            omega

/-- A list that differs from the next is not greater than one that the next is not greater
than. -/
theorem memcmp_trans (hne : xs = ys ∨ memcmp xs ys ≠ 0) (h : memcmp xs ys ≤ 0)
    (h' : memcmp ys zs ≤ 0) : memcmp xs zs ≤ 0 := by
  rcases hne with rfl | hne
  · exact h'
  · induction xs generalizing ys zs with
    | nil => simp
    | cons x xs ih =>
        cases ys with
        | nil => simp at hne
        | cons y ys =>
            cases zs with
            | nil => simp
            | cons z zs =>
                by_cases hxy : x = y
                · subst hxy
                  rw [memcmp_cons_self] at h hne
                  by_cases hxz : x = z
                  · subst hxz
                    rw [memcmp_cons_self] at h' ⊢
                    exact ih h h' hne
                  · rwa [memcmp_cons_of_ne hxz] at h' ⊢
                · rw [memcmp_cons_of_ne hxy] at h
                  have hlt := toNat_sub_ne_zero hxy
                  have hle : (y.toNat : ℤ) - z.toNat ≤ 0 := by
                    by_cases hyz : y = z
                    · subst hyz
                      omega
                    · rwa [memcmp_cons_of_ne hyz] at h'
                  have hxz : x ≠ z := by
                    rintro rfl
                    omega
                  rw [memcmp_cons_of_ne hxz]
                  omega

/-- The bytes that both arrays have. -/
theorem memcmp_take {n : ℕ} (h : min xs.length ys.length ≤ n) :
    memcmp (xs.take n) (ys.take n) = memcmp xs ys := by
  induction n generalizing xs ys with
  | zero =>
      rcases Nat.min_eq_zero_iff.mp (Nat.le_zero.mp h) with hnil | hnil
      · rw [List.length_eq_zero_iff.mp hnil]
        simp
      · rw [List.length_eq_zero_iff.mp hnil]
        simp
  | succ n ih =>
      cases xs with
      | nil => simp
      | cons x xs =>
          cases ys with
          | nil => simp
          | cons y ys =>
              have hle : min xs.length ys.length ≤ n := by
                simp only [List.length_cons] at h
                omega
              by_cases hxy : x = y
              · subst hxy
                simp [ih hle]
              · rw [List.take_succ_cons, List.take_succ_cons, memcmp_cons_of_ne hxy,
                  memcmp_cons_of_ne hxy]

end Memcmp

end Lib
