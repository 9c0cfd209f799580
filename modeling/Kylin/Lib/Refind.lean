import Mathlib.Data.List.Basic
import Mathlib.Tactic.Common

/-!
# Loops that find their place again

A loop over a list whose cursor is an element, not a place: the next element is the one behind
the first that matches the cursor.  It goes through the list if and only if no element matches
one in front of it.  Otherwise it comes back to that one for ever.

## Main definitions

* `follower` — the element behind the first that passes a test.
* `refind` — the loop.

## Main results

* `refind_eq`, `refind_eq_none` — the two cases.
* `refind_iff` — which lists the loop goes through.
-/

namespace Lib

variable {α β : Type}

/-- The element behind the first that passes a test. -/
def follower (p : α → Bool) : List α → Option α
  | [] => none
  | x :: l => if p x then l.head? else follower p l

/-- The elements that the loop visits from a cursor on; `none` when `fuel` turns are not
enough. -/
def refind (same : α → α → Bool) (l : List α) : ℕ → Option α → Option (List α)
  | _, none => some []
  | 0, some _ => none
  | fuel + 1, some x => (refind same l fuel (follower (same x) l)).map (x :: ·)

/-! ## The element behind -/

section Behind
variable {p : α → Bool} {l l₁ l₂ : List α} {a : α}

theorem follower_append (hl : ∀ x ∈ l₁, p x = false) (ha : p a = true) :
    follower p (l₁ ++ a :: l₂) = l₂.head? := by
  induction l₁ with
  | nil => exact if_pos ha
  | cons x l₁ ih =>
      rw [List.forall_mem_cons] at hl
      rw [List.cons_append, follower, if_neg (by simp [hl.1]), ih hl.2]

theorem follower_eq_none (hl : ∀ x ∈ l, p x = false) : follower p l = none := by
  induction l with
  | nil => rfl
  | cons x l ih =>
      rw [List.forall_mem_cons] at hl
      rw [follower, if_neg (by simp [hl.1]), ih hl.2]

theorem follower_eq_getElem? (p : α → Bool) (l : List α) : follower p l = l[l.findIdx p + 1]? := by
  induction l with
  | nil => rfl
  | cons x l ih =>
      rw [follower, List.findIdx_cons, List.getElem?_cons_succ]
      cases hx : p x with
      | true => simp [List.head?_eq_getElem?]
      | false => simp [ih]

theorem follower_congr {q : α → Bool} (h : ∀ x ∈ l, p x = q x) : follower p l = follower q l := by
  induction l with
  | nil => rfl
  | cons x l ih =>
      rw [List.forall_mem_cons] at h
      rw [follower, follower, h.1, ih h.2]

theorem follower_map (f : β → α) (p : α → Bool) (l : List β) :
    follower p (l.map f) = (follower (fun b => p (f b)) l).map f := by
  induction l with
  | nil => rfl
  | cons b l ih =>
      rw [List.map_cons, follower, follower, ih, List.head?_map]
      split <;> rfl

end Behind

/-! ## The loop -/

section Loop
variable {same : α → α → Bool} {l : List α} {fuel i j : ℕ}

/-- A place of a list in which no element matches one in front of it is found again. -/
theorem findIdx_same (hself : ∀ x ∈ l, same x x = true)
    (hpair : l.Pairwise fun x y => same y x = false) (hi : i < l.length) :
    l.findIdx (same l[i]) = i := by
  rw [List.findIdx_eq hi]
  exact ⟨hself _ (List.getElem_mem hi), fun j hj =>
    List.pairwise_iff_getElem.mp hpair j i (by omega) hi hj⟩

/-- **The loop goes through such a list.** -/
theorem refind_drop (hself : ∀ x ∈ l, same x x = true)
    (hpair : l.Pairwise fun x y => same y x = false) (hfuel : l.length - i ≤ fuel) :
    refind same l fuel l[i]? = some (l.drop i) := by
  induction fuel generalizing i with
  | zero => rw [List.getElem?_eq_none (by omega), refind, List.drop_eq_nil_of_le (by omega)]
  | succ fuel ih =>
      by_cases hi : i < l.length
      · rw [List.getElem?_eq_getElem hi, refind, follower_eq_getElem?, findIdx_same hself hpair hi,
          ih (by omega), List.drop_eq_getElem_cons hi]
        rfl
      · rw [List.getElem?_eq_none (by omega), refind, List.drop_eq_nil_of_le (by omega)]

theorem refind_eq (hself : ∀ x ∈ l, same x x = true)
    (hpair : l.Pairwise fun x y => same y x = false) (hfuel : l.length ≤ fuel) :
    refind same l fuel l.head? = some l := by
  have hall := refind_drop (i := 0) hself hpair hfuel
  rwa [List.drop_zero, ← List.head?_eq_getElem?] at hall

/-- **An element that matches one in front of it** is not passed. -/
theorem refind_eq_none (hself : ∀ x ∈ l, same x x = true) (hj : j < l.length) {k : ℕ}
    (hkj : k < j) (hsame : same l[j] l[k] = true) (hi : i ≤ j) :
    refind same l fuel l[i]? = none := by
  have hlt : i < l.length := by omega
  rw [List.getElem?_eq_getElem hlt]
  induction fuel generalizing i with
  | zero => rfl
  | succ fuel ih =>
      -- the place that is found is not behind `i`, and in front of `j` if `i` is `j`
      have hle : l.findIdx (same l[i]) ≤ i := by
        by_contra hgt
        have hno := List.not_of_lt_findIdx (Nat.lt_of_not_le hgt)
        rw [hself _ (List.getElem_mem hlt)] at hno
        cases hno
      have hnext : l.findIdx (same l[i]) + 1 ≤ j := by
        by_cases hij : i = j
        · subst hij
          by_contra hgt
          have hno := List.not_of_lt_findIdx (by omega : k < l.findIdx (same l[i]))
          rw [hsame] at hno
          cases hno
        · omega
      rw [refind, follower_eq_getElem?, List.getElem?_eq_getElem (by omega), ih hnext (by omega)]
      rfl

/-- More turns do not change what the loop visits. -/
theorem refind_mono {fuel' : ℕ} {o : Option α} {xs : List α} (h : refind same l fuel o = some xs)
    (hle : fuel ≤ fuel') : refind same l fuel' o = some xs := by
  induction fuel generalizing o xs fuel' with
  | zero =>
      cases o with
      | none => cases fuel' <;> exact h
      | some x => cases h
  | succ fuel ih =>
      obtain ⟨fuel', rfl⟩ := Nat.exists_eq_add_of_le' (Nat.le_trans (Nat.succ_pos fuel) hle)
      cases o with
      | none => exact h
      | some x =>
          obtain ⟨ys, hys, rfl⟩ := Option.map_eq_some_iff.mp h
          rw [refind, ih hys (Nat.le_of_succ_le_succ hle)]
          rfl

/-- **Which lists the loop goes through**, and what it visits then. -/
theorem refind_iff (hself : ∀ x ∈ l, same x x = true) {xs : List α} :
    (∃ fuel, refind same l fuel l.head? = some xs) ↔
      (l.Pairwise fun x y => same y x = false) ∧ xs = l := by
  constructor
  · intro ⟨fuel, hrun⟩
    have hpair : l.Pairwise fun x y => same y x = false := by
      rw [List.pairwise_iff_getElem]
      intro k j hk hj hkj
      by_contra hsame
      rw [Bool.not_eq_false] at hsame
      rw [List.head?_eq_getElem?, refind_eq_none hself hj hkj hsame (Nat.zero_le j)] at hrun
      cases hrun
    have hall : refind same l (max fuel l.length) l.head? = some l :=
      refind_eq hself hpair (Nat.le_max_right _ _)
    rw [refind_mono hrun (Nat.le_max_left _ _)] at hall
    exact ⟨hpair, Option.some.inj hall⟩
  · rintro ⟨hpair, rfl⟩
    exact ⟨xs.length, refind_eq hself hpair (Nat.le_refl _)⟩

end Loop

end Lib
