import Mathlib.Data.List.Nodup
import Mathlib.Order.Lattice
import Mathlib.Tactic.Common

/-!
# Ordered sets with unique keys

What a search tree is for, without the tree: the elements in ascending order of
their keys.  The key of an element is a function of the outside world, so an
operation whose caller changes keys is stated with the function of that moment;
`Ascending.congr` moves a set between two key functions that agree on it.

## Main definitions

* `Ascending` — distinct keys in ascending order.
* `lookup`, `insert`, `erase` — search, insertion and removal by key.  The least
  element is the head of the list.
-/

namespace Lib.OrderedSet

variable {ι K : Type} [LinearOrder K]

/-- The elements stand in ascending order of their keys. -/
def Ascending (key : ι → K) (s : List ι) : Prop := s.Pairwise fun a b => key a < key b

/-- The element with key `k`. -/
def lookup (key : ι → K) (k : K) (s : List ι) : Option ι := s.find? fun a => key a = k

/-- The list with `a` put before the first element with a larger key. -/
def place (key : ι → K) (a : ι) : List ι → List ι
  | [] => [a]
  | b :: s => if key a < key b then a :: b :: s else b :: place key a s

/-- Insertion, refused when the key is taken. -/
def insert (key : ι → K) (a : ι) (s : List ι) : Option (List ι) :=
  if (lookup key (key a) s).isSome then none else some (place key a s)

/-- Removal of the element with key `k`. -/
def erase (key : ι → K) (k : K) (s : List ι) : List ι := s.filter fun a => key a ≠ k

section
variable {key key' : ι → K} {k : K} {a b : ι} {s : List ι}

theorem Ascending.congr (h : Ascending key s) (hk : ∀ a ∈ s, key' a = key a) :
    Ascending key' s := by
  refine List.Pairwise.imp_of_mem ?_ h
  intro a b ha hb hab
  rw [hk a ha, hk b hb]
  exact hab

/-- Elements are told apart by their keys. -/
theorem Ascending.eq_of_key_eq (h : Ascending key s) (ha : a ∈ s) (hb : b ∈ s)
    (hab : key a = key b) : a = b := by
  have hnodup : (s.map key).Nodup := List.pairwise_map.mpr (List.Pairwise.imp ne_of_lt h)
  exact List.inj_on_of_nodup_map hnodup ha hb hab

theorem lookup_eq_none_iff : lookup key k s = none ↔ ∀ a ∈ s, key a ≠ k := by
  simp [lookup, List.find?_eq_none]

/-- The search finds an element of its key, and in an ascending list it is the one. -/
theorem lookup_eq_some_iff (h : Ascending key s) :
    lookup key k s = some a ↔ a ∈ s ∧ key a = k := by
  constructor
  · intro ha
    exact ⟨List.mem_of_find?_eq_some ha, by simpa using List.find?_some ha⟩
  · rintro ⟨ha, hk⟩
    cases hl : lookup key k s with
    | none => exact absurd hk (lookup_eq_none_iff.mp hl a ha)
    | some b =>
        have hb : b ∈ s := List.mem_of_find?_eq_some hl
        have hbk : key b = k := by simpa using List.find?_some hl
        rw [h.eq_of_key_eq hb ha (hbk.trans hk.symm)]

theorem mem_place : b ∈ place key a s ↔ b = a ∨ b ∈ s := by
  induction s with
  | nil => simp [place]
  | cons c s ih =>
      rw [place]
      split
      · simp
      · rw [List.mem_cons, ih, List.mem_cons]
        exact or_left_comm

theorem Ascending.place (h : Ascending key s) (ha : ∀ b ∈ s, key b ≠ key a) :
    Ascending key (place key a s) := by
  induction s with
  | nil => exact List.pairwise_singleton _ _
  | cons c s ih =>
      obtain ⟨hc, hs⟩ := List.pairwise_cons.mp h
      rw [OrderedSet.place]
      by_cases hlt : key a < key c
      · rw [if_pos hlt]
        refine List.pairwise_cons.mpr ⟨?_, h⟩
        intro b hb
        rcases List.mem_cons.mp hb with rfl | hb
        · exact hlt
        · exact lt_trans hlt (hc b hb)
      · rw [if_neg hlt]
        refine List.pairwise_cons.mpr ⟨?_, ih hs fun b hb => ha b (List.mem_cons_of_mem c hb)⟩
        intro b hb
        rcases mem_place.mp hb with rfl | hb
        · exact lt_of_le_of_ne (not_lt.mp hlt) (ha c List.mem_cons_self)
        · exact hc b hb

theorem place_perm : (place key a s).Perm (a :: s) := by
  induction s with
  | nil => exact List.Perm.refl [a]
  | cons c s ih =>
      rw [OrderedSet.place]
      split
      · exact List.Perm.refl _
      · exact (ih.cons c).trans (List.Perm.swap a c s)

/-- Elements with the same key may stand next to each other. -/
theorem pairwise_place (h : s.Pairwise fun a b => key a ≤ key b) :
    (OrderedSet.place key a s).Pairwise fun a b => key a ≤ key b := by
  induction s with
  | nil => exact List.pairwise_singleton _ _
  | cons c s ih =>
      rcases List.pairwise_cons.mp h with ⟨hc, hs⟩
      rw [OrderedSet.place]
      by_cases hlt : key a < key c
      · rw [if_pos hlt]
        refine List.pairwise_cons.mpr ⟨fun b hb => ?_, h⟩
        rcases List.mem_cons.mp hb with rfl | hb
        · exact hlt.le
        · exact hlt.le.trans (hc b hb)
      · rw [if_neg hlt]
        refine List.pairwise_cons.mpr ⟨fun b hb => ?_, ih hs⟩
        rcases mem_place.mp hb with rfl | hb
        · exact not_lt.mp hlt
        · exact hc b hb

theorem mem_erase : a ∈ erase key k s ↔ a ∈ s ∧ key a ≠ k := by simp [erase]

theorem Ascending.erase (h : Ascending key s) : Ascending key (erase key k s) :=
  List.Pairwise.filter _ h

/-- Removing the least element leaves the rest. -/
theorem erase_head (h : Ascending key (a :: s)) : OrderedSet.erase key (key a) (a :: s) = s := by
  obtain ⟨ha, -⟩ := List.pairwise_cons.mp h
  rw [OrderedSet.erase, List.filter_cons_of_neg (by simp), List.filter_eq_self]
  intro b hb
  simpa using (ha b hb).ne'

end

end Lib.OrderedSet
