import Mathlib.Data.Option.Basic
import Mathlib.Tactic.Common

/-!
# Partial correctness of partial computations

`Ensures m P` says that whatever the partial computation `m` returns satisfies `P`; it holds
of a computation that faults.  The rules follow the ways such computations are built, so
that a proof goes along the text of a function.

## Main definitions

* `Ensures` — partial correctness.
* `Ensures.bind`, `Ensures.map`, `Ensures.of_map`, `Ensures.ite`, `Ensures.foldlM`,
  `Ensures.foldlM_count`, `Ensures.mono` — the rules.
* `bind_translate`, `foldlM_translate` — computations that are the same up to a
  translation.
-/

namespace Lib

variable {α β : Type}

/-- What a partial computation returns satisfies a predicate. -/
def Ensures (m : Option α) (P : α → Prop) : Prop := ∀ a, m = some a → P a

namespace Ensures
variable {m m' : Option α} {P Q : α → Prop} {R : β → Prop}

theorem some {a : α} (h : P a) : Ensures (some a) P := by
  intro b hb
  rwa [← Option.some.inj hb]

theorem none : Ensures (none : Option α) P := nofun

theorem any : Ensures m fun _ => True := fun _ _ => trivial

theorem mono (h : Ensures m Q) (himp : ∀ a, Q a → P a) : Ensures m P :=
  fun a ha => himp a (h a ha)

theorem bind {f : α → Option β} (h : Ensures m Q) (hf : ∀ a, Q a → Ensures (f a) R) :
    Ensures (m >>= f) R := by
  intro b hb
  obtain ⟨a, ha, hfa⟩ := Option.bind_eq_some_iff.mp hb
  exact hf a (h a ha) b hfa

theorem map {f : α → β} (h : Ensures m fun a => R (f a)) : Ensures (m.map f) R := by
  intro b hb
  obtain ⟨a, ha, rfl⟩ := Option.map_eq_some_iff.mp hb
  exact h a ha

/-- What holds of translated results holds of what is translated. -/
theorem of_map {f : α → β} (h : Ensures (m.map f) R) : Ensures m fun a => R (f a) := by
  intro a ha
  refine h (f a) ?_
  rw [ha, Option.map_some]

theorem ite {c : Prop} [Decidable c] (h : Ensures m P) (h' : Ensures m' P) :
    Ensures (if c then m else m') P := by
  split
  · exact h
  · exact h'

/-- An invariant of the turns of a loop, which may speak of the elements that are left. -/
theorem foldlM {f : β → α → Option β} {I : List α → β → Prop} {xs : List α} {b : β} (h : I xs b)
    (hf : ∀ b a xs, I (a :: xs) b → Ensures (f b a) (I xs)) : Ensures (xs.foldlM f b) (I []) := by
  induction xs generalizing b with
  | nil => exact some h
  | cons a xs ih =>
      rw [List.foldlM_cons]
      exact (hf b a xs h).bind fun b' h' => ih h'

/-- The same with the number of turns so far. -/
theorem foldlM_count {f : β → α → Option β} {I : ℕ → List α → β → Prop} {k : ℕ} {xs : List α}
    {b : β} (h : I k xs b)
    (hf : ∀ k b a xs, I k (a :: xs) b → Ensures (f b a) (I (k + 1) xs)) :
    Ensures (xs.foldlM f b) (I (k + xs.length) []) := by
  induction xs generalizing b k with
  | nil => exact some h
  | cons a xs ih =>
      rw [List.foldlM_cons, List.length_cons, Nat.add_comm xs.length, ← Nat.add_assoc]
      exact (hf k b a xs h).bind fun b' h' => ih h'

end Ensures

/-! ## Translations -/

section Translate
variable {α' β' : Type} {o : Option α} {o' : Option α'} {e : α → α'} {f : β → β'}

/-- **Two computations in step.**  If the first part of one is the first part of the other up
to a translation, and then so is the rest, the one is the other up to a translation. -/
theorem bind_translate {g : α → Option β} {g' : α' → Option β'} (ho : o' = o.map e)
    (hg : ∀ a, o = some a → g' (e a) = (g a).map f) : o'.bind g' = (o.bind g).map f := by
  subst ho
  cases o with
  | none => rfl
  | some a => exact hg a rfl

/-- The same where the first parts are equal. -/
theorem bind_translate_same {g : α → Option β} {g' : α → Option β'}
    (hg : ∀ a, o = some a → g' a = (g a).map f) : o.bind g' = (o.bind g).map f :=
  bind_translate (Option.map_id_fun ▸ rfl : o = o.map id) hg

theorem foldlM_translate {g : β → α → Option β} {g' : β' → α' → Option β'}
    (hg : ∀ b a, g' (f b) (e a) = (g b a).map f) (xs : List α) (b : β) :
    (xs.map e).foldlM g' (f b) = (xs.foldlM g b).map f := by
  induction xs generalizing b with
  | nil => rfl
  | cons a xs ih =>
      rw [List.map_cons, List.foldlM_cons, List.foldlM_cons]
      exact bind_translate (hg b a) fun b' _ => ih b'

end Translate

end Lib
