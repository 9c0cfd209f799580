import Kylin.Math.ListHpiCells
import Mathlib.Data.List.Induction
import Mathlib.Data.List.Perm.Subperm

/-!
# Runs of the queue macros

Whatever calls of a family are made, in whatever order and on however many heads, the linked
elements are the lists that the same calls give on lists of elements, as long as every call
gets what its macro asks for: an initialised head, an element of its queue, an element that is
in no queue.

The `_SAFE` loops read the link behind an element before their body runs, so that the body may
take the element out.

## Main results

* `perform_spec` — one call.
* `run_isQueues` — all runs.
* `foreachSafe_takesOut`, `tailqForeachReverseSafe_spec` — a loop that takes elements out.
-/

namespace Kylin

open Lib Slot

namespace ListHpi

variable {m : Memory} {s : Slot} {h h₁ h₂ e x n f : ℕ} {k : Kind}

/-! ## Lists of elements -/

section Lists
variable {l l₁ l₂ : List ℕ}

theorem behindIn_append (hx : x ∉ l₁) : behindIn x (l₁ ++ x :: l₂) = l₂.head? := by
  induction l₁ with
  | nil => exact if_pos rfl
  | cons b l₁ ih =>
      rw [List.mem_cons, not_or] at hx
      rw [List.cons_append, behindIn, if_neg (Ne.symm hx.1), ih hx.2]

theorem putBehind_append (hx : x ∉ l₁) : putBehind x e (l₁ ++ x :: l₂) = l₁ ++ x :: e :: l₂ := by
  induction l₁ with
  | nil => exact if_pos rfl
  | cons b l₁ ih =>
      rw [List.mem_cons, not_or] at hx
      rw [List.cons_append, putBehind, if_neg (Ne.symm hx.1), ih hx.2, List.cons_append]

theorem putBefore_append (hx : x ∉ l₁) : putBefore x e (l₁ ++ x :: l₂) = l₁ ++ e :: x :: l₂ := by
  induction l₁ with
  | nil => exact if_pos rfl
  | cons b l₁ ih =>
      rw [List.mem_cons, not_or] at hx
      rw [List.cons_append, putBefore, if_neg (Ne.symm hx.1), ih hx.2, List.cons_append]

theorem dropBehind_append (hx : x ∉ l₁) : dropBehind x (l₁ ++ x :: l₂) = l₁ ++ x :: l₂.tail := by
  induction l₁ with
  | nil => exact if_pos rfl
  | cons b l₁ ih =>
      rw [List.mem_cons, not_or] at hx
      rw [List.cons_append, dropBehind, if_neg (Ne.symm hx.1), ih hx.2, List.cons_append]

theorem mem_putBehind {b : ℕ} (hb : b ∈ putBehind x e l) : b ∈ l ∨ b = e := by
  induction l with
  | nil => exact .inl hb
  | cons c l ih =>
      rw [putBehind] at hb
      split at hb <;> simp only [List.mem_cons] at hb ⊢ <;> tauto

theorem mem_putBefore {b : ℕ} (hb : b ∈ putBefore x e l) : b ∈ l ∨ b = e := by
  induction l with
  | nil => exact .inl hb
  | cons c l ih =>
      rw [putBefore] at hb
      split at hb <;> simp only [List.mem_cons] at hb ⊢ <;> tauto

theorem mem_dropBehind {b : ℕ} (hb : b ∈ dropBehind x l) : b ∈ l := by
  induction l with
  | nil => exact hb
  | cons c l ih =>
      rw [dropBehind] at hb
      split at hb <;> rw [List.mem_cons] at hb ⊢
      · exact hb.imp_right List.mem_of_mem_tail
      · exact hb.imp_right ih

/-- An element splits its queue. -/
theorem exists_split (hl : l.Nodup) (hx : x ∈ l) :
    ∃ l₁ l₂, l = l₁ ++ x :: l₂ ∧ x ∉ l₁ ∧ x ∉ l₂ := by
  obtain ⟨l₁, l₂, rfl⟩ := List.append_of_mem hx
  obtain ⟨hnot, -⟩ := List.nodup_cons.mp (List.perm_middle.nodup_iff.mp hl)
  rw [List.mem_append, not_or] at hnot
  exact ⟨l₁, l₂, rfl, hnot⟩

end Lists

/-! ## The families together -/

section Families
variable {F : Family} {l l₁ l₂ : List ℕ} {fuel : ℕ}

theorem perform_init (fuel : ℕ) (F : Family) :
    perform fuel F m (.init h) = done (cleared F.kind m h) := by
  cases F
  · exact congrArg done slistInit_eq
  · exact congrArg done stailqInit_eq
  · exact congrArg done listInit_eq
  · exact congrArg done tailqInit_eq

theorem perform_insertHead (fuel : ℕ) (F : Family) :
    perform fuel F m (.insertHead h e) = done (inserted F.kind m h (.head h) e (first m h)) := by
  cases F
  · exact congrArg done slistInsertHead_eq
  · exact congrArg done stailqInsertHead_eq
  · exact congrArg done listInsertHead_eq
  · exact congrArg done tailqInsertHead_eq

theorem perform_insertAfter (fuel : ℕ) (F : Family) (hne : x ≠ e) :
    perform fuel F m (.insertAfter h x e) =
      done (inserted F.kind m h (.entry x) e (next m x)) := by
  cases F
  · exact congrArg done slistInsertAfter_eq
  · exact congrArg done stailqInsertAfter_eq
  · exact congrArg done (listInsertAfter_eq hne)
  · exact congrArg done tailqInsertAfter_eq

theorem perform_insertBefore (fuel : ℕ) (hF : F.kind.prev = true)
    (hs : (m (.entry x)).back = some s) (hne : x ≠ e) :
    perform fuel F m (.insertBefore h x e) = done (inserted F.kind m h s e (some x)) := by
  cases F
  · cases hF
  · cases hF
  · exact congrArg (Option.bind · done) (listInsertBefore_eq hs hne rfl)
  · exact congrArg (Option.bind · done) (listInsertBefore_eq hs hne rfl)

theorem perform_insertTail (fuel : ℕ) (hF : F.kind.tail = true)
    (hs : (m (.head h)).back = some s) :
    perform fuel F m (.insertTail h e) = done (inserted F.kind m h s e none) := by
  cases F
  · cases hF
  · exact congrArg (Option.bind · done) (stailqInsertTail_eq hs)
  · cases hF
  · exact congrArg (Option.bind · done) (tailqInsertTail_eq hs)

theorem perform_removeAfter (fuel : ℕ) (hF : F.kind.prev = false) (hn : next m x = some n) :
    perform fuel F m (.removeAfter h x) =
      done (removed F.kind m h (.entry x) (next m n)) := by
  cases F
  · exact congrArg (Option.bind · done) (slistRemoveAfter_eq hn)
  · exact congrArg (Option.bind · done) (stailqRemoveAfter_eq hn)
  · cases hF
  · cases hF

theorem perform_removeHead (fuel : ℕ) (hF : F.kind.prev = false) (hf : first m h = some f) :
    perform fuel F m (.removeHead h) = done (removed F.kind m h (.head h) (next m f)) := by
  cases F
  · exact congrArg (Option.bind · done) (slistRemoveHead_eq hf)
  · exact congrArg (Option.bind · done) (stailqRemoveHead_eq hf)
  · cases hF
  · cases hF

/-- An element of a queue does not lead to itself. -/
theorem next_ne_self (Q : IsQueue k m h (l₁ ++ x :: l₂)) : next m x ≠ some x := by
  rw [next_eq Q]
  intro hhead
  have hnot := (List.nodup_cons.mp (List.perm_middle.nodup_iff.mp Q.nodup)).1
  exact hnot (List.mem_append_right _ (List.mem_of_head? hhead))

theorem perform_remove (F : Family) (Q : IsQueue F.kind m h (l₁ ++ x :: l₂))
    (hfuel : l₁.length < fuel) :
    perform fuel F m (.remove h x) =
      done (removed F.kind m h (after (.head h) l₁) l₂.head?) := by
  cases F
  · exact congrArg (Option.bind · done) (slistRemove_eq Q hfuel)
  · exact congrArg (Option.bind · done) (stailqRemove_eq Q hfuel)
  · rw [← next_eq Q]
    exact congrArg (Option.bind · done) (listRemove_eq (back_eq rfl Q) (next_ne_self Q))
  · rw [← next_eq Q]
    exact congrArg (Option.bind · done) (tailqRemove_eq (back_eq rfl Q) (next_ne_self Q))

theorem perform_swap (fuel : ℕ) (F : Family) (hne : h₁ ≠ h₂) :
    perform fuel F m (.swap h₁ h₂) = done (swapped F.kind m h₁ h₂) := by
  cases F
  · exact congrArg done slistSwap_eq
  · exact congrArg done (stailqSwap_eq hne)
  · exact congrArg done (listSwap_eq hne)
  · exact congrArg done (tailqSwap_eq hne)

/-- Nothing happens to a queue at whose end an empty one is put. -/
theorem perform_concat_nil (fuel : ℕ) (hF : F.kind.tail = true) (hn : first m h₂ = none) :
    perform fuel F m (.concat h₁ h₂) = done m := by
  have hempty : empty m h₂ = true := by rw [empty, hn]; rfl
  cases F
  · cases hF
  · exact congrArg (Option.bind · done) (if_pos hempty)
  · cases hF
  · exact congrArg (Option.bind · done) (if_pos hempty)

theorem perform_concat_cons (fuel : ℕ) (hF : F.kind.tail = true) (hn : first m h₂ = some n)
    (hs : (m (.head h₁)).back = some s) (hne : s ≠ .head h₂) :
    perform fuel F m (.concat h₁ h₂) = done (joined F.kind m h₁ h₂ s n) := by
  cases F
  · cases hF
  · exact congrArg (Option.bind · done) (stailqConcat_eq hn hs)
  · cases hF
  · exact congrArg (Option.bind · done) (tailqConcat_eq hn hs hne)

theorem perform_last (fuel : ℕ) (hF : F.kind.tail = true) (Q : IsQueue F.kind m h l) :
    perform fuel F m (.last h) = some (l.getLast?, m) := by
  cases F
  · cases hF
  · exact congrArg (Option.map fun p => (p, m)) (stailqLast_eq Q)
  · cases hF
  · exact congrArg (Option.map fun p => (p, m)) (tailqLast_eq Q)

theorem perform_first (fuel : ℕ) (F : Family) :
    perform fuel F m (.first h) = some (first m h, m) := by cases F <;> rfl

theorem perform_next (fuel : ℕ) (F : Family) :
    perform fuel F m (.next h x) = some (next m x, m) := by cases F <;> rfl

end Families

/-! ## Runs -/

section Runs
variable {F : Family} {A : ℕ → Option (List ℕ)} {fuel : ℕ} {c : Call}

theorem elems_eq {l : List ℕ} (hA : A h = some l) : elems A h = l := by rw [elems, hA]; rfl

/-- The calls that change nothing: they return an element. -/
theorem perform_query (H : Queues F.kind m A) (hF : F.Has c) (hV : Valid A c)
    (hc : (∃ h, c = .first h) ∨ (∃ h, c = .last h) ∨ (∃ h x, c = .next h x) ∨
      ∃ h x, c = .prev h x) :
    perform fuel F m c = some ((spec A c).1, m) ∧ (spec A c).2 = A := by
  obtain ⟨h, rfl⟩ | ⟨h, rfl⟩ | ⟨h, x, rfl⟩ | ⟨h, x, rfl⟩ := hc
  · obtain ⟨l, hA⟩ := Option.isSome_iff_exists.mp hV
    have hfirst : first m h = l.head? := (H.queue h l hA).forward.first
    refine ⟨?_, rfl⟩
    rw [perform_first, hfirst, spec, elems_eq hA]
  · obtain ⟨l, hA⟩ := Option.isSome_iff_exists.mp hV
    refine ⟨?_, rfl⟩
    rw [perform_last fuel hF (H.queue h l hA), spec, elems_eq hA]
  · obtain ⟨l, hA⟩ := Option.isSome_iff_exists.mp hV.1
    have hx := hV.2
    rw [elems_eq hA] at hx
    have Q := H.queue h l hA
    obtain ⟨l₁, l₂, rfl, hx₁, -⟩ := exists_split Q.nodup hx
    refine ⟨?_, rfl⟩
    rw [perform_next, next_eq Q, spec, elems_eq hA, behindIn_append hx₁]
  · obtain ⟨l, hA⟩ := Option.isSome_iff_exists.mp hV.1
    have hx := hV.2
    rw [elems_eq hA] at hx
    have hF : F = .tailq := hF
    subst hF
    have Q := H.queue h l hA
    obtain ⟨l₁, l₂, rfl, -, hx₂⟩ := exists_split Q.nodup hx
    have hrev : (l₁ ++ x :: l₂).reverse = l₂.reverse ++ x :: l₁.reverse := by simp
    refine ⟨?_, rfl⟩
    rw [spec, elems_eq hA, hrev, behindIn_append (by simpa using hx₂), List.head?_reverse]
    exact congrArg (Option.map fun p => (p, m)) (tailqPrev_eq Q)

/-- The calls that link an element in. -/
theorem perform_insert (H : Queues F.kind m A) (hF : F.Has c) (hV : Valid A c)
    (hc : (∃ h e, c = .insertHead h e) ∨ (∃ h e, c = .insertTail h e) ∨
      (∃ h x e, c = .insertBefore h x e) ∨ ∃ h x e, c = .insertAfter h x e) :
    ∃ m', perform fuel F m c = some ((spec A c).1, m') ∧ Queues F.kind m' (spec A c).2 := by
  obtain ⟨h, e, rfl⟩ | ⟨h, e, rfl⟩ | ⟨h, x, e, rfl⟩ | ⟨h, x, e, rfl⟩ := hc
  · obtain ⟨l, hA⟩ := Option.isSome_iff_exists.mp hV.1
    have hfirst : first m h = l.head? := (H.queue h l hA).forward.first
    have hA' : A h = some ([] ++ l) := hA
    have H' := H.insert hA' hV.2
    refine ⟨_, perform_insertHead fuel F, ?_⟩
    rw [hfirst, spec, elems_eq hA]
    exact H'
  · obtain ⟨l, hA⟩ := Option.isSome_iff_exists.mp hV.1
    have hA' : A h = some (l ++ []) := by rw [hA, List.append_nil]
    refine ⟨_, perform_insertTail fuel hF ((H.queue h l hA).tail hF), ?_⟩
    rw [spec, elems_eq hA]
    exact H.insert hA' hV.2
  · obtain ⟨l, hA⟩ := Option.isSome_iff_exists.mp hV.1
    obtain ⟨-, hx, he⟩ := hV
    rw [elems_eq hA] at hx
    have Q := H.queue h l hA
    obtain ⟨l₁, l₂, rfl, hx₁, -⟩ := exists_split Q.nodup hx
    have hne : x ≠ e := fun heq => he h _ hA (heq ▸ hx)
    refine ⟨_, perform_insertBefore fuel hF (back_eq hF Q) hne, ?_⟩
    rw [spec, elems_eq hA, putBefore_append hx₁]
    exact H.insert hA he
  · obtain ⟨l, hA⟩ := Option.isSome_iff_exists.mp hV.1
    obtain ⟨-, hx, he⟩ := hV
    rw [elems_eq hA] at hx
    have Q := H.queue h l hA
    obtain ⟨l₁, l₂, rfl, hx₁, -⟩ := exists_split Q.nodup hx
    have hne : x ≠ e := fun heq => he h _ hA (heq ▸ hx)
    have hA' : A h = some ((l₁ ++ [x]) ++ l₂) := by rw [hA]; simp
    have H' := H.insert hA' he
    rw [after_concat, List.append_assoc, List.singleton_append] at H'
    refine ⟨_, perform_insertAfter fuel F hne, ?_⟩
    rw [spec, elems_eq hA, putBehind_append hx₁, next_eq Q]
    exact H'

/-- The calls that take an element out. -/
theorem perform_drop (H : Queues F.kind m A) (hF : F.Has c) (hV : Valid A c)
    (hfuel : ∀ h, (elems A h).length ≤ fuel)
    (hc : (∃ h, c = .removeHead h) ∨ (∃ h x, c = .removeAfter h x) ∨ ∃ h x, c = .remove h x) :
    ∃ m', perform fuel F m c = some ((spec A c).1, m') ∧ Queues F.kind m' (spec A c).2 := by
  obtain ⟨h, rfl⟩ | ⟨h, x, rfl⟩ | ⟨h, x, rfl⟩ := hc
  · obtain ⟨l, hA⟩ := Option.isSome_iff_exists.mp hV.1
    have hne := hV.2
    rw [elems_eq hA] at hne
    obtain ⟨f, l, rfl⟩ := List.exists_cons_of_ne_nil hne
    have Q : IsQueue F.kind m h ([] ++ f :: l) := H.queue h _ hA
    have hfirst : first m h = some f := Q.forward.first
    refine ⟨_, perform_removeHead fuel hF hfirst, ?_⟩
    rw [spec, elems_eq hA, next_eq Q]
    have hA' : A h = some ([] ++ f :: l) := hA
    exact H.remove hA'
  · obtain ⟨l, hA⟩ := Option.isSome_iff_exists.mp hV.1
    obtain ⟨-, hx, hbehind⟩ := hV
    rw [elems_eq hA] at hx hbehind
    have Q := H.queue h l hA
    obtain ⟨l₁, l₂, rfl, hx₁, -⟩ := exists_split Q.nodup hx
    rw [behindIn_append hx₁, ne_eq, List.head?_eq_none_iff] at hbehind
    obtain ⟨n, l₂, rfl⟩ := List.exists_cons_of_ne_nil hbehind
    have hsplit : l₁ ++ x :: n :: l₂ = (l₁ ++ [x]) ++ n :: l₂ := by simp
    have Q' := Q
    rw [hsplit] at Q'
    have H' := H.remove (hA.trans (congrArg some hsplit))
    rw [after_concat, List.append_assoc, List.singleton_append] at H'
    refine ⟨_, perform_removeAfter fuel hF (next_eq Q), ?_⟩
    rw [spec, elems_eq hA, dropBehind_append hx₁, next_eq Q']
    exact H'
  · obtain ⟨l, hA⟩ := Option.isSome_iff_exists.mp hV.1
    have hx := hV.2
    have hfuel := hfuel h
    rw [elems_eq hA] at hx hfuel
    have Q := H.queue h l hA
    obtain ⟨l₁, l₂, rfl, hx₁, -⟩ := exists_split Q.nodup hx
    have hlen : l₁.length < fuel := by
      rw [List.length_append, List.length_cons] at hfuel
      omega
    refine ⟨_, perform_remove F Q hlen, ?_⟩
    rw [spec, elems_eq hA, List.erase_append_right _ hx₁, List.erase_cons_head]
    exact H.remove hA

/-- The calls about two queues. -/
theorem perform_two (H : Queues F.kind m A) (hF : F.Has c) (hV : Valid A c)
    (hc : (∃ h₁ h₂, c = .concat h₁ h₂) ∨ ∃ h₁ h₂, c = .swap h₁ h₂) :
    ∃ m', perform fuel F m c = some ((spec A c).1, m') ∧ Queues F.kind m' (spec A c).2 := by
  obtain ⟨h₁, h₂, rfl⟩ | ⟨h₁, h₂, rfl⟩ := hc
  · obtain ⟨l₁, hA₁⟩ := Option.isSome_iff_exists.mp hV.1
    obtain ⟨l₂, hA₂⟩ := Option.isSome_iff_exists.mp hV.2.1
    have hne := hV.2.2
    have hfirst : first m h₂ = l₂.head? := (H.queue h₂ l₂ hA₂).forward.first
    cases l₂ with
    | nil =>
        refine ⟨m, perform_concat_nil fuel hF hfirst, ?_⟩
        rw [spec, elems_eq hA₁, elems_eq hA₂, List.append_nil, ← hA₁, Function.update_eq_self,
          ← hA₂, Function.update_eq_self]
        exact H
    | cons n l₂ =>
        have hslot : after (.head h₁) l₁ ≠ .head h₂ := fun heq => hne (after_eq_head heq).symm
        refine ⟨_, perform_concat_cons fuel hF hfirst ((H.queue h₁ l₁ hA₁).tail hF) hslot, ?_⟩
        rw [spec, elems_eq hA₁, elems_eq hA₂]
        exact H.join hne hA₁ hA₂
  · obtain ⟨l₁, hA₁⟩ := Option.isSome_iff_exists.mp hV.1
    obtain ⟨l₂, hA₂⟩ := Option.isSome_iff_exists.mp hV.2.1
    refine ⟨_, perform_swap fuel F hV.2.2, ?_⟩
    rw [spec, elems_eq hA₁, elems_eq hA₂]
    exact H.swap hV.2.2 hA₁ hA₂

/-- **Every call** of every family does to the linked elements what it does to their lists. -/
theorem perform_spec (H : Queues F.kind m A) (hF : F.Has c) (hV : Valid A c)
    (hfuel : ∀ h, (elems A h).length ≤ fuel) :
    ∃ m', perform fuel F m c = some ((spec A c).1, m') ∧ Queues F.kind m' (spec A c).2 := by
  have hquery : (∃ h, c = .first h) ∨ (∃ h, c = .last h) ∨ (∃ h x, c = .next h x) ∨
      (∃ h x, c = .prev h x) →
      ∃ m', perform fuel F m c = some ((spec A c).1, m') ∧ Queues F.kind m' (spec A c).2 := by
    intro hc
    obtain ⟨heq, hA⟩ := perform_query H hF hV hc
    exact ⟨m, heq, hA.symm ▸ H⟩
  cases c with
  | init h => exact ⟨_, perform_init fuel F, H.clear h⟩
  | first h => exact hquery (.inl ⟨h, rfl⟩)
  | last h => exact hquery (.inr (.inl ⟨h, rfl⟩))
  | next h x => exact hquery (.inr (.inr (.inl ⟨h, x, rfl⟩)))
  | prev h x => exact hquery (.inr (.inr (.inr ⟨h, x, rfl⟩)))
  | insertHead h e => exact perform_insert H hF hV (.inl ⟨h, e, rfl⟩)
  | insertTail h e => exact perform_insert H hF hV (.inr (.inl ⟨h, e, rfl⟩))
  | insertBefore h x e => exact perform_insert H hF hV (.inr (.inr (.inl ⟨h, x, e, rfl⟩)))
  | insertAfter h x e => exact perform_insert H hF hV (.inr (.inr (.inr ⟨h, x, e, rfl⟩)))
  | removeHead h => exact perform_drop H hF hV hfuel (.inl ⟨h, rfl⟩)
  | removeAfter h x => exact perform_drop H hF hV hfuel (.inr (.inl ⟨h, x, rfl⟩))
  | remove h x => exact perform_drop H hF hV hfuel (.inr (.inr ⟨h, x, rfl⟩))
  | concat h₁ h₂ => exact perform_two H hF hV (.inl ⟨h₁, h₂, rfl⟩)
  | swap h₁ h₂ => exact perform_two H hF hV (.inr ⟨h₁, h₂, rfl⟩)

/-- No head is initialised. -/
theorem queues_none (k : Kind) (m : Memory) : Queues k m fun _ => none :=
  ⟨fun _ _ h => (by cases h), fun _ _ _ _ h => (by cases h)⟩

theorem elems_update (A : ℕ → Option (List ℕ)) (h h' : ℕ) (l : List ℕ) :
    elems (Function.update A h (some l)) h' = if h' = h then l else elems A h' := by
  by_cases hh : h' = h
  · rw [hh, elems, Function.update_self, if_pos rfl, Option.getD_some]
  · rw [elems, Function.update_of_ne hh, if_neg hh, elems]

/-- What is in a queue after a call was in one before it, or is new. -/
theorem mem_spec {h : ℕ} (he : e ∈ elems (spec A c).2 h) :
    (∃ h', e ∈ elems A h') ∨ c.newElm = some e := by
  cases c <;> simp only [spec, elems_update] at he <;>
    simp only [Call.newElm, reduceCtorEq, or_false, Option.some.injEq]
  case init => split at he <;> grind
  case first | last | next | prev => exact ⟨h, he⟩
  case insertHead | insertTail => grind
  case insertBefore => grind [mem_putBefore]
  case insertAfter => grind [mem_putBehind]
  case concat | swap => grind
  case removeAfter => grind [mem_dropBehind]
  case removeHead => grind [List.mem_of_mem_tail]
  case remove => grind [List.mem_of_mem_erase]

/-- Queues of elements from `L`. -/
structure QueuesOf (L : List ℕ) (k : Kind) (m : Memory) (A : ℕ → Option (List ℕ)) : Prop where
  queues : Queues k m A
  mem : ∀ h, ∀ e ∈ elems A h, e ∈ L

/-- A queue is no longer than the list that its elements are from. -/
theorem QueuesOf.length_le {L : List ℕ} (H : QueuesOf L k m A) (h : ℕ) :
    (elems A h).length ≤ L.length := by
  have hsub : elems A h ⊆ L := H.mem h
  cases hA : A h with
  | none => simp [elems, hA]
  | some l =>
      rw [elems_eq hA] at hsub ⊢
      exact (List.subperm_of_subset (H.queues.queue h l hA).nodup hsub).length_le

/-- Two tail queues, of which one is put at the end of the other. -/
def concatCalls : List Call :=
  [.init 0, .init 1, .insertTail 0 5, .insertHead 0 4, .insertTail 1 6, .concat 0 1, .remove 0 5,
    .prev 0 6]

example : (specRun spec (fun _ => none) concatCalls).1.getLast? = some (some 4) := by decide

end Runs

/-! ## Loops that take elements out -/

section Loops
variable {F : Family} {A : ℕ → Option (List ℕ)} {l l₁ l₂ : List ℕ} {fuel turns : ℕ} {init : Bool}

/-- What is taken out is in no queue. -/
theorem free_of_split (H : Queues k m A) (hA : A h = some (l₁ ++ x :: l₂)) :
    Free (Function.update A h (some (l₁ ++ l₂))) x := by
  intro h' l' hl' hx
  have Q := H.queue h _ hA
  by_cases hh : h' = h
  · subst hh
    rw [Function.update_self] at hl'
    rw [← Option.some.inj hl'] at hx
    exact (List.nodup_cons.mp (List.perm_middle.nodup_iff.mp Q.nodup)).1 hx
  · rw [Function.update_of_ne hh] at hl'
    exact H.apart h h' _ l' hA hl' (Ne.symm hh) x (by simp) hx

theorem tailqEntryInit_of_ne (hs : s ≠ .entry x) : tailqEntryInit m x s = m s := by
  rw [tailqEntryInit, setFwd, Function.update_of_ne hs, setBack, Function.update_of_ne hs]

/-- Each removal macro takes its element out of the queue. -/
theorem takeOut_spec (H : Queues F.kind m A) (hA : A h = some (l₁ ++ x :: l₂))
    (hfuel : l₁.length < fuel) (init : Bool) :
    ∃ m', takeOut fuel init h F m x = some m' ∧
      Queues F.kind m' (Function.update A h (some (l₁ ++ l₂))) := by
  have Q := H.queue h _ hA
  have H' := H.remove hA
  have hfree := free_of_split H hA
  cases F with
  | slist => exact ⟨_, slistRemove_eq Q hfuel, H'⟩
  | stailq => exact ⟨_, stailqRemove_eq Q hfuel, H'⟩
  | list =>
      have heq := listRemove_eq (h := h) (back_eq rfl Q) (next_ne_self Q)
      rw [next_eq Q] at heq
      cases init with
      | false => exact ⟨_, heq, H'⟩
      | true =>
          refine ⟨tailqEntryInit _ x, by rw [takeOut, if_pos rfl, listRemoveInit, heq]; rfl, ?_⟩
          exact H'.forget hfree fun s hs => tailqEntryInit_of_ne hs
  | tailq =>
      have heq := tailqRemove_eq (h := h) (back_eq rfl Q) (next_ne_self Q)
      rw [next_eq Q] at heq
      cases init with
      | false => exact ⟨_, heq, H'⟩
      | true =>
          refine ⟨tailqEntryInit _ x, by rw [takeOut, if_pos rfl, tailqRemoveInit, heq]; rfl, ?_⟩
          exact H'.forget hfree fun s hs => tailqEntryInit_of_ne hs

/-- One turn of a body: the element goes or stays. -/
theorem takeOutIf_spec (H : Queues F.kind m A) (hA : A h = some (l₁ ++ x :: l₂))
    (hfuel : l₁.length < fuel) (init : Bool) (drop : ℕ → Bool) :
    ∃ m', takeOutIf fuel init h F drop m x = some m' ∧
      Queues F.kind m'
        (Function.update A h (some (l₁ ++ (if drop x then [] else [x]) ++ l₂))) := by
  by_cases hx : drop x
  · obtain ⟨m', heq, H'⟩ := takeOut_spec H hA hfuel init
    refine ⟨m', by rw [takeOutIf, if_pos hx, heq], ?_⟩
    rwa [if_pos hx, List.append_nil]
  · refine ⟨m, by rw [takeOutIf, if_neg hx], ?_⟩
    rw [if_neg hx, List.append_assoc, List.singleton_append, ← hA, Function.update_eq_self]
    exact H

/-- The turns of a forward loop whose body takes elements out. -/
theorem safeLoop_spec (H : Queues F.kind m A) (hA : A h = some (l₁ ++ l))
    (hturns : l.length ≤ turns) (hfuel : (l₁ ++ l).length ≤ fuel) (init : Bool) (drop : ℕ → Bool) :
    ∃ m', safeLoop (fun m var => some (next m var)) (takeOutIf fuel init h F drop) turns m l.head? =
        some (l, m') ∧
      Queues F.kind m' (Function.update A h (some (l₁ ++ l.filter fun x => !drop x))) := by
  induction l generalizing l₁ m A turns with
  | nil =>
      refine ⟨m, by cases turns <;> rfl, ?_⟩
      rw [List.filter_nil, ← hA, Function.update_eq_self]
      exact H
  | cons x l ih =>
      obtain ⟨turns, rfl⟩ : ∃ k, turns = k + 1 := ⟨turns - 1, by simp at hturns; omega⟩
      rw [List.length_cons, Nat.succ_le_succ_iff] at hturns
      have hlen : l₁.length < fuel := by
        rw [List.length_append, List.length_cons] at hfuel
        omega
      have hnext := next_eq (H.queue h _ hA)
      obtain ⟨m', hbody, H'⟩ := takeOutIf_spec H hA hlen init drop
      have hrest : (l₁ ++ (if drop x then [] else [x]) ++ l).length ≤ fuel := by
        refine Nat.le_trans ?_ hfuel
        split <;> simp
      obtain ⟨m'', hloop, H''⟩ := ih H' (Function.update_self ..) hturns hrest
      refine ⟨m'', ?_, ?_⟩
      · rw [List.head?_cons, safeLoop, hnext]
        simp only [Option.bind_eq_bind, Option.bind_some, hbody, hloop]
      · rw [Function.update_idem] at H''
        cases hx : drop x <;> simpa [hx] using H''

/-- **`FOREACH_SAFE` with removals.**  The loop comes to every element once and in order, and
leaves those that its body did not take out. -/
theorem foreachSafe_takesOut (F : Family) (init : Bool) (drop : ℕ → Bool) (H : Queues F.kind m A)
    (hA : A h = some l) (hfuel : l.length ≤ fuel) :
    ∃ m', foreachSafe (takeOutIf fuel init h F drop) fuel m h = some (l, m') ∧
      Queues F.kind m' (Function.update A h (some (l.filter fun x => !drop x))) := by
  have hfirst : first m h = l.head? := (H.queue h l hA).forward.first
  rw [foreachSafe, hfirst]
  have hA' : A h = some ([] ++ l) := hA
  exact safeLoop_spec H hA' hfuel hfuel init drop

/-- The queue of 4 and 5. -/
def pair (k : Kind) : Memory :=
  inserted k (inserted k (cleared k (fun _ => ⟨none, none⟩) 0) 0 (.head 0) 5 none) 0 (.head 0) 4
    (some 5)

theorem pair_queues (k : Kind) :
    Queues k (pair k) (Function.update (fun _ => none) 0 (some [4, 5])) := by
  have H₀ := (queues_none k fun _ => ⟨none, none⟩).clear 0
  have hA₀ : Function.update (fun _ : ℕ => none) 0 (some []) 0 = some ([] ++ ([] : List ℕ)) := rfl
  have H₁ := H₀.insert (e := 5) hA₀ (by simp [Free, Function.update_apply])
  rw [Function.update_idem] at H₁
  have hA₁ : Function.update (fun _ : ℕ => none) 0 (some [5]) 0 = some ([] ++ [5]) := rfl
  have H₂ := H₁.insert (e := 4) hA₁ (by simp +contextual [Free, Function.update_apply])
  rw [Function.update_idem] at H₂
  exact H₂

theorem foreachSafe_pair : ∃ m',
    foreachSafe (takeOutIf 2 true 0 .list (· == 4)) 2 (pair ⟨false, true⟩) 0 =
        some ([4, 5], m') ∧
      Queues Family.list.kind m' (Function.update (Function.update (fun _ => none) 0 (some [4, 5]))
        0 (some ([4, 5].filter fun x => !(x == 4)))) :=
  foreachSafe_takesOut .list true (· == 4) (pair_queues _) (Function.update_self ..) (by decide)

/-- The turns of the loop that goes back. -/
theorem safeLoop_reverse (H : Queues ⟨true, true⟩ m A) (hA : A h = some (l ++ l₂))
    (hturns : l.length ≤ turns) (hfuel : (l ++ l₂).length ≤ fuel) (init : Bool)
    (drop : ℕ → Bool) :
    ∃ m', safeLoop tailqPrev (takeOutIf fuel init h .tailq drop) turns m l.getLast? =
        some (l.reverse, m') ∧
      Queues ⟨true, true⟩ m'
        (Function.update A h (some (l.filter (fun x => !drop x) ++ l₂))) := by
  induction l using List.reverseRecOn generalizing l₂ m A turns with
  | nil =>
      refine ⟨m, by cases turns <;> rfl, ?_⟩
      rw [List.filter_nil, ← hA, Function.update_eq_self]
      exact H
  | append_singleton l x ih =>
      rw [List.length_append, List.length_singleton] at hturns
      obtain ⟨turns, rfl⟩ : ∃ k, turns = k + 1 := ⟨turns - 1, by omega⟩
      have hlen : l.length < fuel := by
        simp only [List.length_append, List.length_singleton] at hfuel
        omega
      rw [List.append_assoc, List.singleton_append] at hA hfuel
      have hprev := tailqPrev_eq (H.queue h _ hA)
      obtain ⟨m', hbody, H'⟩ := takeOutIf_spec (F := .tailq) H hA hlen init drop
      have hrest : (l ++ ((if drop x then [] else [x]) ++ l₂)).length ≤ fuel := by
        refine Nat.le_trans ?_ hfuel
        split <;> simp
      rw [List.append_assoc] at H'
      have hless : l.length ≤ turns := Nat.le_of_succ_le_succ hturns
      obtain ⟨m'', hloop, H''⟩ := ih H' (Function.update_self ..) hless hrest
      refine ⟨m'', ?_, ?_⟩
      · rw [List.getLast?_concat, safeLoop, hprev]
        simp only [Option.bind_eq_bind, Option.bind_some, hbody, hloop, List.reverse_append,
          List.reverse_singleton, List.singleton_append]
      · rw [Function.update_idem] at H''
        cases hx : drop x <;> simpa [hx] using H''

/-- **`TAILQ_FOREACH_REVERSE_SAFE` with removals**: the same from the end. -/
theorem tailqForeachReverseSafe_spec (init : Bool) (drop : ℕ → Bool)
    (H : Queues Family.tailq.kind m A) (hA : A h = some l) (hfuel : l.length ≤ fuel) :
    ∃ m', tailqForeachReverseSafe (takeOutIf fuel init h .tailq drop) fuel m h =
        some (l.reverse, m') ∧
      Queues Family.tailq.kind m' (Function.update A h (some (l.filter fun x => !drop x))) := by
  have hA' : A h = some (l ++ []) := by rw [hA, List.append_nil]
  have hlen : (l ++ []).length ≤ fuel := by rwa [List.append_nil]
  obtain ⟨m', hloop, H'⟩ := safeLoop_reverse H hA' hfuel hlen init drop
  refine ⟨m', ?_, by rwa [List.append_nil] at H'⟩
  rw [tailqForeachReverseSafe, tailqLast_eq (H.queue h l hA)]
  exact hloop

theorem tailqForeachReverseSafe_pair : ∃ m',
    tailqForeachReverseSafe (takeOutIf 2 true 0 .tailq (· == 5)) 2 (pair ⟨true, true⟩) 0 =
        some ([4, 5].reverse, m') ∧
      Queues Family.tailq.kind m' (Function.update
        (Function.update (fun _ => none) 0 (some [4, 5])) 0
        (some ([4, 5].filter fun x => !(x == 5)))) :=
  tailqForeachReverseSafe_spec true (· == 5) (pair_queues _) (Function.update_self ..) (by decide)

end Loops

end ListHpi

end Kylin
