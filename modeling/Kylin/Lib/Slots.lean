import Mathlib.Data.List.Nodup
import Mathlib.Tactic.Common

/-!
# Queues linked through slots

A forward link is kept in a *slot*: the first word of a head or of an element.  Elements may
also keep the slot that leads to them, and a head the slot behind its last element, so that an
element is linked in or out without a search.  Both words are one cell, whatever it belongs to.

`Leads` and `Backward` are the forward links and the slots kept in the elements, both split
where the list of elements is.  The rules say what may have been written when an element was
linked in behind a prefix, taken out from there, or a whole queue was put at the end.

## Main definitions

* `Slot`, `Cell` — the words of heads and elements.
* `after` — the slot behind a list of elements.
* `Forward`, `Backward` — links that run through a list.
* `Queues` — heads with disjoint queues.

## Main results

* `Forward.insert`, `Forward.remove`, `Forward.join` — the rules for forward links.
* `Backward.insert`, `Backward.remove`, `Backward.join` — and for the slots kept in elements.
* `Queues.insert`, `Queues.remove`, `Queues.join`, `Queues.swap` — the memory after a change.
-/

namespace Lib

/-- The place of a forward link: in a head or in an element. -/
inductive Slot
  | head (h : ℕ)
  | entry (e : ℕ)
  deriving DecidableEq

/-- A forward link with the word beside it; `none` is the null pointer. -/
@[ext]
structure Cell where
  fwd : Option ℕ
  back : Option Slot

namespace Slot

/-- The slot behind the elements `l`, when `s` is the one before them. -/
def after : Slot → List ℕ → Slot
  | s, [] => s
  | _, e :: l => after (.entry e) l

/-- The slots of the links between `s` and the last element. -/
def inner : Slot → List ℕ → List Slot
  | _, [] => []
  | s, e :: l => s :: inner (.entry e) l

/-- All slots of a queue. -/
def slots (s : Slot) (l : List ℕ) : List Slot := s :: l.map entry

section Positions
variable {s t : Slot} {l l₁ l₂ : List ℕ} {e : ℕ}

@[simp] theorem after_nil : after s [] = s := rfl

@[simp] theorem after_cons : after s (e :: l) = after (.entry e) l := rfl

theorem after_append (s : Slot) (l₁ l₂ : List ℕ) : after s (l₁ ++ l₂) = after (after s l₁) l₂ := by
  induction l₁ generalizing s with
  | nil => rfl
  | cons b l₁ ih => exact ih _

@[simp] theorem after_concat : after s (l ++ [e]) = .entry e := by rw [after_append]; rfl

/-- The slots of a queue in order. -/
theorem slots_eq (s : Slot) (l : List ℕ) : slots s l = inner s l ++ [after s l] := by
  induction l generalizing s with
  | nil => rfl
  | cons e l ih =>
      rw [slots, List.map_cons, ← slots, ih]
      rfl

theorem slots_append (s : Slot) (l₁ l₂ : List ℕ) :
    slots s (l₁ ++ l₂) = inner s l₁ ++ slots (after s l₁) l₂ := by
  rw [slots, List.map_append, ← List.cons_append, ← slots, slots_eq, List.append_assoc]
  rfl

theorem nodup_slots_head {h : ℕ} (hl : l.Nodup) : (slots (.head h) l).Nodup := by
  rw [slots, List.nodup_cons]
  exact ⟨by simp, hl.map fun a b hab => by injection hab⟩

theorem mem_inner_append (ht : t ∈ inner s l₁) : t ∈ slots s (l₁ ++ l₂) := by
  rw [slots_append]
  exact List.mem_append_left _ ht

theorem mem_slots_append (ht : t ∈ slots (after s l₁) l₂) : t ∈ slots s (l₁ ++ l₂) := by
  rw [slots_append]
  exact List.mem_append_right _ ht

theorem after_mem_slots (s : Slot) (l : List ℕ) : after s l ∈ slots s l := by
  rw [slots_eq]
  exact List.mem_append_right _ (List.mem_singleton.mpr rfl)

theorem entry_mem_slots (he : e ∈ l) : .entry e ∈ slots s l :=
  List.mem_cons_of_mem _ (List.mem_map_of_mem he)

/-- The slot behind a prefix is none of those before it, -/
theorem ne_after_of_mem_inner (hnodup : (slots s (l₁ ++ l₂)).Nodup) (ht : t ∈ inner s l₁) :
    t ≠ after s l₁ := by
  rw [slots_append, List.nodup_append] at hnodup
  exact fun h => hnodup.2.2 t ht t (h ▸ List.mem_cons_self ..) rfl

/-- and none of those of the rest. -/
theorem entry_ne_after (hnodup : (slots s (l₁ ++ l₂)).Nodup) (he : e ∈ l₂) :
    .entry e ≠ after s l₁ := by
  rw [slots_append, List.nodup_append, slots, List.nodup_cons] at hnodup
  exact fun h => hnodup.2.1.1 (h ▸ List.mem_map_of_mem he)

end Positions

/-! ## Forward links -/

/-- The forward links lead from `s` through the elements `l`. -/
def Leads (fwd : Slot → Option ℕ) : Slot → List ℕ → Prop
  | _, [] => True
  | s, e :: l => fwd s = some e ∧ Leads fwd (.entry e) l

/-- The forward links lead through the elements `l` and end there. -/
structure Forward (fwd : Slot → Option ℕ) (s : Slot) (l : List ℕ) : Prop where
  leads : Leads fwd s l
  ends : fwd (after s l) = none

section Forward
variable {fwd fwd' : Slot → Option ℕ} {s s' t : Slot} {l l₁ l₂ : List ℕ} {e : ℕ}

/-- Forward links split where their lists do. -/
theorem leads_append : Leads fwd s (l₁ ++ l₂) ↔ Leads fwd s l₁ ∧ Leads fwd (after s l₁) l₂ := by
  induction l₁ generalizing s with
  | nil => simp [Leads]
  | cons b l₁ ih => rw [List.cons_append, Leads, Leads, ih, after_cons, and_assoc]

theorem Leads.congr (h : Leads fwd s l) (heq : ∀ t ∈ inner s l, fwd' t = fwd t) :
    Leads fwd' s l := by
  induction l generalizing s with
  | nil => trivial
  | cons e l ih =>
      refine ⟨?_, ih h.2 fun t ht => heq t (List.mem_cons_of_mem _ ht)⟩
      rw [heq s (List.mem_cons_self ..)]
      exact h.1

theorem Forward.congr (h : Forward fwd s l) (heq : ∀ t ∈ slots s l, fwd' t = fwd t) :
    Forward fwd' s l := by
  rw [slots_eq, List.forall_mem_append] at heq
  exact ⟨h.leads.congr heq.1, (heq.2 _ (List.mem_singleton.mpr rfl)).trans h.ends⟩

/-- What a slot holds is the first element behind it. -/
theorem Forward.head (h : Forward fwd s (l₁ ++ l₂)) : fwd (after s l₁) = l₂.head? := by
  have hleads := (leads_append.mp h.leads).2
  cases l₂ with
  | nil =>
      have hends := h.ends
      rwa [List.append_nil] at hends
  | cons e l₂ => exact hleads.1

theorem Forward.first (h : Forward fwd s l) : fwd s = l.head? := by
  cases l with
  | nil => exact h.ends
  | cons e l => exact h.leads.1

/-- The rest of a queue, behind another slot with the same link. -/
theorem Forward.moved (h : Forward fwd s l) (hfirst : fwd' s' = fwd s)
    (hrest : ∀ e ∈ l, fwd' (.entry e) = fwd (.entry e)) : Forward fwd' s' l := by
  cases l with
  | nil => exact ⟨trivial, hfirst.trans h.ends⟩
  | cons e l =>
      have htail : Forward fwd (.entry e) l := ⟨h.leads.2, h.ends⟩
      have htail' : Forward fwd' (.entry e) l := by
        refine htail.congr fun t ht => ?_
        rw [slots, ← List.map_cons, List.mem_map] at ht
        obtain ⟨b, hb, rfl⟩ := ht
        exact hrest b hb
      exact ⟨⟨hfirst.trans h.leads.1, htail'.leads⟩, htail'.ends⟩

/-- A queue is a prefix and the rest behind its last slot. -/
theorem forward_append :
    Forward fwd s (l₁ ++ l₂) ↔ Leads fwd s l₁ ∧ Forward fwd (after s l₁) l₂ := by
  constructor
  · intro h
    obtain ⟨h₁, h₂⟩ := leads_append.mp h.leads
    exact ⟨h₁, h₂, by rw [← after_append]; exact h.ends⟩
  · rintro ⟨h₁, h₂, hends⟩
    exact ⟨leads_append.mpr ⟨h₁, h₂⟩, by rwa [after_append]⟩

/-- **An element is linked in** behind a prefix: it takes over the link of the slot there. -/
theorem Forward.insert (h : Forward fwd s (l₁ ++ l₂)) (hnodup : (slots s (l₁ ++ l₂)).Nodup)
    (hslot : fwd' (after s l₁) = some e) (hnew : fwd' (.entry e) = fwd (after s l₁))
    (hrest : ∀ t ∈ slots s (l₁ ++ l₂), t ≠ after s l₁ → fwd' t = fwd t) :
    Forward fwd' s (l₁ ++ e :: l₂) := by
  obtain ⟨h₁, h₂⟩ := forward_append.mp h
  have htail : Forward fwd' (.entry e) l₂ := h₂.moved hnew fun b hb =>
    hrest _ (mem_slots_append (entry_mem_slots hb)) (entry_ne_after hnodup hb)
  refine forward_append.mpr ⟨h₁.congr fun t ht => ?_, ⟨hslot, htail.leads⟩, htail.ends⟩
  exact hrest t (mem_inner_append ht) (ne_after_of_mem_inner hnodup ht)

/-- **An element is taken out**: the slot before it takes over its link. -/
theorem Forward.remove (h : Forward fwd s (l₁ ++ e :: l₂))
    (hnodup : (slots s (l₁ ++ e :: l₂)).Nodup) (hslot : fwd' (after s l₁) = fwd (.entry e))
    (hrest : ∀ t ∈ slots s (l₁ ++ l₂), t ≠ after s l₁ → fwd' t = fwd t) :
    Forward fwd' s (l₁ ++ l₂) := by
  obtain ⟨h₁, h₂⟩ := forward_append.mp h
  have htail : Forward fwd (.entry e) l₂ := ⟨h₂.leads.2, h₂.ends⟩
  refine forward_append.mpr ⟨h₁.congr fun t ht => ?_, htail.moved hslot fun b hb => ?_⟩
  · exact hrest t (mem_inner_append ht) (ne_after_of_mem_inner hnodup ht)
  · refine hrest _ (mem_slots_append (entry_mem_slots hb)) ?_
    exact entry_ne_after hnodup (List.mem_cons_of_mem _ hb)

/-- **A queue is put at the end of another one.** -/
theorem Forward.join (h₁ : Forward fwd s l₁) (h₂ : Forward fwd s' l₂) (hnodup : (slots s l₁).Nodup)
    (hslot : fwd' (after s l₁) = fwd s')
    (hrest₁ : ∀ t ∈ slots s l₁, t ≠ after s l₁ → fwd' t = fwd t)
    (hrest₂ : ∀ e ∈ l₂, fwd' (.entry e) = fwd (.entry e)) : Forward fwd' s (l₁ ++ l₂) := by
  have hslots := slots_eq s l₁
  rw [hslots, List.nodup_append] at hnodup
  refine forward_append.mpr ⟨h₁.leads.congr fun t ht => ?_, h₂.moved hslot hrest₂⟩
  refine hrest₁ t (hslots ▸ List.mem_append_left _ ht) fun heq => ?_
  exact hnodup.2.2 t ht t (List.mem_singleton.mpr heq) rfl

/-- A queue is determined by where it starts. -/
theorem Forward.unique (h : Forward fwd s l) {l' : List ℕ} (h' : Forward fwd s l') : l = l' := by
  induction l generalizing s l' with
  | nil =>
      cases l' with
      | nil => rfl
      | cons e l' =>
          have hnone : fwd s = none := h.ends
          rw [h'.leads.1] at hnone
          cases hnone
  | cons e l ih =>
      cases l' with
      | nil =>
          have hnone : fwd s = none := h'.ends
          rw [h.leads.1] at hnone
          cases hnone
      | cons e' l' =>
          obtain rfl : e = e' := Option.some.inj (h.leads.1.symm.trans h'.leads.1)
          rw [ih ⟨h.leads.2, h.ends⟩ ⟨h'.leads.2, h'.ends⟩]

end Forward

/-! ## Slots kept in elements -/

/-- Each of the elements keeps the slot that leads to it. -/
def Backward (back : ℕ → Option Slot) : Slot → List ℕ → Prop
  | _, [] => True
  | s, e :: l => back e = some s ∧ Backward back (.entry e) l

section Backward
variable {back back' : ℕ → Option Slot} {s s' : Slot} {l l₁ l₂ : List ℕ} {e : ℕ}

theorem backward_append :
    Backward back s (l₁ ++ l₂) ↔ Backward back s l₁ ∧ Backward back (after s l₁) l₂ := by
  induction l₁ generalizing s with
  | nil => simp [Backward]
  | cons b l₁ ih => rw [List.cons_append, Backward, Backward, ih, after_cons, and_assoc]

theorem Backward.congr (h : Backward back s l) (heq : ∀ e ∈ l, back' e = back e) :
    Backward back' s l := by
  induction l generalizing s with
  | nil => trivial
  | cons e l ih =>
      refine ⟨?_, ih h.2 fun b hb => heq b (List.mem_cons_of_mem _ hb)⟩
      rw [heq e (List.mem_cons_self ..)]
      exact h.1

/-- Elements behind another slot: the first of them is told. -/
theorem Backward.moved (h : Backward back s l) (hl : l.Nodup)
    (hhead : ∀ b, l.head? = some b → back' b = some s')
    (hrest : ∀ b ∈ l, l.head? ≠ some b → back' b = back b) : Backward back' s' l := by
  cases l with
  | nil => trivial
  | cons e l =>
      refine ⟨hhead e rfl, h.2.congr fun b hb => hrest b (List.mem_cons_of_mem _ hb) ?_⟩
      rintro ⟨⟩
      exact (List.nodup_cons.mp hl).1 hb

/-- The slot kept in an element. -/
theorem Backward.get (h : Backward back s (l₁ ++ e :: l₂)) : back e = some (after s l₁) :=
  (backward_append.mp h).2.1

theorem Backward.insert (h : Backward back s (l₁ ++ l₂)) (hl : (l₁ ++ l₂).Nodup)
    (hnew : back' e = some (after s l₁))
    (hhead : ∀ b, l₂.head? = some b → back' b = some (.entry e))
    (hrest : ∀ b ∈ l₁ ++ l₂, l₂.head? ≠ some b → back' b = back b) :
    Backward back' s (l₁ ++ e :: l₂) := by
  obtain ⟨h₁, h₂⟩ := backward_append.mp h
  have hparts := List.nodup_append.mp hl
  refine backward_append.mpr ⟨h₁.congr fun b hb => ?_, hnew, h₂.moved hparts.2.1 hhead ?_⟩
  · refine hrest b (List.mem_append_left _ hb) fun hhead => ?_
    exact hparts.2.2 b hb b (List.mem_of_head? hhead) rfl
  · exact fun b hb => hrest b (List.mem_append_right _ hb)

theorem Backward.remove (h : Backward back s (l₁ ++ e :: l₂)) (hl : (l₁ ++ l₂).Nodup)
    (hhead : ∀ b, l₂.head? = some b → back' b = back e)
    (hrest : ∀ b ∈ l₁ ++ l₂, l₂.head? ≠ some b → back' b = back b) :
    Backward back' s (l₁ ++ l₂) := by
  obtain ⟨h₁, he, h₂⟩ := backward_append.mp h
  have hparts := List.nodup_append.mp hl
  refine backward_append.mpr ⟨h₁.congr fun b hb => ?_, h₂.moved hparts.2.1 (fun b hb => ?_) ?_⟩
  · refine hrest b (List.mem_append_left _ hb) fun hhead => ?_
    exact hparts.2.2 b hb b (List.mem_of_head? hhead) rfl
  · rw [hhead b hb, he]
  · exact fun b hb => hrest b (List.mem_append_right _ hb)

theorem Backward.join (h₁ : Backward back s l₁) (h₂ : Backward back s' l₂) (hl : (l₁ ++ l₂).Nodup)
    (hhead : ∀ b, l₂.head? = some b → back' b = some (after s l₁))
    (hrest : ∀ b ∈ l₁ ++ l₂, l₂.head? ≠ some b → back' b = back b) :
    Backward back' s (l₁ ++ l₂) := by
  have hparts := List.nodup_append.mp hl
  refine backward_append.mpr ⟨h₁.congr fun b hb => ?_, h₂.moved hparts.2.1 hhead ?_⟩
  · refine hrest b (List.mem_append_left _ hb) fun hhead => ?_
    exact hparts.2.2 b hb b (List.mem_of_head? hhead) rfl
  · exact fun b hb => hrest b (List.mem_append_right _ hb)

end Backward

/-! ## Heads and their queues -/

/-- What a kind of queue keeps beside the forward links: in its head the slot behind the last
element, and in each element the slot before it. -/
structure Kind where
  tail : Bool
  prev : Bool

/-- **A queue**: the elements `l` of the head `h`. -/
structure IsQueue (k : Kind) (m : Slot → Cell) (h : ℕ) (l : List ℕ) : Prop where
  nodup : l.Nodup
  forward : Forward (fun s => (m s).fwd) (.head h) l
  tail : k.tail = true → (m (.head h)).back = some (after (.head h) l)
  backward : k.prev = true → Backward (fun e => (m (.entry e)).back) (.head h) l

/-- **Heads with disjoint queues**; `A h` is `none` for a head that was never initialised. -/
structure Queues (k : Kind) (m : Slot → Cell) (A : ℕ → Option (List ℕ)) : Prop where
  queue : ∀ h l, A h = some l → IsQueue k m h l
  apart : ∀ h h' l l', A h = some l → A h' = some l' → h ≠ h' → ∀ e ∈ l, e ∉ l'

/-- An element that is in no queue but perhaps that of `h`. -/
def Apart (A : ℕ → Option (List ℕ)) (h e : ℕ) : Prop := ∀ h' l, A h' = some l → h' ≠ h → e ∉ l

/-- An element that is in no queue. -/
def Free (A : ℕ → Option (List ℕ)) (e : ℕ) : Prop := ∀ h l, A h = some l → e ∉ l

section Queues
variable {k : Kind} {m m' : Slot → Cell} {A A' : ℕ → Option (List ℕ)} {h e : ℕ} {l l' : List ℕ}

theorem Free.apart (he : Free A e) (h : ℕ) : Apart A h e := fun h' l hl _ => he h' l hl

theorem Queues.apart_of_mem (H : Queues k m A) (hl : A h = some l) (he : e ∈ l) : Apart A h e :=
  fun h' l' hl' hne hmem => H.apart h h' l l' hl hl' hne.symm e he hmem

/-- Other cells do not matter to a queue. -/
theorem IsQueue.congr (Q : IsQueue k m h l) (heq : ∀ s ∈ slots (.head h) l, m' s = m s) :
    IsQueue k m' h l where
  nodup := Q.nodup
  forward := Q.forward.congr fun s hs => by rw [heq s hs]
  tail hk := by
    rw [heq _ (List.mem_cons_self ..)]
    exact Q.tail hk
  backward hk := (Q.backward hk).congr fun e he => by rw [heq _ (entry_mem_slots he)]

/-- **Some queues change**: those of the heads in `T`, and no cell of another one. -/
theorem Queues.change (H : Queues k m A) (T : ℕ → Prop) (hsame : ∀ h, ¬ T h → A' h = A h)
    (hqueue : ∀ h l, T h → A' h = some l → IsQueue k m' h l)
    (hnew : ∀ h l, T h → A' h = some l → ∀ e ∈ l, Apart A' h e)
    (hframe : ∀ s, m' s ≠ m s → ∀ h l, ¬ T h → A h = some l → s ∉ slots (.head h) l) :
    Queues k m' A' where
  queue h l hl := by
    by_cases hT : T h
    · exact hqueue h l hT hl
    · rw [hsame h hT] at hl
      refine (H.queue h l hl).congr fun s hs => ?_
      by_contra hne
      exact hframe s hne h l hT hl hs
  apart h h' l l' hl hl' hne e he := by
    by_cases hT : T h
    · exact hnew h l hT hl e he h' l' hl' hne.symm
    · by_cases hT' : T h'
      · exact fun he' => hnew h' l' hT' hl' e he' h l hl hne he
      · rw [hsame h hT] at hl
        rw [hsame h' hT'] at hl'
        exact H.apart h h' l l' hl hl' hne e he

/-- **One queue changes**: its head is written, and elements that are in no other queue. -/
theorem Queues.update (H : Queues k m A) (hqueue : IsQueue k m' h l')
    (hnew : ∀ e ∈ l', Apart A h e)
    (hframe : ∀ s, m' s ≠ m s → s = .head h ∨ ∃ e, s = .entry e ∧ Apart A h e) :
    Queues k m' (Function.update A h (some l')) := by
  refine H.change (· = h) (fun h' hne => Function.update_of_ne hne _ _) ?_ ?_ ?_
  · rintro _ l rfl hl
    rw [Function.update_self] at hl
    rwa [← Option.some.inj hl]
  · rintro _ l rfl hl e he h' l'' hl'' hne
    rw [Function.update_self] at hl
    rw [Function.update_of_ne hne] at hl''
    rw [← Option.some.inj hl] at he
    exact hnew e he h' l'' hl'' hne
  · rintro s hs h' l'' hne hl'' hmem
    rw [slots, List.mem_cons, List.mem_map] at hmem
    obtain rfl | ⟨e, rfl, hapart⟩ := hframe s hs
    · obtain heq | ⟨b, -, heq⟩ := hmem
      · injection heq with heq
        exact hne heq.symm
      · cases heq
    · obtain heq | ⟨b, hb, heq⟩ := hmem
      · cases heq
      · injection heq with heq
        exact hapart h' l'' hl'' hne (heq ▸ hb)

end Queues

/-! ## Changes of one queue -/

section Changes
variable {k : Kind} {m m' : Slot → Cell} {h h' e : ℕ} {l l₁ l₂ : List ℕ}

theorem after_ne_entry (he : e ∉ l) (h : ℕ) : after (.head h) l ≠ .entry e := by
  intro heq
  have hmem := after_mem_slots (.head h) l
  rw [heq, slots, List.mem_cons, List.mem_map] at hmem
  obtain hhead | ⟨b, hb, hbe⟩ := hmem
  · cases hhead
  · injection hbe with hbe
    exact he (hbe ▸ hb)

/-- Only a slot among those of the elements can be that of an element. -/
theorem mem_of_after_eq (h : ℕ) (heq : after (.head h) l = .entry e) : e ∈ l :=
  Classical.not_not.mp fun he => after_ne_entry he h heq

/-- What is behind a non-empty rest does not depend on the start. -/
theorem after_eq_of_ne_nil (hl : l ≠ []) (s t : Slot) : after s l = after t l := by
  cases l with
  | nil => exact absurd rfl hl
  | cons e l => rfl

/-- **An element is linked in**, with all the words that this may write. -/
theorem IsQueue.insert (Q : IsQueue k m h (l₁ ++ l₂)) (he : e ∉ l₁ ++ l₂)
    (hfwd : ∀ s, (m' s).fwd = if s = after (.head h) l₁ then some e
      else if s = .entry e then l₂.head? else (m s).fwd)
    (htail : k.tail = true → (m' (.head h)).back =
      if l₂ = [] then some (.entry e) else (m (.head h)).back)
    (hprev : k.prev = true → ∀ b, (m' (.entry b)).back =
      if b = e then some (after (.head h) l₁)
      else if l₂.head? = some b then some (.entry e) else (m (.entry b)).back) :
    IsQueue k m' h (l₁ ++ e :: l₂) := by
  have hnodup := nodup_slots_head (h := h) Q.nodup
  have hslot := after_ne_entry (fun hmem => he (List.mem_append_left l₂ hmem)) h
  constructor
  · exact List.perm_middle.nodup_iff.mpr (List.nodup_cons.mpr ⟨he, Q.nodup⟩)
  · refine Q.forward.insert hnodup ?_ ?_ fun t ht hne => ?_
    · rw [hfwd, if_pos rfl]
    · rw [hfwd, if_neg hslot.symm, if_pos rfl, Q.forward.head]
    · rw [hfwd, if_neg hne, if_neg]
      rintro rfl
      rw [slots, List.mem_cons, List.mem_map] at ht
      obtain hhead | ⟨b, hb, hbe⟩ := ht
      · cases hhead
      · injection hbe with hbe
        exact he (hbe ▸ hb)
  · intro hk
    rw [htail hk, Q.tail hk, after_append, after_append, after_cons]
    by_cases hl : l₂ = []
    · rw [if_pos hl, hl, after_nil]
    · rw [if_neg hl, after_eq_of_ne_nil hl]
  · intro hk
    have hprev := hprev hk
    refine (Q.backward hk).insert Q.nodup ?_ (fun b hb => ?_) fun b hb hne => ?_
    · rw [hprev, if_pos rfl]
    · have hbe : b ≠ e := fun heq => he (heq ▸ List.mem_append_right _ (List.mem_of_head? hb))
      rw [hprev, if_neg hbe, if_pos hb]
    · rw [hprev, if_neg (ne_of_mem_of_not_mem hb he), if_neg hne]

/-- **An element is taken out.**  What becomes of its own words does not matter. -/
theorem IsQueue.remove (Q : IsQueue k m h (l₁ ++ e :: l₂))
    (hfwd : ∀ s, s ≠ .entry e → (m' s).fwd =
      if s = after (.head h) l₁ then l₂.head? else (m s).fwd)
    (htail : k.tail = true → (m' (.head h)).back =
      if l₂ = [] then some (after (.head h) l₁) else (m (.head h)).back)
    (hprev : k.prev = true → ∀ b, b ≠ e → (m' (.entry b)).back =
      if l₂.head? = some b then some (after (.head h) l₁) else (m (.entry b)).back) :
    IsQueue k m' h (l₁ ++ l₂) := by
  have hnodup := nodup_slots_head (h := h) Q.nodup
  obtain ⟨he, hl⟩ := List.nodup_cons.mp (List.perm_middle.nodup_iff.mp Q.nodup)
  have hslot := after_ne_entry (fun hmem => he (List.mem_append_left l₂ hmem)) h
  have hnext : (m (.entry e)).fwd = l₂.head? := by
    have hsplit : l₁ ++ e :: l₂ = (l₁ ++ [e]) ++ l₂ := by simp
    have Q' := Q.forward
    rw [hsplit] at Q'
    have hhead := Q'.head
    rwa [after_concat] at hhead
  constructor
  · exact hl
  · refine Q.forward.remove hnodup ?_ fun t ht hne => ?_
    · rw [hfwd _ hslot, if_pos rfl, hnext]
    · rw [hfwd, if_neg hne]
      rintro rfl
      rw [slots, List.mem_cons, List.mem_map] at ht
      obtain hhead | ⟨b, hb, hbe⟩ := ht
      · cases hhead
      · injection hbe with hbe
        exact he (hbe ▸ hb)
  · intro hk
    rw [htail hk, Q.tail hk, after_append, after_append, after_cons]
    by_cases hl : l₂ = []
    · rw [if_pos hl, hl, after_nil]
    · rw [if_neg hl, after_eq_of_ne_nil hl]
  · intro hk
    have hprev := hprev hk
    have hback := (Q.backward hk).get
    refine (Q.backward hk).remove hl (fun b hb => ?_) fun b hb hne => ?_
    · have hbe : b ≠ e := fun heq => he (heq ▸ List.mem_append_right _ (List.mem_of_head? hb))
      rw [hprev b hbe, if_pos hb, hback]
    · rw [hprev b (ne_of_mem_of_not_mem hb he), if_neg hne]

/-- **A queue is put at the end of another one.** -/
theorem IsQueue.join (Q₁ : IsQueue k m h l₁) (Q₂ : IsQueue k m h' l₂) (hl : (l₁ ++ l₂).Nodup)
    (hfwd : ∀ s, s ≠ .head h' → (m' s).fwd =
      if s = after (.head h) l₁ then l₂.head? else (m s).fwd) (hne : h ≠ h')
    (htail : k.tail = true → (m' (.head h)).back =
      if l₂ = [] then (m (.head h)).back else (m (.head h')).back)
    (hprev : k.prev = true → ∀ b, (m' (.entry b)).back =
      if l₂.head? = some b then some (after (.head h) l₁) else (m (.entry b)).back) :
    IsQueue k m' h (l₁ ++ l₂) := by
  have hparts := List.nodup_append.mp hl
  have hfirst : (m (.head h')).fwd = l₂.head? := Q₂.forward.first
  have hhead : ∀ t ∈ slots (.head h) l₁, t ≠ .head h' := by
    rintro t ht rfl
    rw [slots, List.mem_cons, List.mem_map] at ht
    obtain heq | ⟨b, -, heq⟩ := ht
    · injection heq with heq
      exact hne heq.symm
    · cases heq
  constructor
  · exact hl
  · refine Q₁.forward.join Q₂.forward (nodup_slots_head Q₁.nodup) ?_ (fun t ht hne => ?_)
      fun b hb => ?_
    · rw [hfwd _ (hhead _ (after_mem_slots _ _)), if_pos rfl, hfirst]
    · rw [hfwd t (hhead t ht), if_neg hne]
    · have hb₁ : b ∉ l₁ := fun hmem => hparts.2.2 b hmem b hb rfl
      rw [hfwd _ (by simp), if_neg (after_ne_entry hb₁ h).symm]
  · intro hk
    rw [htail hk, Q₁.tail hk, Q₂.tail hk, after_append]
    by_cases hl : l₂ = []
    · rw [if_pos hl, hl, after_nil]
    · rw [if_neg hl, after_eq_of_ne_nil hl]
  · intro hk
    have hprev := hprev hk
    refine (Q₁.backward hk).join (Q₂.backward hk) hl (fun b hb => ?_) fun b hb hne => ?_
    · rw [hprev, if_pos hb]
    · rw [hprev, if_neg hne]

end Changes

/-! ## The memory after a change -/

/-- The memory in which the element `e` is linked in behind the slot `s`, before `n`. -/
def inserted (k : Kind) (m : Slot → Cell) (h : ℕ) (s : Slot) (e : ℕ) (n : Option ℕ) (t : Slot) :
    Cell where
  fwd := if t = s then some e else if t = .entry e then n else (m t).fwd
  back :=
    match t with
    | .head x => if k.tail ∧ x = h ∧ n = none then some (.entry e) else (m (.head x)).back
    | .entry b =>
        if k.prev ∧ b = e then some s
        else if k.prev ∧ n = some b then some (.entry e) else (m (.entry b)).back

/-- The memory in which the element behind the slot `s` is taken out, before `n`. -/
def removed (k : Kind) (m : Slot → Cell) (h : ℕ) (s : Slot) (n : Option ℕ) (t : Slot) : Cell where
  fwd := if t = s then n else (m t).fwd
  back :=
    match t with
    | .head x => if k.tail ∧ x = h ∧ n = none then some s else (m (.head x)).back
    | .entry b => if k.prev ∧ n = some b then some s else (m (.entry b)).back

/-- The memory in which the queue of `h'`, which starts with `n`, is put behind the slot `s` of
the queue of `h`. -/
def joined (k : Kind) (m : Slot → Cell) (h h' : ℕ) (s : Slot) (n : ℕ) (t : Slot) : Cell where
  fwd := if t = .head h' then none else if t = s then some n else (m t).fwd
  back :=
    match t with
    | .head x =>
        if k.tail ∧ x = h' then some (.head h')
        else if k.tail ∧ x = h then (m (.head h')).back else (m (.head x)).back
    | .entry b => if k.prev ∧ b = n then some s else (m (.entry b)).back

/-- The memory in which two heads have changed their queues. -/
def swapped (k : Kind) (m : Slot → Cell) (h h' : ℕ) (t : Slot) : Cell where
  fwd :=
    if t = .head h' then (m (.head h)).fwd
    else if t = .head h then (m (.head h')).fwd else (m t).fwd
  back :=
    match t with
    | .head x =>
        if k.tail ∧ x = h' then
          if (m (.head h)).fwd = none then some (.head h') else (m (.head h)).back
        else if k.tail ∧ x = h then
          if (m (.head h')).fwd = none then some (.head h) else (m (.head h')).back
        else (m (.head x)).back
    | .entry b =>
        if k.prev ∧ (m (.head h)).fwd = some b then some (.head h')
        else if k.prev ∧ (m (.head h')).fwd = some b then some (.head h) else (m (.entry b)).back

/-- The memory in which a head has no elements. -/
def cleared (k : Kind) (m : Slot → Cell) (h : ℕ) (t : Slot) : Cell where
  fwd := if t = .head h then none else (m t).fwd
  back := if k.tail ∧ t = .head h then some (.head h) else (m t).back

section Memory
variable {k : Kind} {m : Slot → Cell} {A : ℕ → Option (List ℕ)} {h h' e n : ℕ} {l l₁ l₂ : List ℕ}

/-- The slot behind a prefix of a queue belongs to its head or to one of its elements. -/
theorem after_cases (h : ℕ) (l : List ℕ) :
    after (.head h) l = .head h ∨ ∃ b ∈ l, after (.head h) l = .entry b := by
  have hmem := after_mem_slots (.head h) l
  rw [slots, List.mem_cons, List.mem_map] at hmem
  obtain heq | ⟨b, hb, heq⟩ := hmem
  · exact .inl heq
  · exact .inr ⟨b, hb, heq.symm⟩

theorem after_eq_head {x : ℕ} (heq : after (.head h) l = .head x) : x = h := by
  obtain hh | ⟨b, -, hb⟩ := after_cases h l
  · rw [hh] at heq
    injection heq with heq
    exact heq.symm
  · rw [hb] at heq
    cases heq

theorem Queues.clear (H : Queues k m A) (h : ℕ) :
    Queues k (cleared k m h) (Function.update A h (some [])) := by
  refine H.update ⟨List.nodup_nil, ⟨trivial, if_pos rfl⟩, fun hk => if_pos ⟨hk, rfl⟩,
    fun _ => trivial⟩ (by simp) fun s hs => ?_
  by_contra hne
  rw [not_or] at hne
  exact hs (Cell.ext (if_neg hne.1) (if_neg fun h => hne.1 h.2))

/-- The cells that a change writes belong to no other queue. -/
theorem Queues.frame {m' : Slot → Cell} (H : Queues k m A) (hA : A h = some l)
    (hhead : ∀ x, x ≠ h → m' (.head x) = m (.head x))
    (hentry : ∀ b, b ∉ l → ¬ Free A b → m' (.entry b) = m (.entry b)) (s : Slot)
    (hs : m' s ≠ m s) : s = .head h ∨ ∃ e, s = .entry e ∧ Apart A h e := by
  cases s with
  | head x =>
      left
      by_contra hne
      rw [Slot.head.injEq] at hne
      exact hs (hhead x hne)
  | entry b =>
      refine .inr ⟨b, rfl, ?_⟩
      by_cases hb : b ∈ l
      · exact H.apart_of_mem hA hb
      · by_cases hfree : Free A b
        · exact hfree.apart h
        · exact absurd (hentry b hb hfree) hs

/-- The words of an element that is in no queue do not matter. -/
theorem Queues.forget {m' : Slot → Cell} (H : Queues k m A) (he : Free A e)
    (hm : ∀ s, s ≠ .entry e → m' s = m s) : Queues k m' A := by
  refine ⟨fun h l hl => (H.queue h l hl).congr fun s hs => hm s ?_, H.apart⟩
  rintro rfl
  rw [slots, List.mem_cons, List.mem_map] at hs
  obtain heq | ⟨b, hb, heq⟩ := hs
  · cases heq
  · injection heq with heq
    exact he h l hl (heq ▸ hb)

/-- **Linking in.** -/
theorem Queues.insert (H : Queues k m A) (hA : A h = some (l₁ ++ l₂)) (he : Free A e) :
    Queues k (inserted k m h (after (.head h) l₁) e l₂.head?)
      (Function.update A h (some (l₁ ++ e :: l₂))) := by
  have hel := he h _ hA
  have hhead : ∀ b, l₂.head? = some b → b ∈ l₁ ++ l₂ :=
    fun b hb => List.mem_append_right _ (List.mem_of_head? hb)
  refine H.update ((H.queue h _ hA).insert hel (fun s => rfl) (fun hk => ?_) fun hk b => ?_)
    (fun b hb => ?_) (H.frame hA (fun x hx => ?_) fun b hb hfree => ?_)
  · simp only [inserted, hk, true_and, List.head?_eq_none_iff]
  · simp only [inserted, hk, true_and]
  · rw [List.mem_append, List.mem_cons] at hb
    obtain hb | rfl | hb := hb
    · exact H.apart_of_mem hA (List.mem_append_left _ hb)
    · exact he.apart h
    · exact H.apart_of_mem hA (List.mem_append_right _ hb)
  · have hslot : Slot.head x ≠ after (.head h) l₁ := fun heq => hx (after_eq_head heq.symm)
    exact Cell.ext (by simp [inserted, hslot]) (by simp [inserted, hx])
  · have hbe : b ≠ e := fun heq => hfree (heq ▸ he)
    have hslot : Slot.entry b ≠ after (.head h) l₁ :=
      fun heq => hb (List.mem_append_left _ (mem_of_after_eq h heq.symm))
    have hnext : l₂.head? ≠ some b := fun heq => hb (hhead b heq)
    exact Cell.ext (by simp [inserted, hslot, hbe]) (by simp [inserted, hbe, hnext])

/-- **Taking out.** -/
theorem Queues.remove (H : Queues k m A) (hA : A h = some (l₁ ++ e :: l₂)) :
    Queues k (removed k m h (after (.head h) l₁) l₂.head?)
      (Function.update A h (some (l₁ ++ l₂))) := by
  have hsub : ∀ b ∈ l₁ ++ l₂, b ∈ l₁ ++ e :: l₂ := by
    intro b hb
    rw [List.mem_append] at hb ⊢
    exact hb.imp_right (List.mem_cons_of_mem _)
  refine H.update ((H.queue h _ hA).remove (fun s _ => rfl) (fun hk => ?_) fun hk b _ => ?_)
    (fun b hb => ?_) (H.frame hA (fun x hx => ?_) fun b hb _ => ?_)
  · simp only [removed, hk, true_and, List.head?_eq_none_iff]
  · simp only [removed, hk, true_and]
  · exact H.apart_of_mem hA (hsub b hb)
  · have hslot : Slot.head x ≠ after (.head h) l₁ := fun heq => hx (after_eq_head heq.symm)
    exact Cell.ext (by simp [removed, hslot]) (by simp [removed, hx])
  · have hslot : Slot.entry b ≠ after (.head h) l₁ :=
      fun heq => hb (hsub b (List.mem_append_left _ (mem_of_after_eq h heq.symm)))
    have hnext : l₂.head? ≠ some b :=
      fun heq => hb (hsub b (List.mem_append_right _ (List.mem_of_head? heq)))
    exact Cell.ext (by simp [removed, hslot]) (by simp [removed, hnext])

/-- The slots of two disjoint queues belong to one of them. -/
theorem notMem_slots_of_apart {s : Slot} (hs : s = .head h ∨ ∃ b ∈ l, s = .entry b)
    {x : ℕ} {l' : List ℕ} (hx : x ≠ h) (hl : ∀ b ∈ l, b ∉ l') : s ∉ slots (.head x) l' := by
  rw [slots, List.mem_cons, List.mem_map]
  obtain rfl | ⟨b, hb, rfl⟩ := hs
  · rintro (heq | ⟨c, -, heq⟩)
    · injection heq with heq
      exact hx heq.symm
    · cases heq
  · rintro (heq | ⟨c, hc, heq⟩)
    · cases heq
    · injection heq with heq
      exact hl b hb (heq ▸ hc)

/-- **Joining.** -/
theorem Queues.join (H : Queues k m A) (hne : h ≠ h') (hA : A h = some l₁)
    (hA' : A h' = some (n :: l₂)) :
    Queues k (joined k m h h' (after (.head h) l₁) n)
      (Function.update (Function.update A h (some (l₁ ++ n :: l₂))) h' (some [])) := by
  have Q₁ := H.queue h _ hA
  have Q₂ := H.queue h' _ hA'
  have hapart := H.apart h h' _ _ hA hA' hne
  have hl : (l₁ ++ n :: l₂).Nodup :=
    List.nodup_append.mpr ⟨Q₁.nodup, Q₂.nodup, fun b hb c hc heq => hapart b hb (heq ▸ hc)⟩
  refine H.change (fun x => x = h ∨ x = h') (fun x hx => ?_) (fun x l hx hl' => ?_)
    (fun x l hx hl' e he y l' hl'' hxy => ?_) fun s hs x l hx hAx => ?_
  · rw [not_or] at hx
    rw [Function.update_of_ne hx.2, Function.update_of_ne hx.1]
  · by_cases hxh : x = h'
    · subst hxh
      rw [Function.update_self] at hl'
      rw [← Option.some.inj hl']
      exact ⟨List.nodup_nil, ⟨trivial, if_pos rfl⟩, fun hk => if_pos ⟨hk, rfl⟩, fun _ => trivial⟩
    · obtain rfl := hx.resolve_right hxh
      rw [Function.update_of_ne hxh, Function.update_self] at hl'
      rw [← Option.some.inj hl']
      refine Q₁.join Q₂ hl (fun s hs => ?_) hne (fun hk => ?_) fun hk b => ?_
      · exact if_neg hs
      · simp [joined, hk, hne]
      · simp only [joined, hk, true_and, List.head?_cons, Option.some.injEq, eq_comm]
  · have hall := H.apart
    grind
  · rw [not_or] at hx
    have h₁ := fun b hb => H.apart h x _ _ hA hAx (Ne.symm hx.1) b hb
    have h₂ := fun b hb => H.apart h' x _ _ hA' hAx (Ne.symm hx.2) b hb
    by_contra hmem
    refine hs (Cell.ext ?_ ?_)
    · have hs' : s ≠ .head h' := by
        rintro rfl
        exact notMem_slots_of_apart (.inl rfl) hx.2 h₂ hmem
      have hslot : s ≠ after (.head h) l₁ := by
        rintro rfl
        exact notMem_slots_of_apart (after_cases h l₁) hx.1 h₁ hmem
      exact (if_neg hs').trans (if_neg hslot)
    · cases s with
      | head y =>
          have hyh : y ≠ h := by
            rintro rfl
            exact notMem_slots_of_apart (.inl rfl) hx.1 h₁ hmem
          have hyh' : y ≠ h' := by
            rintro rfl
            exact notMem_slots_of_apart (.inl rfl) hx.2 h₂ hmem
          simp [joined, hyh, hyh']
      | entry b =>
          have hbn : b ≠ n := by
            rintro rfl
            exact notMem_slots_of_apart (.inr ⟨b, List.mem_cons_self .., rfl⟩) hx.2 h₂ hmem
          simp [joined, hbn]

/-- A queue has moved to another head. -/
theorem IsQueue.move {m' : Slot → Cell} (Q : IsQueue k m h l)
    (hfirst : (m' (.head h')).fwd = (m (.head h)).fwd)
    (hfwd : ∀ b ∈ l, (m' (.entry b)).fwd = (m (.entry b)).fwd)
    (htail : k.tail = true → (m' (.head h')).back =
      if (m (.head h)).fwd = none then some (.head h') else (m (.head h)).back)
    (hprev : k.prev = true → ∀ b ∈ l, (m' (.entry b)).back =
      if (m (.head h)).fwd = some b then some (.head h') else (m (.entry b)).back) :
    IsQueue k m' h' l := by
  have hhead : (m (.head h)).fwd = l.head? := Q.forward.first
  refine ⟨Q.nodup, Q.forward.moved hfirst hfwd, fun hk => ?_, fun hk => ?_⟩
  · simp only [htail hk, hhead, List.head?_eq_none_iff, Q.tail hk]
    by_cases hl : l = []
    · rw [if_pos hl, hl, after_nil]
    · rw [if_neg hl, after_eq_of_ne_nil hl]
  · refine (Q.backward hk).moved Q.nodup (fun b hb => ?_) fun b hb hne => ?_
    · rw [hprev hk b (List.mem_of_head? hb), hhead, if_pos hb]
    · rw [hprev hk b hb, hhead, if_neg hne]

/-- **Swapping.** -/
theorem Queues.swap (H : Queues k m A) (hne : h ≠ h') (hA : A h = some l₁) (hA' : A h' = some l₂) :
    Queues k (swapped k m h h') (Function.update (Function.update A h (some l₂)) h' (some l₁)) := by
  have Q₁ := H.queue h _ hA
  have Q₂ := H.queue h' _ hA'
  have hfirst₁ : (m (.head h)).fwd = l₁.head? := Q₁.forward.first
  have hfirst₂ : (m (.head h')).fwd = l₂.head? := Q₂.forward.first
  have hapart := H.apart h h' _ _ hA hA' hne
  refine H.change (fun x => x = h ∨ x = h') (fun x hx => ?_) (fun x l hx hl' => ?_)
    (fun x l hx hl' e he y l' hl'' hxy => ?_) fun s hs x l hx hAx => ?_
  · rw [not_or] at hx
    rw [Function.update_of_ne hx.2, Function.update_of_ne hx.1]
  · by_cases hxh : x = h'
    · subst hxh
      rw [Function.update_self] at hl'
      rw [← Option.some.inj hl']
      refine Q₁.move ?_ (fun b hb => ?_) (fun hk => ?_) fun hk b hb => ?_
      · simp [swapped]
      · simp [swapped]
      · simp [swapped, hk]
      · have hb₂ : l₂.head? ≠ some b := fun heq => hapart b hb (List.mem_of_head? heq)
        simp [swapped, hk, hfirst₂, hb₂]
    · obtain rfl := hx.resolve_right hxh
      rw [Function.update_of_ne hxh, Function.update_self] at hl'
      rw [← Option.some.inj hl']
      refine Q₂.move ?_ (fun b hb => ?_) (fun hk => ?_) fun hk b hb => ?_
      · simp [swapped, hne]
      · simp [swapped]
      · simp [swapped, hk, hne]
      · have hb₁ : l₁.head? ≠ some b := fun heq => hapart b (List.mem_of_head? heq) hb
        simp [swapped, hk, hfirst₁, hb₁]
  · have hall := H.apart
    grind
  · rw [not_or] at hx
    have h₁ := fun b hb => H.apart h x _ _ hA hAx (Ne.symm hx.1) b hb
    have h₂ := fun b hb => H.apart h' x _ _ hA' hAx (Ne.symm hx.2) b hb
    by_contra hmem
    have hsh : s ≠ .head h := by
      rintro rfl
      exact notMem_slots_of_apart (.inl rfl) hx.1 h₁ hmem
    have hsh' : s ≠ .head h' := by
      rintro rfl
      exact notMem_slots_of_apart (.inl rfl) hx.2 h₂ hmem
    refine hs (Cell.ext ((if_neg hsh').trans (if_neg hsh)) ?_)
    cases s with
    | head y =>
        rw [ne_eq, Slot.head.injEq] at hsh hsh'
        simp [swapped, hsh, hsh']
    | entry b =>
        have hb₁ : l₁.head? ≠ some b := by
          intro heq
          exact notMem_slots_of_apart (.inr ⟨b, List.mem_of_head? heq, rfl⟩) hx.1 h₁ hmem
        have hb₂ : l₂.head? ≠ some b := by
          intro heq
          exact notMem_slots_of_apart (.inr ⟨b, List.mem_of_head? heq, rfl⟩) hx.2 h₂ hmem
        simp [swapped, hfirst₁, hfirst₂, hb₁, hb₂]

end Memory

end Slot

end Lib
