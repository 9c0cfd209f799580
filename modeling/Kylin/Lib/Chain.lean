import Mathlib.Data.List.Induction
import Mathlib.Data.List.Nodup
import Mathlib.Tactic.Common

/-!
# Doubly linked chains

Nodes carry two links, `prev` and `next`.  `Chain g p l n` says that the nodes `l`
are linked to one another in this order both ways, that the first points back to
`p` and the last on to `n`.  A chain splits where its list of nodes does,
`chain_append`, and depends only on the links of its own nodes, `Chain.congr`.
From this follow the rules that list operations need: a node linked in between two
halves, a node taken out from between them, and two segments joined.

## Main definitions

* `Link`, `Chain` — links and linked segments.
* `Walk` — the nodes met by following one link to its end.
* `Chain.insert`, `Chain.remove`, `Chain.join` — the rules.
* `Chain.walk_next`, `Chain.walk_prev` — a closed chain is walked from its head and,
  in reverse, from its last node.
-/

namespace Lib

/-- The links of a node; `none` is the null pointer. -/
structure Link where
  prev : Option ℕ
  next : Option ℕ

/-- The nodes `l`, linked in this order both ways, between `p` and `n`. -/
def Chain (g : ℕ → Option Link) : Option ℕ → List ℕ → Option ℕ → Prop
  | _, [], _ => True
  | p, a :: l, n => g a = some ⟨p, l.head?.or n⟩ ∧ Chain g (some a) l n

/-- The nodes met by following `next` from `p` until it is null. -/
def Walk (next : ℕ → Option (Option ℕ)) : Option ℕ → List ℕ → Prop
  | p, [] => p = none
  | p, a :: l => p = some a ∧ ∃ n, next a = some n ∧ Walk next n l

/-- A walk is determined by where it starts. -/
theorem Walk.unique {next : ℕ → Option (Option ℕ)} :
    ∀ {p : Option ℕ} {l l' : List ℕ}, Walk next p l → Walk next p l' → l = l'
  | _, [], [], _, _ => rfl
  | _, [], _ :: _, h, h' => by
      rw [Walk] at h
      rw [h] at h'
      cases h'.1
  | _, _ :: _, [], h, h' => by
      rw [Walk] at h'
      rw [h'] at h
      cases h.1
  | _, a :: l, b :: l', ⟨h, n, hn, hw⟩, ⟨h', n', hn', hw'⟩ => by
      obtain rfl : a = b := Option.some.inj (h.symm.trans h')
      obtain rfl : n = n' := Option.some.inj (hn.symm.trans hn')
      rw [hw.unique hw']

section Chain
variable {g g' : ℕ → Option Link} {p n : Option ℕ} {l l₁ l₂ : List ℕ} {a : ℕ}

theorem Chain.congr (h : Chain g p l n) (hg : ∀ b ∈ l, g' b = g b) : Chain g' p l n := by
  induction l generalizing p with
  | nil => trivial
  | cons b l ih =>
      refine ⟨?_, ih h.2 fun c hc => hg c (List.mem_cons_of_mem b hc)⟩
      rw [hg b List.mem_cons_self]
      exact h.1

/-- Chains split where their lists do. -/
theorem chain_append :
    Chain g p (l₁ ++ l₂) n ↔
      Chain g p l₁ (l₂.head?.or n) ∧ Chain g (l₁.getLast?.or p) l₂ n := by
  induction l₁ generalizing p with
  | nil => simp [Chain]
  | cons b l ih =>
      have hlast : (b :: l).getLast?.or p = l.getLast?.or (some b) := by
        cases h : l.getLast? <;> simp [List.getLast?_cons, h]
      rw [List.cons_append, Chain, Chain, ih, hlast, List.head?_append, Option.or_assoc, and_assoc]

/-- Redirect the last link of a segment. -/
theorem Chain.relink_last (h : Chain g p l n) (hl : l.Nodup) {n' : Option ℕ}
    (hlast : ∀ b, l.getLast? = some b → g' b = (g b).map fun x => { x with next := n' })
    (hrest : ∀ b ∈ l, l.getLast? ≠ some b → g' b = g b) : Chain g' p l n' := by
  rcases List.eq_nil_or_concat l with rfl | ⟨l', z, rfl⟩
  · trivial
  · rw [List.concat_eq_append] at *
    rw [chain_append] at h ⊢
    refine ⟨h.1.congr fun b hb => hrest b (List.mem_append_left _ hb) ?_, ?_, trivial⟩
    · rw [List.getLast?_append]
      intro hz
      have hzb : z = b := by simpa using hz
      exact List.disjoint_of_nodup_append hl hb (by simp [hzb])
    · rw [hlast z (by simp), h.2.1]
      simp

/-- Redirect the first link of a segment. -/
theorem Chain.relink_head (h : Chain g p l n) (hl : l.Nodup) {p' : Option ℕ}
    (hhead : ∀ b, l.head? = some b → g' b = (g b).map fun x => { x with prev := p' })
    (hrest : ∀ b ∈ l, l.head? ≠ some b → g' b = g b) : Chain g' p' l n := by
  cases l with
  | nil => trivial
  | cons b l =>
      refine ⟨?_, h.2.congr fun c hc => hrest c (List.mem_cons_of_mem b hc) ?_⟩
      · rw [hhead b rfl, h.1]
        rfl
      · intro hc'
        have hbc : b = c := by simpa using hc'
        exact (List.nodup_cons.mp hl).1 (hbc ▸ hc)

theorem ne_getLast?_of_notMem (ha : a ∉ l) : l.getLast? ≠ some a := fun h =>
  ha (List.mem_of_getLast? h)

theorem ne_head?_of_notMem (ha : a ∉ l) : l.head? ≠ some a := fun h => ha (List.mem_of_head? h)

/-- **Linking in a node** between `l₁` and `l₂`. -/
theorem Chain.insert (h : Chain g none (l₁ ++ l₂) none) (hl : (l₁ ++ l₂).Nodup)
    (ha : a ∉ l₁ ++ l₂) (hnew : g' a = some ⟨l₁.getLast?, l₂.head?⟩)
    (hlast : ∀ b, l₁.getLast? = some b → g' b = (g b).map fun x => { x with next := some a })
    (hhead : ∀ b, l₂.head? = some b → g' b = (g b).map fun x => { x with prev := some a })
    (hrest : ∀ b, b ≠ a → l₁.getLast? ≠ some b → l₂.head? ≠ some b → g' b = g b) :
    Chain g' none (l₁ ++ a :: l₂) none := by
  have hd := List.disjoint_of_nodup_append hl
  have hne : ∀ b ∈ l₁ ++ l₂, b ≠ a := fun b hb hba => ha (hba ▸ hb)
  rw [chain_append] at h ⊢
  refine ⟨h.1.relink_last (List.Nodup.of_append_left hl) hlast fun b hb hb' => ?_, ?_, ?_⟩
  · exact hrest b (hne b (List.mem_append_left _ hb)) hb'
      (ne_head?_of_notMem fun hb2 => hd hb hb2)
  · rw [hnew, Option.or_none, Option.or_none]
  · refine h.2.relink_head (List.Nodup.of_append_right hl) hhead fun b hb hb' => ?_
    exact hrest b (hne b (List.mem_append_right _ hb))
      (ne_getLast?_of_notMem fun hb1 => hd hb1 hb) hb'

/-- **Joining two segments** by the last link of one and the first of the other. -/
theorem Chain.join {p' n' : Option ℕ} (h₁ : Chain g none l₁ n') (h₂ : Chain g p' l₂ none)
    (hl : (l₁ ++ l₂).Nodup)
    (hlast : ∀ b, l₁.getLast? = some b → g' b = (g b).map fun x => { x with next := l₂.head? })
    (hhead : ∀ b, l₂.head? = some b → g' b = (g b).map fun x => { x with prev := l₁.getLast? })
    (hrest : ∀ b ∈ l₁ ++ l₂, l₁.getLast? ≠ some b → l₂.head? ≠ some b → g' b = g b) :
    Chain g' none (l₁ ++ l₂) none := by
  obtain ⟨hl1, hl2, hd⟩ := List.nodup_append'.mp hl
  rw [chain_append, Option.or_none, Option.or_none]
  constructor
  · refine h₁.relink_last hl1 hlast fun b hb hb' => ?_
    exact hrest b (List.mem_append_left _ hb) hb' (ne_head?_of_notMem fun hb2 => hd hb hb2)
  · refine h₂.relink_head hl2 hhead fun b hb hb' => ?_
    exact hrest b (List.mem_append_right _ hb) (ne_getLast?_of_notMem fun hb1 => hd hb1 hb) hb'

/-- **Taking out a node** from between `l₁` and `l₂`. -/
theorem Chain.remove (h : Chain g none (l₁ ++ a :: l₂) none) (hl : (l₁ ++ a :: l₂).Nodup)
    (hlast : ∀ b, l₁.getLast? = some b → g' b = (g b).map fun x => { x with next := l₂.head? })
    (hhead : ∀ b, l₂.head? = some b → g' b = (g b).map fun x => { x with prev := l₁.getLast? })
    (hrest : ∀ b, b ≠ a → l₁.getLast? ≠ some b → l₂.head? ≠ some b → g' b = g b) :
    Chain g' none (l₁ ++ l₂) none := by
  obtain ⟨ha, hl'⟩ := List.nodup_cons.mp (List.nodup_middle.mp hl)
  rw [chain_append] at h
  exact h.1.join h.2.2 hl' hlast hhead fun b hb => hrest b fun hba => ha (hba ▸ hb)

/-- The links of a node inside a closed chain. -/
theorem Chain.link (h : Chain g none (l₁ ++ a :: l₂) none) :
    g a = some ⟨l₁.getLast?, l₂.head?⟩ := by
  rw [chain_append] at h
  simpa using h.2.1

theorem Chain.isSome (h : Chain g p l n) (ha : a ∈ l) : (g a).isSome := by
  induction l generalizing p with
  | nil => cases ha
  | cons b l ih =>
      rcases List.mem_cons.mp ha with rfl | ha
      · rw [h.1]
        rfl
      · exact ih h.2 ha

/-- Following `next` from the head meets the nodes in order. -/
theorem Chain.walk_next (h : Chain g p l none) :
    Walk (fun b => (g b).map Link.next) l.head? l := by
  induction l generalizing p with
  | nil => rfl
  | cons b l ih =>
      refine ⟨rfl, l.head?, ?_, ih h.2⟩
      simp only [h.1, Option.map_some, Option.or_none]

/-- Following `prev` from the last node meets them in reverse. -/
theorem Chain.walk_prev (h : Chain g none l n) :
    Walk (fun b => (g b).map Link.prev) l.getLast? l.reverse := by
  induction l using List.reverseRecOn generalizing n with
  | nil => rfl
  | append_singleton l b ih =>
      rw [chain_append] at h
      rw [List.reverse_append]
      refine ⟨by simp, l.getLast?, ?_, ih h.1⟩
      simp only [h.2.1, Option.map_some, Option.or_none]

end Chain

end Lib
