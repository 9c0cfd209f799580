import Kylin.Math.List

/-!
# Positions in a list, joining and reversing lists

The functions of `lib/core/math/kylin_list.c` that go through a whole list without a
match: `kylin_list_find_index` and its raw form, `kylin_list_join` and
`kylin_list_rotate`.

The loop of the look-ups tests `i < count` where positions run up to `count`, so that
the last position is never compared.  Joining an empty list takes its null tail over.
Reversing stops before the last node, which keeps its links.

## Main definitions

* `World.findIndexRaw`, `World.findIndex` — look-up by position.
* `World.join`, `World.rotate` — concatenation and reversal.

## Main results

* `findIndex_iff`, `join_iff`, `rotate_iff` — when each of them does what its name says.
* `Holds.rotateLoop_spec` — the links the loop of a reversal swaps.
-/

namespace Kylin.Klist.World

open Lib

variable {α : Type} {w : World α} {l l₁ l₂ : List ℕ}

/-! ## Look-up by position -/

/-- `kylin_list_first`. -/
def first (w : World α) : Option ℕ := w.guard.head

/-- `kylin_list_next`. -/
def next (w : World α) (node : Option ℕ) : Option (Option ℕ) :=
  (w.heap.load node).map KlistNode.next

/-- `kylin_list_val`. -/
def val (w : World α) (node : Option ℕ) : Option (KPtr α) :=
  (w.heap.load node).map fun x => kmathValGet x.val w.guard.opts.valType

/-- `index > LIST_COUNT(guard)`, which converts an `int` to `size_t`. -/
def beyondCount (w : World α) (index : BitVec 32) : Prop :=
  w.guard.count < (index.signExtend 64).toNat

instance (w : World α) (index : BitVec 32) : Decidable (w.beyondCount index) :=
  inferInstanceAs (Decidable (_ < _))

/-- The loop of the look-ups by position, which return `hit tmp` at the position and `miss`
behind the loop.  Beyond `INT_MAX` the increment of `i` is undefined. -/
def indexLoop {β : Type} (w : World α) (index : BitVec 32) (hit : Option ℕ → Option β) (miss : β) :
    ℕ → ℕ → Option ℕ → Option β
  | 0, _, _ => none
  | fuel + 1, i, tmp =>
      if i < w.guard.count then
        if (i : ℤ) = index.toInt then hit tmp
        else do
          let tmp ← w.next tmp
          if i + 1 < 2 ^ 31 then indexLoop w index hit miss fuel (i + 1) tmp else none
      else some miss

/-- The two look-ups by position. -/
def findIndexWith {β : Type} (w : World α) (index : BitVec 32) (hit : Option ℕ → Option β)
    (miss : β) : Option β :=
  if w.beyondCount index then some miss
  else w.indexLoop index hit miss (w.guard.count + 1) 1 w.first

/-- `kylin_list_find_index_raw`. -/
def findIndexRaw (w : World α) (index : BitVec 32) : Option (Option ℕ) :=
  w.findIndexWith index some none

/-- `kylin_list_find_index`. -/
def findIndex (w : World α) (index : BitVec 32) : Option (KPtr α) :=
  w.findIndexWith index w.val .null

/-- The node reached by `n` applications of `kylin_list_next`. -/
def follow (w : World α) : ℕ → Option ℕ → Option (Option ℕ)
  | 0, p => some p
  | n + 1, p => do
      let p ← w.next p
      follow w n p

/-- What the look-ups by position are for. -/
def FindsIndex (w : World α) (index : BitVec 32) : Prop :=
  if 1 ≤ index.toInt ∧ index.toInt ≤ w.guard.count then
    ∃ a v, w.follow (index.toInt - 1).toNat w.first = some (some a) ∧ w.val (some a) = some v ∧
      w.findIndexRaw index = some (some a) ∧ w.findIndex index = some v
  else w.findIndexRaw index = some none ∧ w.findIndex index = some .null

namespace Holds

/-- Following a chain from its head. -/
theorem follow_eq {p : Option ℕ} (h : Chain w.links p l none) {n : ℕ} (hn : n ≤ l.length) :
    w.follow n l.head? = some (l.drop n).head? := by
  induction n generalizing p l with
  | zero => rfl
  | succ n ih =>
      cases l with
      | nil => simp at hn
      | cons a l =>
          obtain ⟨v, hget⟩ := get_of_links h.1
          have hrest := ih h.2 (Nat.le_of_succ_le_succ hn)
          simpa [follow, next, Heap.load, hget] using hrest

/-- The loop from any position on: it stops at the position it looks for, or at the last
one, which it does not look at. -/
theorem indexLoop_eq {β : Type} {index : BitVec 32} {hit : Option ℕ → Option β} {miss : β}
    {p : Option ℕ} (h : Chain w.links p l none) {i fuel : ℕ} (hi : i + l.length = w.guard.count + 1)
    (hpos : 0 < i) (hc : w.guard.count < 2 ^ 31) (hfuel : l.length < fuel) :
    w.indexLoop index hit miss fuel i l.head? =
      if (i : ℤ) ≤ index.toInt ∧ index.toInt < w.guard.count then
        hit (l.drop (index.toInt - i).toNat).head?
      else some miss := by
  induction l generalizing i fuel p with
  | nil =>
      obtain ⟨fuel, rfl⟩ : ∃ k, fuel = k + 1 := ⟨fuel - 1, by omega⟩
      simp only [List.length_nil] at hi
      rw [indexLoop, if_neg (by omega), if_neg (by omega)]
  | cons a l ih =>
      obtain ⟨fuel, rfl⟩ : ∃ k, fuel = k + 1 := ⟨fuel - 1, by omega⟩
      obtain ⟨v, hget⟩ := get_of_links h.1
      have hnext : w.next (some a) = some l.head? := by simp [next, Heap.load, hget]
      simp only [List.length_cons] at hi hfuel
      rw [indexLoop, List.head?_cons]
      by_cases hlast : i < w.guard.count
      · rw [if_pos hlast]
        by_cases heq : (i : ℤ) = index.toInt
        · rw [if_pos heq, if_pos (by omega), ← heq]
          simp
        · have hrest : w.indexLoop index hit miss fuel (i + 1) l.head? = _ :=
            ih h.2 (by omega) (by omega) (by omega)
          simp only [if_neg heq, hnext, Option.bind_eq_bind, Option.bind_some]
          rw [if_pos (by omega), hrest]
          by_cases hin : (i : ℤ) ≤ index.toInt ∧ index.toInt < w.guard.count
          · have hdrop : (index.toInt - i).toNat = (index.toInt - (i + 1 : ℕ)).toNat + 1 := by omega
            rw [if_pos hin, if_pos (by omega), hdrop, List.drop_succ_cons]
          · rw [if_neg hin, if_neg (by omega)]
      · rw [if_neg hlast, if_neg (by omega)]

/-- Negative positions are large as a `size_t`. -/
theorem beyondCount_iff {index : BitVec 32} (hc : w.guard.count < 2 ^ 31) :
    w.beyondCount index ↔ index.toInt < 0 ∨ (w.guard.count : ℤ) < index.toInt := by
  have htoInt : (index.signExtend 64).toInt = index.toInt :=
    BitVec.toInt_signExtend_of_le (by decide)
  have hlt : index.toInt < 2 ^ 31 := BitVec.toInt_lt
  have hle : -2 ^ 31 ≤ index.toInt := BitVec.le_toInt index
  rw [BitVec.toInt_eq_toNat_cond] at htoInt
  have hnat := (index.signExtend 64).isLt
  unfold beyondCount
  split at htoInt <;> omega

/-- **A look-up by position** finds every position but the last. -/
theorem findIndexWith_eq {β : Type} {index : BitVec 32} {hit : Option ℕ → Option β} {miss : β}
    (H : Holds w l) (hl : l.length < 2 ^ 31) :
    w.findIndexWith index hit miss =
      if 1 ≤ index.toInt ∧ index.toInt < w.guard.count then
        hit (l.drop (index.toInt - 1).toNat).head?
      else some miss := by
  have hcount := H.count_eq
  have hc : w.guard.count < 2 ^ 31 := hcount ▸ hl
  have hloop : w.indexLoop index hit miss (w.guard.count + 1) 1 l.head? = _ :=
    indexLoop_eq H.chain (by omega) Nat.one_pos hc (by omega)
  unfold findIndexWith
  by_cases hb : w.beyondCount index
  · have hout := (beyondCount_iff hc).mp hb
    rw [if_pos hb, if_neg (by omega)]
  · rw [if_neg hb, first, H.head_eq, hloop]
    rfl

end Holds

/-- **Look-up by position.**  In every list that an `int` can count, the two functions find
the node at a position, and nothing outside the list, except at the last position. -/
theorem findIndex_iff (H : Holds w l) (hl : l.length < 2 ^ 31) (index : BitVec 32) :
    w.FindsIndex index ↔ (index.toInt = w.guard.count → w.guard.count = 0) := by
  have hcount := H.count_eq
  have hfollow : ∀ n ≤ l.length, w.follow n w.first = some (l.drop n).head? := by
    intro n hn
    rw [first, H.head_eq]
    exact Holds.follow_eq H.chain hn
  rw [FindsIndex, findIndexRaw, findIndex, H.findIndexWith_eq hl, H.findIndexWith_eq hl]
  by_cases hin : 1 ≤ index.toInt ∧ index.toInt ≤ w.guard.count
  · rw [if_pos hin]
    by_cases hlast : index.toInt = w.guard.count
    · have hout : ¬ (1 ≤ index.toInt ∧ index.toInt < w.guard.count) := by omega
      rw [if_neg hout, if_neg hout]
      constructor
      · rintro ⟨a, v, -, -, ha, -⟩
        cases ha
      · intro h
        have := h hlast
        omega
    · have hlt : (index.toInt - 1).toNat < l.length := by omega
      have hdrop : (l.drop (index.toInt - 1).toNat).head? =
          some (l.get ⟨(index.toInt - 1).toNat, hlt⟩) := by
        rw [List.head?_drop]
        exact List.getElem?_eq_getElem hlt
      have hfound : 1 ≤ index.toInt ∧ index.toInt < w.guard.count := by omega
      obtain ⟨x, hx⟩ := Option.isSome_iff_exists.mp (H.isSome (List.get_mem l ⟨_, hlt⟩))
      have hval : w.val (some (l.get ⟨_, hlt⟩)) =
          some (kmathValGet x.val w.guard.opts.valType) := by
        rw [val, Heap.load, Option.bind_some, hx, Option.map_some]
      rw [if_pos hfound, if_pos hfound, hfollow _ (Nat.le_of_lt hlt), hdrop]
      exact iff_of_true ⟨_, _, rfl, hval, rfl, hval⟩ fun h => absurd h hlast
  · rw [if_neg hin, if_neg (by omega), if_neg (by omega)]
    exact iff_of_true ⟨rfl, rfl⟩ (by omega)

/-- A list of two nodes. -/
def two : World ℕ where
  guard := ⟨some 1, some 2, ⟨.others, false, fun _ _ => 1⟩, 2⟩
  heap := ⟨fun a =>
    if a = 1 then some ⟨none, some 2, .v (.user (.obj 10))⟩
    else if a = 2 then some ⟨some 1, none, .v (.user (.obj 20))⟩
    else none⟩
  destroyed := []
  kerrno := .ok

theorem holds_two : Holds two [1, 2] :=
  ⟨⟨rfl, rfl, trivial⟩, rfl, rfl, rfl, by decide⟩

/-- The first of two nodes is found. -/
theorem findIndex_iff_first :
    two.FindsIndex 1 ∧ two.findIndexRaw 1 = some (some 1) :=
  ⟨(findIndex_iff holds_two (by decide) 1).mpr (by decide), by decide⟩

/-- The second of two nodes is not. -/
theorem findIndex_last :
    Holds two [1, 2] ∧ two.findIndexRaw 2 = some none ∧ ¬ two.FindsIndex 2 := by
  have hraw : two.findIndexRaw 2 = some none := by decide
  refine ⟨holds_two, hraw, ?_⟩
  rw [FindsIndex, if_pos (by decide), hraw]
  rintro ⟨a, v, -, -, ha, -⟩
  cases ha

/-! ## Concatenation -/

/-- Another list on the same heap. -/
def withGuard (w : World α) (guard : Klist α) : World α := { w with guard := guard }

/-- `kylin_list_join`, with the list of `w` for `dest`. -/
def join (w : World α) (src : Klist α) : Option (World α × Klist α) := do
  let w ←
    match src.head with
    | some h => w.setPrev (some h) w.guard.tail
    | none => some w
  let w ←
    match w.guard.tail with
    | some t => w.setNext (some t) src.head
    | none => some (w.setHead src.head)
  let w := w.setTail src.tail
  let w := w.setCount (w.guard.count + src.count)
  some (w, { src with head := none, tail := none, count := 0 })

/-- What joining is for. -/
def Joins (w : World α) (src : Klist α) (l₁ l₂ : List ℕ) : Prop :=
  ∃ w' src', w.join src = some (w', src') ∧ Holds w' (l₁ ++ l₂) ∧ Holds (w'.withGuard src') []

/-- What joining does to two lists of distinct nodes. -/
theorem Holds.join_spec {src : Klist α} (H₁ : Holds w l₁) (H₂ : Holds (w.withGuard src) l₂)
    (hd : l₁.Disjoint l₂) :
    ∃ w', w.join src = some (w', { src with head := none, tail := none, count := 0 }) ∧
      w'.guard = { w.guard with
        head := (l₁ ++ l₂).head?, tail := l₂.getLast?, count := l₁.length + l₂.length } ∧
      ∀ b, w'.links b =
        if l₁.getLast? = some b then (w.links b).map fun x => { x with next := l₂.head? }
        else if l₂.head? = some b then (w.links b).map fun x => { x with prev := l₁.getLast? }
        else w.links b := by
  have hhead : w.guard.head = l₁.head? := H₁.head_eq
  have htail : w.guard.tail = l₁.getLast? := H₁.tail_eq
  have hcount : w.guard.count = l₁.length := H₁.count_eq
  have hhead' : src.head = l₂.head? := H₂.head_eq
  have htail' : src.tail = l₂.getLast? := H₂.tail_eq
  have hcount' : src.count = l₂.length := H₂.count_eq
  cases ht : l₁.getLast? with
  | none =>
      obtain rfl : l₁ = [] := List.getLast?_eq_none_iff.mp ht
      rw [ht] at htail
      cases hh : l₂.head? with
      | none =>
          rw [hh] at hhead'
          refine ⟨((w.setHead none).setTail l₂.getLast?).setCount (w.guard.count + l₂.length), ?_,
            ?_, fun b => ?_⟩
          · simp [join, hhead', htail, htail', hcount']
          · simp [hcount, hh]
          · simp
      | some h =>
          have hlive : (w.heap.get h).isSome := H₂.isSome (List.mem_of_head? hh)
          rw [hh] at hhead'
          refine ⟨(((w.putPrev h none).setHead (some h)).setTail l₂.getLast?).setCount
            (w.guard.count + l₂.length), ?_, ?_, fun b => ?_⟩
          · simp [join, hhead', htail, htail', hcount', hlive]
          · simp [hcount, hh]
          · simp [eq_comm]
  | some t =>
      have htlive : (w.heap.get t).isSome := H₁.isSome (List.mem_of_getLast? ht)
      have hne : l₁ ≠ [] := by
        rintro rfl
        cases ht
      have hsame : (l₁ ++ l₂).head? = l₁.head? := List.head?_append_of_ne_nil _ hne
      rw [ht] at htail
      cases hh : l₂.head? with
      | none =>
          rw [hh] at hhead'
          refine ⟨((w.putNext t none).setTail l₂.getLast?).setCount (w.guard.count + l₂.length),
            ?_, ?_, fun b => ?_⟩
          · simp [join, hhead', htail, htail', hcount', htlive]
          · simp [hcount, hhead, hsame]
          · simp [eq_comm]
      | some h =>
          have hlive : (w.heap.get h).isSome := H₂.isSome (List.mem_of_head? hh)
          have hth : t ≠ h := fun e => hd (List.mem_of_getLast? ht) (e ▸ List.mem_of_head? hh)
          rw [hh] at hhead'
          refine ⟨(((w.putPrev h (some t)).putNext t (some h)).setTail l₂.getLast?).setCount
            (w.guard.count + l₂.length), ?_, ?_, fun b => ?_⟩
          · simp [join, hhead', htail, htail', hcount', hlive, htlive]
          · simp [hcount, hhead, hsame]
          · by_cases hb : b = t
            · simp [hb, hth]
            · simp [hb, Ne.symm hb, eq_comm]

/-- **Joining two lists** gives their concatenation and leaves the second empty, except that
the tail of a list is lost when an empty one is joined to it. -/
theorem join_iff {src : Klist α} (H₁ : Holds w l₁) (H₂ : Holds (w.withGuard src) l₂)
    (hd : l₁.Disjoint l₂) : w.Joins src l₁ l₂ ↔ l₂ ≠ [] ∨ l₁ = [] := by
  obtain ⟨w', hrun, hguard, hlinks⟩ := H₁.join_spec H₂ hd
  have htail : w'.guard.tail = l₂.getLast? := by rw [hguard]
  constructor
  · rintro ⟨w₁, src₁, hrun₁, H, -⟩
    obtain ⟨rfl, rfl⟩ := Prod.mk.inj (Option.some.inj (hrun.symm.trans hrun₁))
    by_cases hne : l₂ = []
    · subst hne
      have hlast := H.tail_eq.symm.trans htail
      rw [List.append_nil] at hlast
      exact Or.inr (List.getLast?_eq_none_iff.mp hlast)
    · exact Or.inl hne
  · intro hwhen
    have hnodup : (l₁ ++ l₂).Nodup := List.nodup_append'.mpr ⟨H₁.nodup, H₂.nodup, hd⟩
    refine ⟨w', _, hrun, ⟨?_, by rw [hguard], ?_, ?_, hnodup⟩, trivial, rfl, rfl, rfl,
      List.nodup_nil⟩
    · refine H₁.chain.join H₂.chain hnodup ?_ ?_ ?_
      · intro b hb
        rw [hlinks, if_pos hb]
      · intro b hb
        have hb' : l₁.getLast? ≠ some b :=
          ne_getLast?_of_notMem fun h => hd h (List.mem_of_head? hb)
        rw [hlinks, if_neg hb', if_pos hb]
      · intro b _ hb hb'
        rw [hlinks, if_neg hb, if_neg hb']
    · rw [htail, List.getLast?_append]
      rcases hwhen with hne | rfl
      · obtain ⟨z, hz⟩ := Option.isSome_iff_exists.mp (List.getLast?_isSome.mpr hne)
        rw [hz]
        rfl
      · simp
    · rw [hguard, List.length_append]

/-- The second node of `two` as a list of its own, beside the first. -/
def oneAndOne : World ℕ where
  guard := ⟨some 1, some 1, two.guard.opts, 1⟩
  heap := ⟨fun a =>
    if a = 1 then some ⟨none, none, .v (.user (.obj 10))⟩
    else if a = 2 then some ⟨none, none, .v (.user (.obj 20))⟩
    else none⟩
  destroyed := []
  kerrno := .ok

theorem holds_oneAndOne : Holds oneAndOne [1] :=
  ⟨⟨rfl, trivial⟩, rfl, rfl, rfl, by decide⟩

/-- Two lists of one node each. -/
theorem join_iff_one :
    oneAndOne.Joins ⟨some 2, some 2, two.guard.opts, 1⟩ [1] [2] := by
  have H : Holds (oneAndOne.withGuard ⟨some 2, some 2, two.guard.opts, 1⟩) [2] :=
    ⟨⟨rfl, trivial⟩, rfl, rfl, rfl, by decide⟩
  exact (join_iff holds_oneAndOne H (by simp)).mpr (by decide)

/-- Joining an empty list to a list of one node takes its tail. -/
theorem join_empty :
    (∃ w' src', oneAndOne.join ⟨none, none, two.guard.opts, 0⟩ = some (w', src') ∧
      w'.guard.head = some 1 ∧ w'.guard.tail = none) ∧
      ¬ oneAndOne.Joins ⟨none, none, two.guard.opts, 0⟩ [1] [] := by
  refine ⟨⟨_, _, rfl, rfl, rfl⟩, ?_⟩
  rintro ⟨w', src', hrun, H, -⟩
  cases hrun
  cases H.tail_eq

/-! ## Reversal -/

/-- `KYLIN_SWAP(tmp->prev, tmp->next)`. -/
def swapLinks (w : World α) (tmp : Option ℕ) : Option (World α) :=
  (w.heap.modify tmp fun x => { x with prev := x.next, next := x.prev }).map
    fun h => { w with heap := h }

/-- The loop of `kylin_list_rotate`, which reads `next` before it swaps the links. -/
def rotateLoop : ℕ → World α → Option ℕ → Option (World α)
  | _, w, none => some w
  | 0, _, some _ => none
  | fuel + 1, w, some tmp => do
      let x ← w.heap.get tmp
      match x.next with
      | none => some w
      | some tmpNext => do
          let w ← w.swapLinks (some tmp)
          rotateLoop fuel w (some tmpNext)

/-- `kylin_list_rotate`. -/
def rotate (w : World α) : Option (World α) :=
  if w.guard.count ≤ 1 then some w
  else do
    let w ← rotateLoop w.guard.count w w.guard.head
    some { w with guard := { w.guard with head := w.guard.tail, tail := w.guard.head } }

/-- What reversing is for. -/
def Rotates (w : World α) (l : List ℕ) : Prop :=
  ∃ w', w.rotate = some w' ∧ Holds w' l.reverse ∧
    ∃ w'', w'.rotate = some w'' ∧ w''.guard = w.guard ∧ w''.links = w.links

/-- The links of a node, swapped. -/
def swapped (x : Link) : Link := ⟨x.next, x.prev⟩

theorem swapLinks_spec {a : ℕ} (ha : (w.heap.get a).isSome) :
    ∃ w', w.swapLinks (some a) = some w' ∧ w'.guard = w.guard ∧
      ∀ b, w'.links b = if b = a then (w.links b).map swapped else w.links b := by
  refine ⟨{ w with heap := w.heap.map a fun x => { x with prev := x.next, next := x.prev } },
    ?_, rfl, fun b => ?_⟩
  · rw [swapLinks, Heap.modify_of_isSome _ _ ha, Option.map_some]
  · rw [links, Heap.get_map, links]
    split <;> simp [Function.comp_def, swapped]

/-- The loop swaps the links of every node but the last. -/
theorem Holds.rotateLoop_spec {p : Option ℕ} (h : Chain w.links p l none) (hl : l.Nodup) {fuel : ℕ}
    (hfuel : l.length ≤ fuel) :
    ∃ w', rotateLoop fuel w l.head? = some w' ∧ w'.guard = w.guard ∧
      ∀ b, w'.links b = if b ∈ l.dropLast then (w.links b).map swapped else w.links b := by
  induction l generalizing w p fuel with
  | nil =>
      refine ⟨w, ?_, rfl, by simp⟩
      cases fuel <;> rfl
  | cons a l ih =>
      obtain ⟨fuel, rfl⟩ : ∃ k, fuel = k + 1 := ⟨fuel - 1, by simp at hfuel; omega⟩
      obtain ⟨v, hget⟩ := get_of_links h.1
      cases l with
      | nil => exact ⟨w, by simp [rotateLoop, hget], rfl, by simp⟩
      | cons c l =>
          obtain ⟨ha, hl⟩ := List.nodup_cons.mp hl
          have hlive : (w.heap.get a).isSome := by simp [hget]
          obtain ⟨w₁, hrun₁, hguard₁, hlinks₁⟩ := swapLinks_spec hlive
          have hchain : Chain w₁.links (some a) (c :: l) none := by
            refine h.2.congr fun b hb => ?_
            have hba : b ≠ a := fun e => ha (e ▸ hb)
            rw [hlinks₁, if_neg hba]
          obtain ⟨w', hrun, hguard, hlinks⟩ := ih hchain hl (Nat.le_of_succ_le_succ hfuel)
          refine ⟨w', ?_, hguard.trans hguard₁, fun b => ?_⟩
          · simpa [rotateLoop, hget, hrun₁] using hrun
          · rw [hlinks, hlinks₁, List.dropLast_cons_cons]
            by_cases hba : b = a
            · subst hba
              have hb : b ∉ (c :: l).dropLast := fun hb => ha (List.dropLast_subset _ hb)
              simp [hb]
            · simp [hba]

/-- **Reversing a list** gives the reverse of lists of at most one node, and of no others:
the last node, which becomes the head, keeps its null link. -/
theorem rotate_iff (H : Holds w l) : w.Rotates l ↔ l.length ≤ 1 := by
  have hcount := H.count_eq
  constructor
  · rintro ⟨w', hrun, H', -⟩
    by_contra hlong
    obtain ⟨w₁, hloop, hguard, hlinks⟩ :=
      Holds.rotateLoop_spec H.chain H.nodup (Nat.le_of_eq hcount.symm)
    have hw' : w'.links = w₁.links := by
      rw [rotate, if_neg (by omega), H.head_eq, hloop] at hrun
      cases hrun
      rfl
    rcases List.eq_nil_or_concat l with rfl | ⟨l', z, rfl⟩
    · simp at hlong
    · rw [List.concat_eq_append] at *
      have hz : z ∉ l' := fun hz => List.disjoint_of_nodup_append H.nodup hz (by simp)
      have hold : w.links z = some ⟨l'.getLast?, none⟩ := H.chain.link
      have hnew : w'.links z = some ⟨none, l'.reverse.head?⟩ := by
        have hchain := H'.chain
        rw [List.reverse_append, List.reverse_singleton, List.singleton_append] at hchain
        simpa using hchain.1
      rw [hw', hlinks, List.dropLast_concat, if_neg hz, hold] at hnew
      have hnil : l' = [] :=
        List.getLast?_eq_none_iff.mp (congrArg Link.prev (Option.some.inj hnew))
      simp [hnil] at hlong
  · intro hshort
    have hrev : l.reverse = l := by
      cases l with
      | nil => rfl
      | cons a l =>
          obtain rfl : l = [] := List.eq_nil_of_length_eq_zero (by simpa using hshort)
          rfl
    have hrun : w.rotate = some w := if_pos (by omega)
    exact ⟨w, hrun, hrev.symm ▸ H, w, hrun, rfl, rfl⟩

/-- A list of one node. -/
theorem rotate_iff_one : oneAndOne.Rotates [1] :=
  (rotate_iff holds_oneAndOne).mpr (by decide)

/-- Reversing two nodes leaves a list of one, with a count of two. -/
theorem rotate_two :
    (∃ w', two.rotate = some w' ∧ w'.guard.head = some 2 ∧ w'.guard.count = 2 ∧
      w'.links 2 = some ⟨some 1, none⟩) ∧ ¬ two.Rotates [1, 2] := by
  refine ⟨⟨_, rfl, rfl, rfl, rfl⟩, ?_⟩
  rintro ⟨w', hrun, H, -⟩
  cases hrun
  cases H.chain.1

end Kylin.Klist.World
