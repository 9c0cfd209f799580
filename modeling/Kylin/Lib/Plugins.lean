import Mathlib.Algebra.Ring.Nat
import Mathlib.Data.List.Basic
import Mathlib.Data.List.Nodup
import Mathlib.Tactic.Common

/-!
# Plugins with reference counts

A table has a slot for every type.  A slot that is taken holds the callbacks of the type
and the number of its objects; objects are listed, and found in the list by a number that
no two of them share.  A plugin can be taken out of its slot only when it has no object.

The table and the list are kept by different operations.  What ties them together is the
list of live objects, each with the type and the callbacks it was created with, and
`Inv` says that the table, the list and the memory are those of such a list.

## Main definitions

* `Slot`, `Obj`, `World` — the table, the objects and the list of them.
* `World.put`, `World.issue`, `World.enlist`, `World.release` — changes of the world.
* `Live`, `Inv` — the live objects, and a world with them.

## Main results

* `Inv.of_empty` — a world without objects.
* `Inv.register`, `Inv.unregister`, `Inv.issue`, `Inv.enlist`, `Inv.release` — what the
  changes do to the live objects.
-/

namespace Lib.Plugins

/-- A slot of the table; `type` is `none` in a free slot. -/
structure Slot (ι R : Type) where
  type : Option ι
  ref : ℕ
  reg : R

/-- An object. -/
structure Obj (ι P : Type) where
  id : ℕ
  type : ι
  priv : P

/-- The table, the number of the next object, the list of objects and their memory. -/
structure World (ι R P : Type) where
  slots : ι → Slot ι R
  next : ℕ
  list : List ℕ
  mem : ℕ → Option (Obj ι P)

namespace World
variable {ι R P : Type} [DecidableEq ι]

/-- Numbers and counts have 32 bits. -/
def modulus : ℕ := 2 ^ 32

/-- Write a slot. -/
def put (w : World ι R P) (t : ι) (slot : Slot ι R) : World ι R P :=
  { w with slots := Function.update w.slots t slot }

/-- Use up a number. -/
def issue (w : World ι R P) : World ι R P := { w with next := (w.next + 1) % modulus }

/-- List an object and count it. -/
def enlist (w : World ι R P) (a : ℕ) (o : Obj ι P) : World ι R P :=
  { w.put o.type { w.slots o.type with ref := ((w.slots o.type).ref + 1) % modulus } with
    list := a :: w.list
    mem := Function.update w.mem a (some o) }

/-- Take the first object with a number out of a list; `none` reads freed memory. -/
def unlink (w : World ι R P) (id : ℕ) : List ℕ → Option (Option (List ℕ))
  | [] => some none
  | a :: l => do
      let o ← w.mem a
      if o.id = id then some (some l) else (unlink w id l).map (Option.map (a :: ·))

/-- Take an object out of the list, count it off and free it. -/
def release (w : World ι R P) (a : ℕ) : Option (World ι R P) := do
  let o ← w.mem a
  match ← w.unlink o.id w.list with
  | none => some w
  | some l =>
      some { w.put o.type
          { w.slots o.type with ref := ((w.slots o.type).ref + modulus - 1) % modulus } with
        list := l
        mem := Function.update w.mem a none }

/-- The world without an object that was in the list. -/
def delist (w : World ι R P) (a : ℕ) (o : Obj ι P) : World ι R P :=
  { w.put o.type
      { w.slots o.type with ref := ((w.slots o.type).ref + modulus - 1) % modulus } with
    list := w.list.erase a
    mem := Function.update w.mem a none }

@[simp] theorem put_self (w : World ι R P) (t : ι) (slot : Slot ι R) :
    (w.put t slot).slots t = slot := Function.update_self _ _ _

theorem put_of_ne (w : World ι R P) {t t' : ι} (ht : t' ≠ t) (slot : Slot ι R) :
    (w.put t slot).slots t' = w.slots t' := Function.update_of_ne ht _ _

/-- Counting changes neither types nor callbacks. -/
theorem put_keeps (w : World ι R P) (t : ι) (n : ℕ) (t' : ι) :
    ((w.put t { w.slots t with ref := n }).slots t').type = (w.slots t').type ∧
      ((w.put t { w.slots t with ref := n }).slots t').reg = (w.slots t').reg := by
  by_cases ht : t' = t
  · rw [ht, put_self]
    exact ⟨rfl, rfl⟩
  · rw [put_of_ne w ht]
    exact ⟨rfl, rfl⟩

theorem ref_put (w : World ι R P) (t : ι) (n : ℕ) (t' : ι) :
    ((w.put t { w.slots t with ref := n }).slots t').ref =
      if t' = t then n else (w.slots t').ref := by
  by_cases ht : t' = t
  · rw [ht, put_self, if_pos rfl]
  · rw [put_of_ne w ht, if_neg ht]

theorem enlist_keeps (w : World ι R P) (a : ℕ) (o : Obj ι P) (t : ι) :
    ((w.enlist a o).slots t).type = (w.slots t).type ∧
      ((w.enlist a o).slots t).reg = (w.slots t).reg :=
  w.put_keeps o.type _ t

end World

/-- The objects after one was added. -/
theorem mem_update_some {β : Type} {mem : ℕ → Option β} {a b : ℕ} {o o' : β}
    (h : Function.update mem a (some o) b = some o') :
    b = a ∧ o' = o ∨ b ≠ a ∧ mem b = some o' := by
  by_cases hb : b = a
  · rw [hb, Function.update_self] at h
    exact .inl ⟨hb, (Option.some.inj h).symm⟩
  · rw [Function.update_of_ne hb] at h
    exact .inr ⟨hb, h⟩

/-- The objects after one was freed. -/
theorem mem_update_none {β : Type} {mem : ℕ → Option β} {a b : ℕ} {o : β}
    (h : Function.update mem a none b = some o) : b ≠ a ∧ mem b = some o := by
  by_cases hb : b = a
  · rw [hb, Function.update_self] at h
    cases h
  · rw [Function.update_of_ne hb] at h
    exact ⟨hb, h⟩

/-- An object that was created and not released, with its type and the callbacks at its
creation. -/
structure Live (ι R : Type) where
  addr : ℕ
  type : ι
  reg : R

variable {ι R P : Type} [DecidableEq ι]

/-- A world with these live objects. -/
structure Inv (w : World ι R P) (live : List (Live ι R)) : Prop where
  list_eq : w.list = live.map Live.addr
  nodup : (live.map Live.addr).Nodup
  mem_of_live : ∀ x ∈ live, ∃ o, w.mem x.addr = some o ∧ o.type = x.type
  live_of_mem : ∀ a o, w.mem a = some o → ∃ x ∈ live, x.addr = a
  ids : ∀ a b o o', w.mem a = some o → w.mem b = some o' → o.id = o'.id → a = b
  lt_next : ∀ a o, w.mem a = some o → o.id < w.next
  few : live.length ≤ w.next
  next_lt : w.next < World.modulus
  ref_eq : ∀ t, (w.slots t).ref = live.countP fun x => x.type = t
  registered : ∀ x ∈ live, (w.slots x.type).type ≠ none ∧ (w.slots x.type).reg = x.reg

namespace Inv
variable {w : World ι R P} {live : List (Live ι R)} {t : ι} {reg : R}

/-- A world without objects. -/
theorem of_empty (hlist : w.list = []) (hmem : ∀ a, w.mem a = none)
    (hnext : w.next < World.modulus) (href : ∀ t, (w.slots t).ref = 0) : Inv w [] := by
  have hnot : ∀ {a : ℕ} {o : Obj ι P}, w.mem a ≠ some o := by
    intro a o ho
    rw [hmem a] at ho
    cases ho
  constructor
  case list_eq => exact hlist
  case nodup => exact List.nodup_nil
  case mem_of_live => exact fun x hx => absurd hx List.not_mem_nil
  case live_of_mem => exact fun a o ho => absurd ho hnot
  case ids => exact fun a b o o' ho => absurd ho hnot
  case lt_next => exact fun a o ho => absurd ho hnot
  case few => exact Nat.zero_le _
  case next_lt => exact hnext
  case ref_eq => exact href
  case registered => exact fun x hx => absurd hx List.not_mem_nil

/-- A type without objects. -/
theorem type_ne (h : Inv w live) (href : (w.slots t).ref = 0) : ∀ x ∈ live, x.type ≠ t := by
  rw [h.ref_eq, List.countP_eq_zero] at href
  intro x hx htype
  exact href x hx (decide_eq_true htype)

/-- A free slot has no objects. -/
theorem type_ne_of_free (h : Inv w live) (hfree : (w.slots t).type = none) :
    ∀ x ∈ live, x.type ≠ t := by
  intro x hx htype
  exact (h.registered x hx).1 (htype ▸ hfree)

/-- A slot without objects is written, with a count of zero. -/
theorem put (h : Inv w live) (hnone : ∀ x ∈ live, x.type ≠ t) {slot : Slot ι R}
    (href : slot.ref = 0) : Inv (w.put t slot) live := by
  refine { h with ref_eq := ?_, registered := ?_ }
  · intro t'
    by_cases ht : t' = t
    · rw [ht, World.put_self, href]
      symm
      rw [List.countP_eq_zero]
      intro x hx htype
      exact hnone x hx (of_decide_eq_true htype)
    · rw [World.put_of_ne w ht]
      exact h.ref_eq t'
  · intro x hx
    rw [World.put_of_ne w (hnone x hx)]
    exact h.registered x hx

theorem register (h : Inv w live) (hfree : (w.slots t).type = none) (reg : R) :
    Inv (w.put t ⟨some t, 0, reg⟩) live :=
  h.put (h.type_ne_of_free hfree) rfl

theorem unregister (h : Inv w live) (href : (w.slots t).ref = 0) (reg : R) :
    Inv (w.put t ⟨none, 0, reg⟩) live :=
  h.put (h.type_ne href) rfl

theorem issue (h : Inv w live) (hnext : w.next + 1 < World.modulus) : Inv w.issue live := by
  have heq : w.issue.next = w.next + 1 := Nat.mod_eq_of_lt hnext
  refine { h with lt_next := ?_, few := ?_, next_lt := ?_ }
  · intro a o ho
    rw [heq]
    exact Nat.lt_succ_of_lt (h.lt_next a o ho)
  · rw [heq]
    exact Nat.le_succ_of_le h.few
  · rw [heq]
    exact hnext

theorem addr_ne (h : Inv w live) {a : ℕ} (hfresh : w.mem a = none) : ∀ x ∈ live, x.addr ≠ a := by
  intro x hx haddr
  obtain ⟨o, ho, -⟩ := h.mem_of_live x hx
  rw [haddr, hfresh] at ho
  cases ho

/-- The counts with a new object.  A count is at most the number of objects that were ever
created, so it does not wrap. -/
theorem ref_enlist (h : Inv w live) (hnext : w.next + 1 < World.modulus) {x : Live ι R}
    {o : Obj ι P} (htype : x.type = o.type) (a : ℕ) (t' : ι) :
    ((w.issue.enlist a o).slots t').ref = (x :: live).countP fun x => x.type = t' := by
  have hslot : ((w.issue.enlist a o).slots t').ref =
      if t' = o.type then ((w.slots o.type).ref + 1) % World.modulus else (w.slots t').ref :=
    w.issue.ref_put o.type _ t'
  rw [hslot, List.countP_cons, htype]
  by_cases ht : t' = o.type
  · have hle : live.countP (fun x => x.type = o.type) ≤ w.next :=
      Nat.le_trans List.countP_le_length h.few
    rw [if_pos ht, ht, h.ref_eq o.type, Nat.mod_eq_of_lt (by omega)]
    simp
  · have hne : ¬ o.type = t' := Ne.symm ht
    rw [if_neg ht, h.ref_eq t']
    simp [hne]

/-- A new object of a type that is registered. -/
theorem enlist (h : Inv w live) (hnext : w.next + 1 < World.modulus) {a : ℕ}
    (hfresh : w.mem a = none) (hreg : (w.slots t).type ≠ none) (priv : P) :
    Inv (w.issue.enlist a ⟨w.next, t, priv⟩) (⟨a, t, (w.slots t).reg⟩ :: live) := by
  have hissue := h.issue hnext
  have heq : w.issue.next = w.next + 1 := Nat.mod_eq_of_lt hnext
  constructor
  case list_eq => exact congrArg (a :: ·) h.list_eq
  case nodup =>
    rw [List.map_cons, List.nodup_cons]
    refine ⟨?_, h.nodup⟩
    intro hmem
    obtain ⟨x, hx, haddr⟩ := List.mem_map.mp hmem
    exact h.addr_ne hfresh x hx haddr
  case mem_of_live =>
    intro x hx
    rcases List.mem_cons.mp hx with rfl | hx
    · exact ⟨_, Function.update_self _ _ _, rfl⟩
    · obtain ⟨o, ho, htype⟩ := h.mem_of_live x hx
      exact ⟨o, (Function.update_of_ne (h.addr_ne hfresh x hx) _ _).trans ho, htype⟩
  case live_of_mem =>
    intro b o ho
    rcases mem_update_some ho with ⟨rfl, -⟩ | ⟨-, ho⟩
    · exact ⟨_, List.mem_cons_self, rfl⟩
    · obtain ⟨x, hx, haddr⟩ := h.live_of_mem b o ho
      exact ⟨x, List.mem_cons_of_mem _ hx, haddr⟩
  case ids =>
    intro b c o o' ho ho' hid
    rcases mem_update_some ho with ⟨hb, rfl⟩ | ⟨-, hb⟩ <;>
      rcases mem_update_some ho' with ⟨hc, rfl⟩ | ⟨-, hc⟩
    · exact hb.trans hc.symm
    · exact absurd hid.symm (Nat.ne_of_lt (h.lt_next c o' hc))
    · exact absurd hid (Nat.ne_of_lt (h.lt_next b o hb))
    · exact h.ids b c o o' hb hc hid
  case lt_next =>
    intro b o ho
    change o.id < w.issue.next
    rcases mem_update_some ho with ⟨-, rfl⟩ | ⟨-, ho⟩
    · rw [heq]
      exact Nat.lt_succ_self _
    · exact hissue.lt_next b o ho
  case few =>
    change _ ≤ w.issue.next
    rw [heq]
    exact Nat.succ_le_succ h.few
  case next_lt => exact hissue.next_lt
  case ref_eq => exact h.ref_enlist hnext rfl a
  case registered =>
    have hslot : ∀ t', ((w.issue.enlist a ⟨w.next, t, priv⟩).slots t').type = (w.slots t').type ∧
        ((w.issue.enlist a ⟨w.next, t, priv⟩).slots t').reg = (w.slots t').reg :=
      fun t' => World.enlist_keeps w.issue a ⟨w.next, t, priv⟩ t'
    intro x hx
    rw [(hslot _).1, (hslot _).2]
    rcases List.mem_cons.mp hx with rfl | hx
    · exact ⟨hreg, rfl⟩
    · exact h.registered x hx

/-- The search in the list finds the object itself. -/
theorem unlink_eq (h : Inv w live) {a : ℕ} {o : Obj ι P} (ho : w.mem a = some o) {l : List ℕ}
    (hl : ∀ b ∈ l, (w.mem b).isSome) (ha : a ∈ l) : w.unlink o.id l = some (some (l.erase a)) := by
  induction l with
  | nil => cases ha
  | cons b l ih =>
      obtain ⟨o', ho'⟩ := Option.isSome_iff_exists.mp (hl b List.mem_cons_self)
      by_cases hb : b = a
      · rw [hb, ho, Option.some.injEq] at ho'
        rw [World.unlink, hb, List.erase_cons_head]
        simp [ho, ho']
      · have hid : ¬ o'.id = o.id := fun hid => hb (h.ids b a o' o ho' ho hid)
        have hmem : a ∈ l := (List.mem_cons.mp ha).resolve_left (Ne.symm hb)
        have hrest := ih (fun c hc => hl c (List.mem_cons_of_mem _ hc)) hmem
        rw [World.unlink, List.erase_cons_tail (by simpa using hb)]
        simp [ho', hid, hrest]

/-- A live object splits the list of them. -/
theorem split (h : Inv w live) {a : ℕ} {o : Obj ι P} (ho : w.mem a = some o) :
    ∃ l₁ x l₂, live = l₁ ++ x :: l₂ ∧ x.addr = a ∧ x.type = o.type ∧
      (∀ y ∈ l₁ ++ l₂, y.addr ≠ a) ∧ (live.eraseP fun x => x.addr = a) = l₁ ++ l₂ := by
  obtain ⟨x, hx, haddr⟩ := h.live_of_mem a o ho
  obtain ⟨l₁, l₂, rfl⟩ := List.append_of_mem hx
  have hne : ∀ y ∈ l₁ ++ l₂, y.addr ≠ a := by
    have hnodup := h.nodup
    rw [List.map_append, List.map_cons, List.nodup_middle, List.nodup_cons] at hnodup
    intro y hy hya
    rw [← List.map_append] at hnodup
    exact hnodup.1 (List.mem_map.mpr ⟨y, hy, hya.trans haddr.symm⟩)
  obtain ⟨o', ho', htype⟩ := h.mem_of_live x hx
  rw [haddr, ho, Option.some.injEq] at ho'
  refine ⟨l₁, x, l₂, rfl, haddr, ?_, hne, ?_⟩
  · rw [ho', htype]
  · rw [List.eraseP_append_right, List.eraseP_cons_of_pos]
    · simpa using haddr
    · intro y hy
      simpa using hne y (List.mem_append_left _ hy)

/-- Releasing an object that is there takes it out. -/
theorem release_eq (h : Inv w live) {a : ℕ} {o : Obj ι P} (ho : w.mem a = some o) :
    w.release a = some (w.delist a o) := by
  have hlist : ∀ b ∈ w.list, (w.mem b).isSome := by
    intro b hb
    rw [h.list_eq] at hb
    obtain ⟨x, hx, rfl⟩ := List.mem_map.mp hb
    obtain ⟨o', ho', -⟩ := h.mem_of_live x hx
    rw [ho']
    rfl
  have hmem : a ∈ w.list := by
    rw [h.list_eq]
    obtain ⟨x, hx, haddr⟩ := h.live_of_mem a o ho
    exact List.mem_map.mpr ⟨x, hx, haddr⟩
  simp only [World.release, World.delist, ho, h.unlink_eq ho hlist hmem, Option.bind_eq_bind,
    Option.bind_some]

/-- The counts without an object. -/
theorem ref_delist {l₁ l₂ : List (Live ι R)} {x : Live ι R} (h : Inv w (l₁ ++ x :: l₂))
    {o : Obj ι P} (htype : x.type = o.type) (a : ℕ) (t' : ι) :
    ((w.delist a o).slots t').ref = (l₁ ++ l₂).countP fun x => x.type = t' := by
  have hslot : ((w.delist a o).slots t').ref = if t' = o.type then
      ((w.slots o.type).ref + World.modulus - 1) % World.modulus else (w.slots t').ref :=
    w.ref_put o.type _ t'
  have hcount : ∀ t', (w.slots t').ref =
      (l₁ ++ l₂).countP (fun y => y.type = t') + if o.type = t' then 1 else 0 := by
    intro t'
    rw [h.ref_eq t', List.countP_append, List.countP_cons, List.countP_append, htype]
    simp only [decide_eq_true_eq]
    omega
  have hlen : (l₁ ++ l₂).length ≤ (l₁ ++ x :: l₂).length :=
    ((List.sublist_cons_self x l₂).append_left l₁).length_le
  have hle : (l₁ ++ l₂).countP (fun y => y.type = o.type) < World.modulus :=
    Nat.lt_of_le_of_lt (Nat.le_trans List.countP_le_length (Nat.le_trans hlen h.few)) h.next_lt
  rw [hslot]
  by_cases ht : t' = o.type
  · rw [if_pos ht, ht, hcount o.type, if_pos rfl, Nat.add_right_comm, Nat.add_sub_cancel,
      Nat.add_mod_right, Nat.mod_eq_of_lt hle]
  · rw [if_neg ht, hcount t', if_neg (Ne.symm ht), Nat.add_zero]

/-- An object is taken out. -/
theorem delist (h : Inv w live) {a : ℕ} {o : Obj ι P} (ho : w.mem a = some o) :
    Inv (w.delist a o) (live.eraseP fun x => x.addr = a) := by
  obtain ⟨l₁, x, l₂, rfl, haddr, htype, hne, herase⟩ := h.split ho
  rw [herase]
  have hsub : List.Sublist (l₁ ++ l₂) (l₁ ++ x :: l₂) :=
    (List.sublist_cons_self x l₂).append_left l₁
  constructor
  case list_eq =>
    have hnot : a ∉ l₁.map Live.addr := by
      intro hmem
      obtain ⟨y, hy, hya⟩ := List.mem_map.mp hmem
      exact hne y (List.mem_append_left _ hy) hya
    change w.list.erase a = _
    rw [h.list_eq, List.map_append, List.map_cons, haddr, List.erase_append_right _ hnot,
      List.erase_cons_head, List.map_append]
  case nodup => exact h.nodup.sublist (hsub.map _)
  case mem_of_live =>
    intro y hy
    obtain ⟨o', ho', htype'⟩ := h.mem_of_live y (hsub.subset hy)
    exact ⟨o', (Function.update_of_ne (hne y hy) _ _).trans ho', htype'⟩
  case live_of_mem =>
    intro b o' ho'
    obtain ⟨hb, hb'⟩ := mem_update_none ho'
    obtain ⟨y, hy, hya⟩ := h.live_of_mem b o' hb'
    refine ⟨y, ?_, hya⟩
    have hyx : y ≠ x := by
      rintro rfl
      exact hb (hya.symm.trans haddr)
    simpa [hyx] using hy
  case ids =>
    intro b c o' o'' hb hc hid
    exact h.ids b c o' o'' (mem_update_none hb).2 (mem_update_none hc).2 hid
  case lt_next =>
    intro b o' ho'
    exact h.lt_next b o' (mem_update_none ho').2
  case few => exact Nat.le_trans hsub.length_le h.few
  case next_lt => exact h.next_lt
  case ref_eq => exact h.ref_delist htype a
  case registered =>
    intro y hy
    obtain ⟨htype', hreg'⟩ := w.put_keeps o.type
      (((w.slots o.type).ref + World.modulus - 1) % World.modulus) y.type
    exact ⟨fun hnone => (h.registered y (hsub.subset hy)).1 (htype'.symm.trans hnone),
      hreg'.trans (h.registered y (hsub.subset hy)).2⟩

/-- An object is released. -/
theorem release (h : Inv w live) {a : ℕ} (ha : (w.mem a).isSome) :
    ∃ w', w.release a = some w' ∧ Inv w' (live.eraseP fun x => x.addr = a) ∧
      w'.next = w.next ∧
      ∀ t, (w'.slots t).type = (w.slots t).type ∧ (w'.slots t).reg = (w.slots t).reg := by
  obtain ⟨o, ho⟩ := Option.isSome_iff_exists.mp ha
  exact ⟨w.delist a o, h.release_eq ho, h.delist ho, rfl, w.put_keeps o.type _⟩

end Inv

end Lib.Plugins
