import Kylin.Lib.Run
import Kylin.Lib.Slots

/-!
# The queue macros

The four families of `include/math/kylin_list_hpi.h`: singly-linked lists, singly-linked tail
queues, lists and tail queues.  A slot is a `struct type **`: the first link of a head or the
next link of an element.  The word beside it is `stqh_last`, `tqh_last`, `le_prev` or
`tqe_prev`, where there is one.

`TAILQ_LAST` and `TAILQ_PREV` read the word beside a slot without knowing whether the slot is in
a head or in an element, as both are laid out alike; so both are cells of one memory here.

## Main definitions

* `Memory` — heads and elements.
* `slistInsertHead`, …, `tailqPrev` — the macros.
* `foreachSafe`, `tailqForeachReverseSafe` — the loops, with the elements they came to.
* `Family`, `Call`, `perform` — the calls of each family.
* `spec` — the same calls on lists of elements.
-/

namespace Kylin

open Lib Slot

namespace ListHpi

/-- The words of all heads and elements. -/
abbrev Memory := Slot → Cell

/-- A store to a forward link. -/
def setFwd (m : Memory) (s : Slot) (p : Option ℕ) : Memory :=
  Function.update m s { m s with fwd := p }

/-- A store to the word beside one. -/
def setBack (m : Memory) (s : Slot) (p : Option Slot) : Memory :=
  Function.update m s { m s with back := p }

section Stores
variable (m : Memory) (s t : Slot) (p : Option ℕ) (q : Option Slot)

@[simp] theorem fwd_setFwd : (setFwd m s p t).fwd = if t = s then p else (m t).fwd := by
  by_cases h : t = s
  · rw [h, setFwd, Function.update_self, if_pos rfl]
  · rw [setFwd, Function.update_of_ne h, if_neg h]

@[simp] theorem back_setFwd : (setFwd m s p t).back = (m t).back := by
  by_cases h : t = s
  · rw [h, setFwd, Function.update_self]
  · rw [setFwd, Function.update_of_ne h]

@[simp] theorem fwd_setBack : (setBack m s q t).fwd = (m t).fwd := by
  by_cases h : t = s
  · rw [h, setBack, Function.update_self]
  · rw [setBack, Function.update_of_ne h]

@[simp] theorem back_setBack : (setBack m s q t).back = if t = s then q else (m t).back := by
  by_cases h : t = s
  · rw [h, setBack, Function.update_self, if_pos rfl]
  · rw [setBack, Function.update_of_ne h, if_neg h]

end Stores

/-- Memories are told apart by their words. -/
theorem memory_ext {m m' : Memory} (hfwd : ∀ t, (m t).fwd = (m' t).fwd)
    (hback : ∀ t, (m t).back = (m' t).back) : m = m' :=
  funext fun t => Cell.ext (hfwd t) (hback t)

/-- `SLIST_FIRST`, `STAILQ_FIRST`, `LIST_FIRST` and `TAILQ_FIRST`. -/
def first (m : Memory) (h : ℕ) : Option ℕ := (m (.head h)).fwd

/-- `SLIST_NEXT`, `STAILQ_NEXT`, `LIST_NEXT` and `TAILQ_NEXT`. -/
def next (m : Memory) (e : ℕ) : Option ℕ := (m (.entry e)).fwd

/-- `STAILQ_EMPTY` and `TAILQ_EMPTY`. -/
def empty (m : Memory) (h : ℕ) : Bool := (first m h).isNone

section Links
variable (m : Memory) (s : Slot) (p : Option ℕ) (q : Option Slot) (x : ℕ)

@[simp] theorem first_setFwd :
    first (setFwd m s p) x = if .head x = s then p else first m x := fwd_setFwd m s _ p

@[simp] theorem next_setFwd :
    next (setFwd m s p) x = if .entry x = s then p else next m x := fwd_setFwd m s _ p

@[simp] theorem first_setBack : first (setBack m s q) x = first m x := fwd_setBack m s _ q

@[simp] theorem next_setBack : next (setBack m s q) x = next m x := fwd_setBack m s _ q

end Links

/-- `*p`, for the address `p` of a forward link. -/
def loadAt (m : Memory) (p : Option Slot) : Option (Option ℕ) := p.map fun s => (m s).fwd

/-- `*p = v`. -/
def storeAt (m : Memory) (p : Option Slot) (v : Option ℕ) : Option Memory :=
  p.map fun s => setFwd m s v

/-! ## Singly-linked lists -/

/-- `SLIST_INIT`. -/
def slistInit (m : Memory) (h : ℕ) : Memory := setFwd m (.head h) none

/-- `SLIST_INSERT_AFTER`. -/
def slistInsertAfter (m : Memory) (slistelm elm : ℕ) : Memory :=
  let m := setFwd m (.entry elm) (next m slistelm)
  setFwd m (.entry slistelm) (some elm)

/-- `SLIST_INSERT_HEAD`. -/
def slistInsertHead (m : Memory) (h elm : ℕ) : Memory :=
  let m := setFwd m (.entry elm) (first m h)
  setFwd m (.head h) (some elm)

/-- `SLIST_REMOVE_AFTER`. -/
def slistRemoveAfter (m : Memory) (elm : ℕ) : Option Memory := do
  let n ← next m elm
  some (setFwd m (.entry elm) (next m n))

/-- `SLIST_REMOVE_HEAD`. -/
def slistRemoveHead (m : Memory) (h : ℕ) : Option Memory := do
  let f ← first m h
  some (setFwd m (.head h) (next m f))

/-- The loop of `SLIST_REMOVE` and `STAILQ_REMOVE`: the element before `elm`. -/
def findBefore (m : Memory) (elm : ℕ) : ℕ → Option ℕ → Option ℕ
  | 0, _ => none
  | fuel + 1, curelm => do
      let c ← curelm
      if next m c ≠ some elm then findBefore m elm fuel (next m c) else some c

/-- `SLIST_REMOVE`. -/
def slistRemove (fuel : ℕ) (m : Memory) (h elm : ℕ) : Option Memory :=
  if first m h = some elm then slistRemoveHead m h
  else do
    let curelm ← findBefore m elm fuel (first m h)
    slistRemoveAfter m curelm

/-- `SLIST_SWAP`. -/
def slistSwap (m : Memory) (h₁ h₂ : ℕ) : Memory :=
  let swapFirst := first m h₁
  let m := setFwd m (.head h₁) (first m h₂)
  setFwd m (.head h₂) swapFirst

/-! ## Singly-linked tail queues -/

/-- `STAILQ_INIT`. -/
def stailqInit (m : Memory) (h : ℕ) : Memory :=
  let m := setFwd m (.head h) none
  setBack m (.head h) (some (.head h))

/-- `STAILQ_CONCAT`. -/
def stailqConcat (m : Memory) (h₁ h₂ : ℕ) : Option Memory :=
  if empty m h₂ then some m
  else do
    let m ← storeAt m (m (.head h₁)).back (first m h₂)
    let m := setBack m (.head h₁) (m (.head h₂)).back
    some (stailqInit m h₂)

/-- `STAILQ_INSERT_AFTER`. -/
def stailqInsertAfter (m : Memory) (h tqelm elm : ℕ) : Memory :=
  let m := setFwd m (.entry elm) (next m tqelm)
  let m := if next m elm = none then setBack m (.head h) (some (.entry elm)) else m
  setFwd m (.entry tqelm) (some elm)

/-- `STAILQ_INSERT_HEAD`. -/
def stailqInsertHead (m : Memory) (h elm : ℕ) : Memory :=
  let m := setFwd m (.entry elm) (first m h)
  let m := if next m elm = none then setBack m (.head h) (some (.entry elm)) else m
  setFwd m (.head h) (some elm)

/-- `STAILQ_INSERT_TAIL`. -/
def stailqInsertTail (m : Memory) (h elm : ℕ) : Option Memory := do
  let m := setFwd m (.entry elm) none
  let m ← storeAt m (m (.head h)).back (some elm)
  some (setBack m (.head h) (some (.entry elm)))

/-- `STAILQ_LAST`: the element around the slot that the head keeps. -/
def stailqLast (m : Memory) (h : ℕ) : Option (Option ℕ) :=
  if empty m h then some none
  else
    match (m (.head h)).back with
    | some (.entry e) => some (some e)
    | _ => none

/-- `STAILQ_REMOVE_AFTER`. -/
def stailqRemoveAfter (m : Memory) (h elm : ℕ) : Option Memory := do
  let n ← next m elm
  let m := setFwd m (.entry elm) (next m n)
  some (if next m elm = none then setBack m (.head h) (some (.entry elm)) else m)

/-- `STAILQ_REMOVE_HEAD`. -/
def stailqRemoveHead (m : Memory) (h : ℕ) : Option Memory := do
  let f ← first m h
  let m := setFwd m (.head h) (next m f)
  some (if first m h = none then setBack m (.head h) (some (.head h)) else m)

/-- `STAILQ_REMOVE`. -/
def stailqRemove (fuel : ℕ) (m : Memory) (h elm : ℕ) : Option Memory :=
  if first m h = some elm then stailqRemoveHead m h
  else do
    let curelm ← findBefore m elm fuel (first m h)
    stailqRemoveAfter m h curelm

/-- `STAILQ_SWAP`. -/
def stailqSwap (m : Memory) (h₁ h₂ : ℕ) : Memory :=
  let swapFirst := first m h₁
  let swapLast := (m (.head h₁)).back
  let m := setFwd m (.head h₁) (first m h₂)
  let m := setBack m (.head h₁) (m (.head h₂)).back
  let m := setFwd m (.head h₂) swapFirst
  let m := setBack m (.head h₂) swapLast
  let m := if empty m h₁ then setBack m (.head h₁) (some (.head h₁)) else m
  if empty m h₂ then setBack m (.head h₂) (some (.head h₂)) else m

/-! ## Lists -/

/-- `LIST_INIT`. -/
def listInit (m : Memory) (h : ℕ) : Memory := setFwd m (.head h) none

/-- `LIST_INSERT_AFTER`. -/
def listInsertAfter (m : Memory) (listelm elm : ℕ) : Memory :=
  let m := setFwd m (.entry elm) (next m listelm)
  let m :=
    match next m listelm with
    | some n => setBack m (.entry n) (some (.entry elm))
    | none => m
  let m := setFwd m (.entry listelm) (some elm)
  setBack m (.entry elm) (some (.entry listelm))

/-- `LIST_INSERT_BEFORE`. -/
def listInsertBefore (m : Memory) (listelm elm : ℕ) : Option Memory := do
  let m := setBack m (.entry elm) (m (.entry listelm)).back
  let m := setFwd m (.entry elm) (some listelm)
  let m ← storeAt m (m (.entry listelm)).back (some elm)
  some (setBack m (.entry listelm) (some (.entry elm)))

/-- `LIST_INSERT_HEAD`. -/
def listInsertHead (m : Memory) (h elm : ℕ) : Memory :=
  let m := setFwd m (.entry elm) (first m h)
  let m :=
    match first m h with
    | some f => setBack m (.entry f) (some (.entry elm))
    | none => m
  let m := setFwd m (.head h) (some elm)
  setBack m (.entry elm) (some (.head h))

/-- `LIST_REMOVE`. -/
def listRemove (m : Memory) (elm : ℕ) : Option Memory :=
  let m :=
    match next m elm with
    | some n => setBack m (.entry n) (m (.entry elm)).back
    | none => m
  storeAt m (m (.entry elm)).back (next m elm)

/-- `LIST_SWAP`. -/
def listSwap (m : Memory) (h₁ h₂ : ℕ) : Memory :=
  let swapTmp := first m h₁
  let m := setFwd m (.head h₁) (first m h₂)
  let m := setFwd m (.head h₂) swapTmp
  let m :=
    match first m h₁ with
    | some f => setBack m (.entry f) (some (.head h₁))
    | none => m
  match first m h₂ with
  | some f => setBack m (.entry f) (some (.head h₂))
  | none => m

/-- `LIST_PREV`. -/
def listPrev (m : Memory) (elm : ℕ) : Option (Option ℕ) := loadAt m (m (.entry elm)).back

/-- `LIST_REMOVE_INIT`. -/
def listRemoveInit (m : Memory) (elm : ℕ) : Option Memory := do
  let m ← listRemove m elm
  let m := setBack m (.entry elm) none
  some (setFwd m (.entry elm) none)

/-! ## Tail queues -/

/-- `TAILQ_INIT`. -/
def tailqInit (m : Memory) (h : ℕ) : Memory :=
  let m := setFwd m (.head h) none
  setBack m (.head h) (some (.head h))

/-- `TAILQ_CONCAT`. -/
def tailqConcat (m : Memory) (h₁ h₂ : ℕ) : Option Memory :=
  if empty m h₂ then some m
  else do
    let m ← storeAt m (m (.head h₁)).back (first m h₂)
    let f ← first m h₂
    let m := setBack m (.entry f) (m (.head h₁)).back
    let m := setBack m (.head h₁) (m (.head h₂)).back
    some (tailqInit m h₂)

/-- `TAILQ_INSERT_AFTER`. -/
def tailqInsertAfter (m : Memory) (h listelm elm : ℕ) : Memory :=
  let m := setFwd m (.entry elm) (next m listelm)
  let m :=
    match next m elm with
    | some n => setBack m (.entry n) (some (.entry elm))
    | none => setBack m (.head h) (some (.entry elm))
  let m := setFwd m (.entry listelm) (some elm)
  setBack m (.entry elm) (some (.entry listelm))

/-- `TAILQ_INSERT_BEFORE`. -/
def tailqInsertBefore (m : Memory) (listelm elm : ℕ) : Option Memory := do
  let m := setBack m (.entry elm) (m (.entry listelm)).back
  let m := setFwd m (.entry elm) (some listelm)
  let m ← storeAt m (m (.entry listelm)).back (some elm)
  some (setBack m (.entry listelm) (some (.entry elm)))

/-- `TAILQ_INSERT_HEAD`. -/
def tailqInsertHead (m : Memory) (h elm : ℕ) : Memory :=
  let m := setFwd m (.entry elm) (first m h)
  let m :=
    match first m h with
    | some f => setBack m (.entry f) (some (.entry elm))
    | none => setBack m (.head h) (some (.entry elm))
  let m := setFwd m (.head h) (some elm)
  setBack m (.entry elm) (some (.head h))

/-- `TAILQ_INSERT_TAIL`. -/
def tailqInsertTail (m : Memory) (h elm : ℕ) : Option Memory := do
  let m := setFwd m (.entry elm) none
  let m := setBack m (.entry elm) (m (.head h)).back
  let m ← storeAt m (m (.head h)).back (some elm)
  some (setBack m (.head h) (some (.entry elm)))

/-- `TAILQ_LAST`: the word beside the slot that the head keeps leads to the last element. -/
def tailqLast (m : Memory) (h : ℕ) : Option (Option ℕ) := do
  let s ← (m (.head h)).back
  loadAt m (m s).back

/-- `TAILQ_PREV`. -/
def tailqPrev (m : Memory) (elm : ℕ) : Option (Option ℕ) := do
  let s ← (m (.entry elm)).back
  loadAt m (m s).back

/-- `TAILQ_REMOVE`. -/
def tailqRemove (m : Memory) (h elm : ℕ) : Option Memory :=
  let m :=
    match next m elm with
    | some n => setBack m (.entry n) (m (.entry elm)).back
    | none => setBack m (.head h) (m (.entry elm)).back
  storeAt m (m (.entry elm)).back (next m elm)

/-- `TAILQ_SWAP`. -/
def tailqSwap (m : Memory) (h₁ h₂ : ℕ) : Memory :=
  let swapFirst := first m h₁
  let swapLast := (m (.head h₁)).back
  let m := setFwd m (.head h₁) (first m h₂)
  let m := setBack m (.head h₁) (m (.head h₂)).back
  let m := setFwd m (.head h₂) swapFirst
  let m := setBack m (.head h₂) swapLast
  let m :=
    match first m h₁ with
    | some f => setBack m (.entry f) (some (.head h₁))
    | none => setBack m (.head h₁) (some (.head h₁))
  match first m h₂ with
  | some f => setBack m (.entry f) (some (.head h₂))
  | none => setBack m (.head h₂) (some (.head h₂))

/-- `TAILQ_ENTRY_INIT`. -/
def tailqEntryInit (m : Memory) (elm : ℕ) : Memory :=
  let m := setBack m (.entry elm) none
  setFwd m (.entry elm) none

/-- `TAILQ_REMOVE_INIT`. -/
def tailqRemoveInit (m : Memory) (h elm : ℕ) : Option Memory :=
  (tailqRemove m h elm).map fun m => tailqEntryInit m elm

/-- `TAILQ_ENTRY_EMPTY`. -/
def tailqEntryEmpty (m : Memory) (elm : ℕ) : Bool := (m (.entry elm)).back.isNone

/-! ## Loops -/

/-- The turns of a `_SAFE` loop from `var` on, with the elements that it came to: where it goes
on is read before the body runs. -/
def safeLoop (step : Memory → ℕ → Option (Option ℕ)) (body : Memory → ℕ → Option Memory) :
    ℕ → Memory → Option ℕ → Option (List ℕ × Memory)
  | _, m, none => some ([], m)
  | 0, _, some _ => none
  | fuel + 1, m, some var => do
      let tvar ← step m var
      let m ← body m var
      let (vars, m) ← safeLoop step body fuel m tvar
      some (var :: vars, m)

/-- `SLIST_FOREACH_SAFE`, `STAILQ_FOREACH_SAFE`, `LIST_FOREACH_SAFE` and `TAILQ_FOREACH_SAFE`. -/
def foreachSafe (body : Memory → ℕ → Option Memory) (fuel : ℕ) (m : Memory) (h : ℕ) :
    Option (List ℕ × Memory) :=
  safeLoop (fun m var => some (next m var)) body fuel m (first m h)

/-- `TAILQ_FOREACH_REVERSE_SAFE`. -/
def tailqForeachReverseSafe (body : Memory → ℕ → Option Memory) (fuel : ℕ) (m : Memory) (h : ℕ) :
    Option (List ℕ × Memory) := do
  let var ← tailqLast m h
  safeLoop tailqPrev body fuel m var

/-! ## Calls -/

/-- The families of macros. -/
inductive Family
  | slist
  | stailq
  | list
  | tailq
  deriving DecidableEq

/-- What a family keeps beside the forward links. -/
def Family.kind : Family → Kind
  | .slist => ⟨false, false⟩
  | .stailq => ⟨true, false⟩
  | .list => ⟨false, true⟩
  | .tailq => ⟨true, true⟩

/-- The calls, with the head of the queue they are about; some macros do not take it. -/
inductive Call
  | init (h : ℕ)
  | first (h : ℕ)
  | last (h : ℕ)
  | next (h elm : ℕ)
  | prev (h elm : ℕ)
  | insertHead (h elm : ℕ)
  | insertBefore (h listelm elm : ℕ)
  | insertAfter (h listelm elm : ℕ)
  | insertTail (h elm : ℕ)
  | concat (h₁ h₂ : ℕ)
  | removeAfter (h elm : ℕ)
  | removeHead (h : ℕ)
  | remove (h elm : ℕ)
  | swap (h₁ h₂ : ℕ)

/-- A call without a result. -/
def done (m : Memory) : Option (Option ℕ × Memory) := some (none, m)

/-- The calls of the first family, with the element they return. -/
def slistPerform (fuel : ℕ) (m : Memory) : Call → Option (Option ℕ × Memory)
  | .init h => done (slistInit m h)
  | .first h => some (first m h, m)
  | .next _ elm => some (next m elm, m)
  | .insertHead h elm => done (slistInsertHead m h elm)
  | .insertAfter _ listelm elm => done (slistInsertAfter m listelm elm)
  | .removeAfter _ elm => (slistRemoveAfter m elm).bind done
  | .removeHead h => (slistRemoveHead m h).bind done
  | .remove h elm => (slistRemove fuel m h elm).bind done
  | .swap h₁ h₂ => done (slistSwap m h₁ h₂)
  | _ => none

/-- The calls of the second. -/
def stailqPerform (fuel : ℕ) (m : Memory) : Call → Option (Option ℕ × Memory)
  | .init h => done (stailqInit m h)
  | .first h => some (first m h, m)
  | .last h => (stailqLast m h).map fun p => (p, m)
  | .next _ elm => some (next m elm, m)
  | .insertHead h elm => done (stailqInsertHead m h elm)
  | .insertAfter h listelm elm => done (stailqInsertAfter m h listelm elm)
  | .insertTail h elm => (stailqInsertTail m h elm).bind done
  | .concat h₁ h₂ => (stailqConcat m h₁ h₂).bind done
  | .removeAfter h elm => (stailqRemoveAfter m h elm).bind done
  | .removeHead h => (stailqRemoveHead m h).bind done
  | .remove h elm => (stailqRemove fuel m h elm).bind done
  | .swap h₁ h₂ => done (stailqSwap m h₁ h₂)
  | _ => none

/-- The calls of the third. -/
def listPerform (m : Memory) : Call → Option (Option ℕ × Memory)
  | .init h => done (listInit m h)
  | .first h => some (first m h, m)
  | .next _ elm => some (next m elm, m)
  | .insertHead h elm => done (listInsertHead m h elm)
  | .insertBefore _ listelm elm => (listInsertBefore m listelm elm).bind done
  | .insertAfter _ listelm elm => done (listInsertAfter m listelm elm)
  | .remove _ elm => (listRemove m elm).bind done
  | .swap h₁ h₂ => done (listSwap m h₁ h₂)
  | _ => none

/-- The calls of the last. -/
def tailqPerform (m : Memory) : Call → Option (Option ℕ × Memory)
  | .init h => done (tailqInit m h)
  | .first h => some (first m h, m)
  | .last h => (tailqLast m h).map fun p => (p, m)
  | .next _ elm => some (next m elm, m)
  | .prev _ elm => (tailqPrev m elm).map fun p => (p, m)
  | .insertHead h elm => done (tailqInsertHead m h elm)
  | .insertBefore _ listelm elm => (tailqInsertBefore m listelm elm).bind done
  | .insertAfter h listelm elm => done (tailqInsertAfter m h listelm elm)
  | .insertTail h elm => (tailqInsertTail m h elm).bind done
  | .concat h₁ h₂ => (tailqConcat m h₁ h₂).bind done
  | .remove h elm => (tailqRemove m h elm).bind done
  | .swap h₁ h₂ => done (tailqSwap m h₁ h₂)
  | _ => none

/-- One call of a family; `none` also for a call that it does not have. -/
def perform (fuel : ℕ) : Family → Memory → Call → Option (Option ℕ × Memory)
  | .slist => slistPerform fuel
  | .stailq => stailqPerform fuel
  | .list => listPerform
  | .tailq => tailqPerform

/-- The calls of each family, from the table at the head of the file. -/
def Family.Has : Family → Call → Prop
  | _, .init _ | _, .first _ | _, .next _ _ | _, .insertHead _ _ | _, .insertAfter _ _ _
  | _, .remove _ _ | _, .swap _ _ => True
  | F, .last _ | F, .insertTail _ _ | F, .concat _ _ => F.kind.tail = true
  | F, .prev _ _ => F = .tailq
  | F, .insertBefore _ _ _ => F.kind.prev = true
  | F, .removeAfter _ _ | F, .removeHead _ => F.kind.prev = false

/-- The removal macros of a family; `init` is for those whose name ends so. -/
def takeOut (fuel : ℕ) (init : Bool) (h : ℕ) : Family → Memory → ℕ → Option Memory
  | .slist, m, elm => slistRemove fuel m h elm
  | .stailq, m, elm => stailqRemove fuel m h elm
  | .list, m, elm => if init then listRemoveInit m elm else listRemove m elm
  | .tailq, m, elm => if init then tailqRemoveInit m h elm else tailqRemove m h elm

/-- A body that takes some of the elements out. -/
def takeOutIf (fuel : ℕ) (init : Bool) (h : ℕ) (F : Family) (drop : ℕ → Bool) (m : Memory)
    (elm : ℕ) : Option Memory :=
  if drop elm then takeOut fuel init h F m elm else some m

/-! ## Lists of elements -/

/-- The element behind `x`. -/
def behindIn (x : ℕ) : List ℕ → Option ℕ
  | [] => none
  | b :: l => if b = x then l.head? else behindIn x l

/-- The list with `e` put behind `x`. -/
def putBehind (x e : ℕ) : List ℕ → List ℕ
  | [] => []
  | b :: l => if b = x then b :: e :: l else b :: putBehind x e l

/-- The list with `e` put before `x`. -/
def putBefore (x e : ℕ) : List ℕ → List ℕ
  | [] => []
  | b :: l => if b = x then e :: b :: l else b :: putBefore x e l

/-- The list without the element behind `x`. -/
def dropBehind (x : ℕ) : List ℕ → List ℕ
  | [] => []
  | b :: l => if b = x then b :: l.tail else b :: dropBehind x l

/-- The elements of a head. -/
def elems (A : ℕ → Option (List ℕ)) (h : ℕ) : List ℕ := (A h).getD []

/-- The element that a call links in. -/
def Call.newElm : Call → Option ℕ
  | .insertHead _ elm | .insertTail _ elm | .insertBefore _ _ elm | .insertAfter _ _ elm =>
      some elm
  | _ => none

/-- The calls on lists. -/
def spec (A : ℕ → Option (List ℕ)) : Call → Option ℕ × (ℕ → Option (List ℕ))
  | .init h => (none, Function.update A h (some []))
  | .first h => ((elems A h).head?, A)
  | .last h => ((elems A h).getLast?, A)
  | .next h elm => (behindIn elm (elems A h), A)
  | .prev h elm => (behindIn elm (elems A h).reverse, A)
  | .insertHead h elm => (none, Function.update A h (some (elm :: elems A h)))
  | .insertBefore h listelm elm =>
      (none, Function.update A h (some (putBefore listelm elm (elems A h))))
  | .insertAfter h listelm elm =>
      (none, Function.update A h (some (putBehind listelm elm (elems A h))))
  | .insertTail h elm => (none, Function.update A h (some (elems A h ++ [elm])))
  | .concat h₁ h₂ =>
      (none, Function.update (Function.update A h₁ (some (elems A h₁ ++ elems A h₂))) h₂ (some []))
  | .removeAfter h elm => (none, Function.update A h (some (dropBehind elm (elems A h))))
  | .removeHead h => (none, Function.update A h (some (elems A h).tail))
  | .remove h elm => (none, Function.update A h (some ((elems A h).erase elm)))
  | .swap h₁ h₂ =>
      (none, Function.update (Function.update A h₁ (some (elems A h₂))) h₂ (some (elems A h₁)))

/-- What a call asks of its arguments: that a head is initialised, that an element is in its
queue, or that one is in no queue. -/
def Valid (A : ℕ → Option (List ℕ)) : Call → Prop
  | .init _ => True
  | .first h | .last h => (A h).isSome
  | .next h elm | .prev h elm => (A h).isSome ∧ elm ∈ elems A h
  | .insertHead h elm | .insertTail h elm => (A h).isSome ∧ Free A elm
  | .insertBefore h listelm elm | .insertAfter h listelm elm =>
      (A h).isSome ∧ listelm ∈ elems A h ∧ Free A elm
  | .concat h₁ h₂ | .swap h₁ h₂ => (A h₁).isSome ∧ (A h₂).isSome ∧ h₁ ≠ h₂
  | .removeAfter h elm => (A h).isSome ∧ elm ∈ elems A h ∧ behindIn elm (elems A h) ≠ none
  | .removeHead h => (A h).isSome ∧ elems A h ≠ []
  | .remove h elm => (A h).isSome ∧ elm ∈ elems A h

end ListHpi

end Kylin
