import Mathlib.Data.List.Pairwise
import Kylin.Lib.Walk
import Kylin.Math.RbUnlink

/-!
# Lookup and neighbours

The reading functions of `lib/core/math/kylin_rb.c` on linked trees in search order, with any
colours.  `kylin_rb_next_raw` and `kylin_rb_prev_raw` are mirror images and one definition
here; what they return is the head of the rest of a walk.

## Main definitions

* `nextRaw`, `prevRaw`, `next`, `prev`, `findOrNextRaw`, `findOrNext` — the operations.
* `Searchable` — linked trees in search order.

## Main results

* `Searchable.findRaw`, `neighborRaw_spec` — lookup, and one step of a walk.
* `lookup_spec` — lookup and neighbours by their keys.
* `findsLowerBound_iff` — when a lower bound is found.
-/

namespace Kylin

open Lib

namespace Krb.World
variable {α : Type}

/-! ## The functions -/

/-- The end of the chain of children on a side. -/
def furthest (side : Side) (w : World α) : ℕ → ℕ → Option ℕ
  | 0, _ => none
  | fuel + 1, tmp => do
      match ← w.childOf side (some tmp) with
      | none => some tmp
      | some child => furthest side w fuel child

/-- The first parent that is not reached from its child on a side. -/
def climb (side : Side) (w : World α) : ℕ → ℕ → Option (Option ℕ)
  | 0, _ => none
  | fuel + 1, tmp => do
      match ← w.parentOf (some tmp) with
      | none => some none
      | some parent =>
          if (← w.childOf side (some parent)) = some tmp then climb side w fuel parent
          else some (some parent)

/-- `kylin_rb_next_raw` and, for the other side, `kylin_rb_prev_raw`. -/
def neighborRaw (side : Side) (fuel : ℕ) (w : World α) (node : ℕ) : Option (Option ℕ) := do
  match ← w.childOf side (some node) with
  | some child => (w.furthest side.other fuel child).map some
  | none =>
      match ← w.parentOf (some node) with
      | none => w.climb side fuel node
      | some parent =>
          if (← w.childOf side.other (some parent)) = some node then some (some parent)
          else w.climb side fuel node

/-- `kylin_rb_next_raw`. -/
def nextRaw (fuel : ℕ) (w : World α) (node : ℕ) : Option (Option ℕ) :=
  w.neighborRaw .right fuel node

/-- `kylin_rb_prev_raw`. -/
def prevRaw (fuel : ℕ) (w : World α) (node : ℕ) : Option (Option ℕ) :=
  w.neighborRaw .left fuel node

/-- `kylin_rb_val`. -/
def valOf (w : World α) (node : ℕ) : Option (KPtr α) :=
  (w.heap.get node).map fun x => kmathValGet x.val w.guard.opts.valType

/-- `kylin_rb_next` and `kylin_rb_prev`. -/
def neighbor (side : Side) (fuel : ℕ) (w : World α) (cmp : KPtr α) : Option (KPtr α) := do
  match ← w.findRaw fuel cmp with
  | none => some .null
  | some node =>
      match ← w.neighborRaw side fuel node with
      | none => some .null
      | some node => w.valOf node

/-- `kylin_rb_next`. -/
def next (fuel : ℕ) (w : World α) (cmp : KPtr α) : Option (KPtr α) := w.neighbor .right fuel cmp

/-- `kylin_rb_prev`. -/
def prev (fuel : ℕ) (w : World α) (cmp : KPtr α) : Option (KPtr α) := w.neighbor .left fuel cmp

/-- The loop of `kylin_rb_find_or_next` and `kylin_rb_find_or_next_raw`: the final values of
`tmp`, null unless an equal value was met, and of `res`. -/
def findOrNextLoop (w : World α) (cmp : KPtr α) :
    ℕ → Option ℕ → Option ℕ → Option (Option ℕ × Option ℕ)
  | _, none, res => some (none, res)
  | 0, some _, _ => none
  | fuel + 1, some tmp, res => do
      let x ← w.heap.get tmp
      let result ← kmathValCmpRaw x.val cmp w.guard.opts.valType w.guard.opts.compare
      if result < 0 then findOrNextLoop w cmp fuel x.right (some tmp)
      else if 0 < result then findOrNextLoop w cmp fuel x.left res
      else some (some tmp, res)

/-- `kylin_rb_find_or_next_raw`. -/
def findOrNextRaw (fuel : ℕ) (w : World α) (cmp : KPtr α) : Option (Option ℕ) := do
  let (tmp, res) ← w.findOrNextLoop cmp fuel w.guard.root none
  some (if tmp = none then res else tmp)

/-- A node as a `void *`. -/
def nodePtr : Option ℕ → KPtr α
  | none => .null
  | some node => .raw (BitVec.ofNat 64 node)

/-- `kylin_rb_find_or_next`, which returns the node itself when no value is equal. -/
def findOrNext (fuel : ℕ) (w : World α) (cmp : KPtr α) : Option (KPtr α) := do
  match ← w.findOrNextLoop cmp fuel w.guard.root none with
  | (some tmp, _) => w.valOf tmp
  | (none, res) => some (nodePtr res)

/-! ## One step of a walk -/

open ColorTree

section Neighbor
variable {w : World α} {s : Side} {fuel n : ℕ} {c : Color} {t x y : ColorTree ℕ}
  {path : List (Frame ℕ)}

/-- A descent ends at the first node of the walk back. -/
theorem furthest_spec (hfuel : t.toList.length ≤ fuel) (H : At w path t) (hn : t.root = some n) :
    ∃ m, w.furthest s.other fuel n = some m ∧ (toward s t).head? = some m := by
  induction fuel generalizing path t n with
  | zero =>
      have hpos := List.length_pos_of_mem (mem_toList_of_root hn)
      omega
  | succ fuel ih =>
      obtain ⟨x, y, hjoin⟩ := exists_join_of_root s hn
      rw [hjoin] at H hfuel ⊢
      rw [furthest, childOf_other_eq H, Option.bind_eq_bind, Option.bind_some, toward_join]
      cases hy : y.root with
      | none =>
          cases y with
          | nil => exact ⟨n, rfl, by simp⟩
          | node => cases hy
      | some child =>
          have hlen := (perm_join (s := s) (x := x) (a := n) (c := t.color) (y := y)).length_eq
          simp only [List.length_cons, List.length_append] at hlen
          have Hy : At w (⟨s.other, n, t.color, x⟩ :: path) y := at_swap.mp (at_join.mp H)
          obtain ⟨m, hm, hhead⟩ := ih (by omega) Hy hy
          exact ⟨m, hm, by rw [List.head?_append, hhead]; rfl⟩

/-- A climb ends at the first node of the rest of the walk. -/
theorem climb_spec (hfuel : path.length < fuel) (H : At w path t) (hn : t.root = some n) :
    w.climb s fuel n = some (beyond s path).head? := by
  induction fuel generalizing path t n with
  | zero => cases hfuel
  | succ fuel ih =>
      rw [climb, parentOf_eq H hn, Option.bind_eq_bind, Option.bind_some]
      cases path with
      | nil => rw [beyond_nil]; rfl
      | cons f fs =>
          have hne := H.sibling_ne hn
          obtain ⟨side, p, c, u⟩ := f
          have Hup := at_cons.mp H
          dsimp only at Hup hne
          simp only [holder]
          obtain rfl | rfl := Side.eq_or_eq_other s side
          · rw [childOf_eq Hup, Option.bind_some, hn, if_pos rfl, beyond_same]
            rw [List.length_cons, Nat.succ_lt_succ_iff] at hfuel
            exact ih hfuel Hup root_join
          · have hchild := childOf_other_eq Hup
            rw [Side.other_other] at hchild
            rw [hchild, Option.bind_some, if_neg hne, beyond_other]
            rfl

/-- **One step of a walk** is to the next node of it. -/
theorem neighborRaw_spec (hfuel : (plug path (join s x n c y)).toList.length < fuel)
    (H : At w path (join s x n c y)) :
    w.neighborRaw s fuel n = some (toward s x ++ beyond s path).head? := by
  have hlen := length_le_length_toList_plug path (join s x n c y)
  have hlen' := (perm_join (s := s) (x := x) (a := n) (c := c) (y := y)).length_eq
  simp only [List.length_cons, List.length_append] at hlen'
  rw [neighborRaw, childOf_eq H, Option.bind_eq_bind, Option.bind_some]
  cases hx : x.root with
  | some child =>
      obtain ⟨m, hm, hhead⟩ := furthest_spec (s := s) (by omega : x.toList.length ≤ fuel)
        (at_join.mp H) hx
      rw [List.head?_append, hhead]
      simp only [hm, Option.map_some, Option.some_or]
  | none =>
      obtain rfl : x = nil := by
        cases x with
        | nil => rfl
        | node => cases hx
      have hclimb := climb_spec (s := s) (by omega : path.length < fuel) H root_join
      rw [toward_nil, List.nil_append]
      simp only [parentOf_eq H root_join, Option.bind_some]
      cases path with
      | nil => exact hclimb
      | cons f fs =>
          -- the parent is next when it is reached from its other child
          have hne := H.sibling_ne root_join
          obtain ⟨side, p, c', u⟩ := f
          have Hup := at_cons.mp H
          dsimp only at Hup hne
          simp only [holder]
          obtain rfl | rfl := Side.eq_or_eq_other s side
          · rw [childOf_other_eq Hup, Option.bind_some, if_neg hne]
            exact hclimb
          · rw [childOf_eq Hup, Option.bind_some, root_join, if_pos rfl, beyond_other]
            rfl

/-- In a tree, that is the node behind it in the walk. -/
theorem Holds.neighborRaw_eq (H : Holds w t) (hfuel : t.toList.length < fuel)
    {pre post : List ℕ} (hsplit : toward s t = pre ++ n :: post) :
    w.neighborRaw s fuel n = some post.head? := by
  have hmem : n ∈ t.toList := by
    rw [← mem_toward (s := s), hsplit]
    simp
  obtain ⟨path, l, c, r, rfl⟩ := exists_plug hmem
  obtain ⟨x, y, hjoin⟩ := exists_join s l n c r
  rw [hjoin] at H hfuel hsplit
  rw [neighborRaw_spec hfuel (holds_plug.mp H)]
  -- the node occurs once, so the two ways to split the walk there are one
  have hnodup : (toward s (plug path (join s x n c y))).Nodup := by
    cases s with
    | left => exact List.nodup_reverse.mpr H.nodup
    | right => exact H.nodup
  rw [toward_plug, toward_join, List.append_assoc, ← List.append_assoc] at hsplit hnodup
  rw [List.cons_append] at hsplit hnodup
  obtain ⟨-, hcons, hdisj⟩ := List.nodup_append.mp hnodup
  have hpre : n ∉ (beyond s.other path).reverse ++ toward s y :=
    fun h => hdisj n h n (List.mem_cons_self ..) rfl
  have hpost := (List.nodup_cons.mp hcons).1
  rw [((List.append_cons_inj_of_notMem hpre hpost).mp hsplit).2.2]

end Neighbor

/-! ## Search order -/

/-- The key of a node. -/
def keyAt (w : World α) (a : ℕ) : Option (Cell α) := (w.heap.get a).bind KrbNode.key

/-- **A linked tree in search order** under a strict total order. -/
structure Searchable (w : World α) (t : ColorTree ℕ) : Prop where
  holds : Holds w t
  pointer : w.guard.opts.valType.IsPointer
  total : ComparesTotally w.guard.opts.compare
  keys : ∀ a ∈ t.toList, ∃ k, w.keyAt a = some k
  sorted : t.toList.Pairwise w.Precedes

/-- A key comes after another one in a walk toward a side. -/
def Ahead (w : World α) : Side → Cell α → Cell α → Prop
  | .left, k, k' => w.guard.opts.compare k' k < 0
  | .right, k, k' => w.guard.opts.compare k k' < 0

/-- A node with a smaller key, -/
def Below (w : World α) (k : Cell α) (a : ℕ) : Prop :=
  ∃ k', w.keyAt a = some k' ∧ w.guard.opts.compare k' k < 0

/-- and one with a greater key. -/
def Above (w : World α) (k : Cell α) (a : ℕ) : Prop :=
  ∃ k', w.keyAt a = some k' ∧ w.guard.opts.compare k k' < 0

/-- A tree has a node with a key. -/
def Stored (w : World α) (t : ColorTree ℕ) (k : Cell α) : Prop :=
  ∃ a ∈ t.toList, w.keyAt a = some k

/-- The node with the first key behind a key, in a direction: the least greater one, or the
greatest smaller one. -/
def Nearest (w : World α) (s : Side) (t : ColorTree ℕ) (k : Cell α) (a : ℕ) : Prop :=
  a ∈ t.toList ∧ ∃ k', w.keyAt a = some k' ∧ w.Ahead s k k' ∧
    ∀ b ∈ t.toList, ∀ k'', w.keyAt b = some k'' → w.Ahead s k k'' → ¬ w.Ahead s k'' k'

/-- The element of a node: the pointer that the node stores, and its key is behind it. -/
def IsElement (w : World α) (a : ℕ) (q : KPtr α) : Prop :=
  (w.heap.get a).map (fun x => x.val.ptr) = some q ∧ ∃ k, w.keyAt a = some k ∧ q.deref = some k

/-- **What `kylin_rb_next` and `kylin_rb_prev` should return**: the element of that node, and null
when the key is not stored or there is no such node. -/
def IsNeighbor (w : World α) (s : Side) (t : ColorTree ℕ) (k : Cell α) (q : KPtr α) : Prop :=
  (w.Stored t k ∧ ∃ a, w.Nearest s t k a ∧ w.IsElement a q) ∨
    ((¬ w.Stored t k ∨ ∀ b ∈ t.toList, ∀ k', w.keyAt b = some k' → ¬ w.Ahead s k k') ∧ q = .null)

section Search
variable {w : World α} {s : Side} {fuel n : ℕ} {c : Color} {t l r : ColorTree ℕ} {cmp : KPtr α}
  {k k' : Cell α}

theorem ComparesTotally.asymm {compare : Cell α → Cell α → ℤ} (h : ComparesTotally compare)
    {k k' : Cell α} (hlt : compare k k' < 0) : ¬ compare k' k < 0 := by
  have := (h.swap k k').mp hlt
  omega

theorem Ahead.asymm (h : ComparesTotally w.guard.opts.compare) (hlt : w.Ahead s k k') :
    ¬ w.Ahead s k' k := by
  cases s with
  | left => exact h.asymm hlt
  | right => exact h.asymm hlt

/-- The keys of two nodes in order. -/
theorem Precedes.lt {a b : ℕ} (h : w.Precedes a b) (hptr : w.guard.opts.valType.IsPointer)
    (ha : w.keyAt a = some k) (hb : w.keyAt b = some k') : w.guard.opts.compare k k' < 0 := by
  obtain ⟨x, y, result, hx, hy, hcmp, hlt⟩ := h
  rw [keyAt, hx, Option.bind_some] at ha
  rw [keyAt, hy, Option.bind_some] at hb
  rw [kmathValCmp_of_isPointer hptr ha hb] at hcmp
  rwa [Option.some.inj hcmp]

/-- The walk meets the keys in order. -/
theorem Searchable.pairwise (S : Searchable w t) (s : Side) :
    (toward s t).Pairwise fun a b => ∀ k k', w.keyAt a = some k → w.keyAt b = some k' →
      w.Ahead s k k' := by
  cases s with
  | left =>
      refine List.pairwise_reverse.mpr (S.sorted.imp ?_)
      intro a b h k k' ha hb
      exact h.lt S.pointer hb ha
  | right =>
      refine S.sorted.imp ?_
      intro a b h k k' ha hb
      exact h.lt S.pointer ha hb

theorem Below.ne (hcmp : ComparesTotally w.guard.opts.compare) (h : w.Below k n) :
    w.keyAt n ≠ some k := by
  obtain ⟨k', hk', hlt⟩ := h
  rintro heq
  obtain rfl := Option.some.inj (hk'.symm.trans heq)
  exact hcmp.asymm hlt hlt

theorem Above.ne (hcmp : ComparesTotally w.guard.opts.compare) (h : w.Above k n) :
    w.keyAt n ≠ some k := by
  obtain ⟨k', hk', hlt⟩ := h
  rintro heq
  obtain rfl := Option.some.inj (hk'.symm.trans heq)
  exact hcmp.asymm hlt hlt

/-- No two nodes have equal keys. -/
theorem eq_of_keyAt (hptr : w.guard.opts.valType.IsPointer)
    (hcmp : ComparesTotally w.guard.opts.compare) {nodes : List ℕ}
    (hsorted : nodes.Pairwise w.Precedes) {a b : ℕ} (ha : a ∈ nodes) (hb : b ∈ nodes)
    (hka : w.keyAt a = some k) (hkb : w.keyAt b = some k) : a = b := by
  by_contra hne
  have hdiff : nodes.Pairwise fun a b => ¬ (w.keyAt a = some k ∧ w.keyAt b = some k) := by
    refine hsorted.imp ?_
    rintro a b h ⟨ha, hb⟩
    have hlt := h.lt hptr ha hb
    exact hcmp.asymm hlt hlt
  have : Std.Symm fun a b => ¬ (w.keyAt a = some k ∧ w.keyAt b = some k) :=
    ⟨fun a b h h' => h h'.symm⟩
  exact hdiff.forall ha hb hne ⟨hka, hkb⟩

/-- What one comparison of a search tells about the two subtrees. -/
theorem search_cases (hptr : w.guard.opts.valType.IsPointer)
    (hcmp : ComparesTotally w.guard.opts.compare)
    (hkeys : ∀ a ∈ (node l n c r).toList, ∃ k, w.keyAt a = some k)
    (hsorted : (node l n c r).toList.Pairwise w.Precedes) (hn : w.keyAt n = some k') (k : Cell α) :
    (w.guard.opts.compare k' k < 0 → ∀ a, a ∈ l.toList ∨ a = n → w.Below k a) ∧
      (0 < w.guard.opts.compare k' k → ∀ a, a = n ∨ a ∈ r.toList → w.Above k a) := by
  rw [toList] at hkeys hsorted
  obtain ⟨-, hr, hl⟩ := List.pairwise_append.mp hsorted
  constructor
  · rintro hlt a (ha | rfl)
    · obtain ⟨ka, hka⟩ := hkeys a (List.mem_append_left _ ha)
      have hless := (hl a ha n (List.mem_cons_self ..)).lt hptr hka hn
      exact ⟨ka, hka, hcmp.trans _ _ _ hless hlt⟩
    · exact ⟨k', hn, hlt⟩
  · intro hgt a ha
    have hlt := (hcmp.swap k k').mpr hgt
    obtain rfl | ha := ha
    · exact ⟨k', hn, hlt⟩
    · obtain ⟨ka, hka⟩ := hkeys a (List.mem_append_right _ (List.mem_cons_of_mem _ ha))
      have hless := ((List.pairwise_cons.mp hr).1 a ha).lt hptr hn hka
      exact ⟨ka, hka, hcmp.trans _ _ _ hlt hless⟩

/-- **The loop of a search**: `tmp` is the node with an equal key, and without one `res` is a
node with a smaller key, when there is such a node. -/
theorem findOrNextLoop_spec (hptr : w.guard.opts.valType.IsPointer)
    (hcmp : ComparesTotally w.guard.opts.compare) (hk : cmp.deref = some k) {p : Option ℕ}
    (hl : Linked w.heap p t) (hkeys : ∀ a ∈ t.toList, ∃ k, w.keyAt a = some k)
    (hsorted : t.toList.Pairwise w.Precedes) (hfuel : t.toList.length ≤ fuel) (res : Option ℕ) :
    ∃ tmp res', w.findOrNextLoop cmp fuel t.root res = some (tmp, res') ∧
      (∀ a, tmp = some a ↔ a ∈ t.toList ∧ w.keyAt a = some k) ∧
      (tmp = none → (∃ a ∈ t.toList, w.Below k a ∧ res' = some a) ∨
        ((∀ a ∈ t.toList, w.Above k a) ∧ res' = res)) := by
  induction t generalizing fuel p res with
  | nil =>
      refine ⟨none, res, ?_, by simp [toList], fun _ => .inr ⟨by simp [toList], rfl⟩⟩
      cases fuel <;> rfl
  | node l n c r ihl ihr =>
      obtain ⟨⟨v, hn⟩, hll, hlr⟩ := hl
      obtain ⟨kn, hkn⟩ := hkeys n (by simp [toList])
      obtain ⟨hbelow, habove⟩ := search_cases hptr hcmp hkeys hsorted hkn k
      rw [toList] at hkeys hsorted hfuel
      simp only [List.forall_mem_append, List.forall_mem_cons] at hkeys
      obtain ⟨hsl, hsr, -⟩ := List.pairwise_append.mp hsorted
      simp only [List.length_append, List.length_cons] at hfuel
      obtain ⟨fuel, rfl⟩ : ∃ j, fuel = j + 1 := ⟨fuel - 1, by omega⟩
      have hres : kmathValCmpRaw v cmp w.guard.opts.valType w.guard.opts.compare =
          some (w.guard.opts.compare kn k) := by
        rw [keyAt, hn] at hkn
        exact kmathValCmpRaw_of_isPointer hptr hkn hk _
      simp only [root_node, findOrNextLoop, hn, hres, Option.bind_eq_bind, Option.bind_some,
        toList, List.mem_append, List.mem_cons]
      obtain hlt | heq | hgt := Int.lt_trichotomy (w.guard.opts.compare kn k) 0
      · -- to the right, past keys that are smaller
        obtain ⟨tmp, res', hloop, htmp, hres'⟩ :=
          ihr hlr hkeys.2.2 (List.pairwise_cons.mp hsr).2 (by omega : _ ≤ fuel) (some n)
        refine ⟨tmp, res', by rw [if_pos hlt, hloop], fun a => ?_, fun hnone => .inl ?_⟩
        · rw [htmp a]
          refine and_congr_left fun ha => ⟨fun h => .inr (.inr h), fun h => ?_⟩
          rw [← or_assoc] at h
          exact h.resolve_left fun h => (hbelow hlt a h).ne hcmp ha
        · obtain ⟨a, ha, hless, rfl⟩ | ⟨-, rfl⟩ := hres' hnone
          · exact ⟨a, .inr (.inr ha), hless, rfl⟩
          · exact ⟨n, .inr (.inl rfl), hbelow hlt n (.inr rfl), rfl⟩
      · -- the key is met
        refine ⟨some n, res, by simp [heq], fun a => ?_, fun h => absurd h (Option.some_ne_none n)⟩
        have hkn' : w.keyAt n = some k := by rw [hkn, (hcmp.eq_iff kn k).mp heq]
        constructor
        · rintro ⟨⟩
          exact ⟨.inr (.inl rfl), hkn'⟩
        · rintro ⟨ha, hka⟩
          rw [← List.mem_cons, ← List.mem_append] at ha
          rw [eq_of_keyAt hptr hcmp hsorted ha (by simp) hka hkn']
      · -- to the left of keys that are greater
        obtain ⟨tmp, res', hloop, htmp, hres'⟩ := ihl hll hkeys.1 hsl (by omega : _ ≤ fuel) res
        refine ⟨tmp, res', by rw [if_neg (by omega), if_pos hgt, hloop], fun a => ?_,
          fun hnone => ?_⟩
        · rw [htmp a]
          refine and_congr_left fun ha => ⟨.inl, fun h => ?_⟩
          exact h.resolve_right fun h => (habove hgt a h).ne hcmp ha
        · obtain ⟨a, ha, hless, rfl⟩ | ⟨hall, rfl⟩ := hres' hnone
          · exact .inl ⟨a, .inl ha, hless, rfl⟩
          · refine .inr ⟨fun a ha => ?_, rfl⟩
            obtain ha | ha := ha
            · exact hall a ha
            · exact habove hgt a ha

/-- A lookup is a search that forgets `res`. -/
theorem findLoop_eq (w : World α) (cmp : KPtr α) (fuel : ℕ) (p res : Option ℕ) :
    w.findLoop cmp fuel p = (w.findOrNextLoop cmp fuel p res).map Prod.fst := by
  induction fuel generalizing p res with
  | zero => cases p <;> rfl
  | succ fuel ih =>
      cases p with
      | none => rfl
      | some tmp =>
          rw [findLoop, findOrNextLoop]
          cases w.heap.get tmp with
          | none => rfl
          | some x =>
              simp only [Option.bind_eq_bind, Option.bind_some]
              cases kmathValCmpRaw x.val cmp w.guard.opts.valType w.guard.opts.compare with
              | none => rfl
              | some result =>
                  simp only [Option.bind_some]
                  split
                  · exact ih _ _
                  · split
                    · exact ih _ _
                    · rfl

namespace Searchable

/-- A search from the root. -/
theorem findOrNext (S : Searchable w t) (hfuel : t.toList.length ≤ fuel)
    (hk : cmp.deref = some k) :
    ∃ tmp res, w.findOrNextLoop cmp fuel w.guard.root none = some (tmp, res) ∧
      (∀ a, tmp = some a ↔ a ∈ t.toList ∧ w.keyAt a = some k) ∧
      (tmp = none → (∃ a ∈ t.toList, w.Below k a ∧ res = some a) ∨
        ((∀ a ∈ t.toList, w.Above k a) ∧ res = none)) := by
  rw [S.holds.root]
  exact findOrNextLoop_spec S.pointer S.total hk S.holds.linked S.keys S.sorted hfuel none

/-- **Lookup.** -/
theorem findRaw (S : Searchable w t) (hfuel : t.toList.length ≤ fuel) (hk : cmp.deref = some k) :
    ∃ found, w.findRaw fuel cmp = some found ∧
      ∀ a, found = some a ↔ a ∈ t.toList ∧ w.keyAt a = some k := by
  obtain ⟨tmp, res, hloop, htmp, -⟩ := S.findOrNext hfuel hk
  refine ⟨tmp, ?_, htmp⟩
  rw [World.findRaw, findLoop_eq w cmp fuel _ none, hloop]
  rfl

/-- Behind a node in the walk come the greater keys, in a direction, and the first comes first. -/
theorem nearest (S : Searchable w t) {pre post : List ℕ}
    (hsplit : toward s t = pre ++ n :: post) (hn : w.keyAt n = some k) :
    (post = [] → ∀ b ∈ t.toList, ∀ k', w.keyAt b = some k' → ¬ w.Ahead s k k') ∧
      ∀ m, post.head? = some m → w.Nearest s t k m := by
  have hpair := S.pairwise s
  rw [hsplit, List.pairwise_append, List.pairwise_cons] at hpair
  obtain ⟨-, ⟨hpost, hpost'⟩, hpre⟩ := hpair
  -- the keys up to that of the node are not ahead of it
  have hback : ∀ b ∈ t.toList, ∀ k', w.keyAt b = some k' → w.Ahead s k k' → b ∈ post := by
    intro b hb k' hk' hahead
    rw [← mem_toward (s := s), hsplit, List.mem_append, List.mem_cons] at hb
    obtain hb | rfl | hb := hb
    · exact absurd (hpre b hb n (List.mem_cons_self ..) k' k hk' hn) (hahead.asymm S.total)
    · obtain rfl := Option.some.inj (hn.symm.trans hk')
      exact absurd hahead (hahead.asymm S.total)
    · exact hb
  constructor
  · rintro rfl b hb k' hk' hahead
    cases hback b hb k' hk' hahead
  · intro m hm
    cases post with
    | nil => cases hm
    | cons m post =>
        cases hm
        have hmem : m ∈ t.toList := by
          rw [← mem_toward (s := s), hsplit]
          simp
        obtain ⟨km, hkm⟩ := S.keys m hmem
        refine ⟨hmem, km, hkm, hpost m (List.mem_cons_self ..) k km hn hkm, ?_⟩
        intro b hb k' hk' hahead
        obtain rfl | hb := List.mem_cons.mp (hback b hb k' hk' hahead)
        · obtain rfl := Option.some.inj (hkm.symm.trans hk')
          exact fun h => h.asymm S.total h
        · have hlater := (List.pairwise_cons.mp hpost').1 b hb km k' hkm hk'
          exact hlater.asymm S.total

/-- What `kylin_rb_val` returns is the element. -/
theorem valOf (S : Searchable w t) {a : ℕ} (ha : a ∈ t.toList) :
    ∃ q, w.valOf a = some q ∧ w.IsElement a q := by
  obtain ⟨k, hk⟩ := S.keys a ha
  obtain ⟨x, hx, hkey⟩ := Option.bind_eq_some_iff.mp hk
  refine ⟨x.val.ptr, ?_, by rw [hx, Option.map_some], k, hk, hkey⟩
  rw [World.valOf, hx, Option.map_some, kmathValGet_of_isPointer S.pointer]

/-- **The neighbour of a key** in a direction. -/
theorem neighbor (S : Searchable w t) (hfuel : t.toList.length < fuel) (hk : cmp.deref = some k)
    (s : Side) : ∃ q, w.neighbor s fuel cmp = some q ∧ w.IsNeighbor s t k q := by
  obtain ⟨found, hfind, hfound⟩ := S.findRaw (Nat.le_of_lt hfuel) hk
  cases found with
  | none =>
      refine ⟨.null, by simp [World.neighbor, hfind], .inr ⟨.inl ?_, rfl⟩⟩
      rintro ⟨a, ha, hka⟩
      cases (hfound a).mpr ⟨ha, hka⟩
  | some a =>
      obtain ⟨ha, hka⟩ := (hfound a).mp rfl
      obtain ⟨pre, post, hsplit⟩ := List.append_of_mem (mem_toward (s := s).mpr ha)
      have hstep := S.holds.neighborRaw_eq hfuel hsplit
      obtain ⟨hnone, hsome⟩ := S.nearest hsplit hka
      cases post with
      | nil =>
          exact ⟨.null, by simp [World.neighbor, hfind, hstep], .inr ⟨.inr (hnone rfl), rfl⟩⟩
      | cons m post =>
          have hm := hsome m rfl
          obtain ⟨q, hval, helm⟩ := S.valOf hm.1
          refine ⟨q, ?_, .inl ⟨⟨a, ha, hka⟩, m, hm, helm⟩⟩
          simp [World.neighbor, hfind, hstep, hval]

/-- Steps in the two directions undo each other. -/
theorem neighborRaw_other (S : Searchable w t) (hfuel : t.toList.length < fuel) {a b : ℕ}
    (ha : a ∈ t.toList) (s : Side) (hb : w.neighborRaw s fuel a = some (some b)) :
    w.neighborRaw s.other fuel b = some (some a) := by
  obtain ⟨pre, post, hsplit⟩ := List.append_of_mem (mem_toward (s := s).mpr ha)
  rw [S.holds.neighborRaw_eq hfuel hsplit] at hb
  cases post with
  | nil => cases hb
  | cons m post =>
      cases hb
      have hsplit' : toward s.other t = post.reverse ++ b :: a :: pre.reverse := by
        rw [← reverse_toward, hsplit]
        simp
      exact S.holds.neighborRaw_eq hfuel hsplit'

/-- A step in a direction returns. -/
theorem exists_neighborRaw (S : Searchable w t) (hfuel : t.toList.length < fuel) {a : ℕ}
    (ha : a ∈ t.toList) (s : Side) : ∃ b, w.neighborRaw s fuel a = some b := by
  obtain ⟨pre, post, hsplit⟩ := List.append_of_mem (mem_toward (s := s).mpr ha)
  exact ⟨_, S.holds.neighborRaw_eq hfuel hsplit⟩

end Searchable

/-- **Lookup and neighbours.**  In a linked tree in search order, a lookup finds the node whose
key compares equal, `kylin_rb_next` and `kylin_rb_prev` return the element of the neighbour, and
the two steps between nodes return and undo each other. -/
theorem lookup_spec (S : Searchable w t) (hfuel : t.toList.length < fuel) :
    (∀ cmp k, cmp.deref = some k →
      (∃ found, w.findRaw fuel cmp = some found ∧ ∀ a, found = some a ↔
        a ∈ t.toList ∧ ∃ k', w.keyAt a = some k' ∧ w.guard.opts.compare k' k = 0) ∧
      (∃ q, w.next fuel cmp = some q ∧ w.IsNeighbor .right t k q) ∧
      ∃ q, w.prev fuel cmp = some q ∧ w.IsNeighbor .left t k q) ∧
    ∀ a ∈ t.toList, (∃ b, w.nextRaw fuel a = some b) ∧ (∃ b, w.prevRaw fuel a = some b) ∧
      ∀ b, (w.nextRaw fuel a = some (some b) → w.prevRaw fuel b = some (some a)) ∧
        (w.prevRaw fuel a = some (some b) → w.nextRaw fuel b = some (some a)) := by
  constructor
  · intro cmp k hk
    refine ⟨?_, S.neighbor hfuel hk .right, S.neighbor hfuel hk .left⟩
    obtain ⟨found, hfind, hfound⟩ := S.findRaw (Nat.le_of_lt hfuel) hk
    refine ⟨found, hfind, fun a => ?_⟩
    rw [hfound a]
    simp only [S.total.eq_iff, exists_eq_right]
  · intro a ha
    exact ⟨S.exists_neighborRaw hfuel ha .right, S.exists_neighborRaw hfuel ha .left,
      fun b => ⟨S.neighborRaw_other hfuel ha .right, S.neighborRaw_other hfuel ha .left⟩⟩

theorem searchable_oneChild : Searchable oneChild (node (node nil 2 .red nil) 1 .black nil) where
  holds := wellFormed_oneChild.holds
  pointer := by decide
  total := comparesTotally_rank
  keys := by
    simp only [toList, List.nil_append, List.cons_append, List.forall_mem_cons]
    exact ⟨⟨.obj 3, rfl⟩, ⟨.obj 5, rfl⟩, by simp⟩
  sorted := wellFormed_oneChild.sorted

/-- The neighbour of 3 in a tree of 3 and 5. -/
theorem next_oneChild :
    ∃ q, oneChild.next 3 (.user (.obj 3)) = some q ∧
      oneChild.IsNeighbor .right (node (node nil 2 .red nil) 1 .black nil) (.obj 3) q :=
  ((lookup_spec searchable_oneChild (by decide)).1 (.user (.obj 3)) (.obj 3) rfl).2.1

/-! ## Lower bounds -/

/-- The node with the least key that is not below a key; null when all keys are. -/
def IsLowerBound (w : World α) (t : ColorTree ℕ) (k : Cell α) : Option ℕ → Prop
  | none => ∀ a ∈ t.toList, w.Below k a
  | some a => a ∈ t.toList ∧ ∃ k', w.keyAt a = some k' ∧ ¬ w.guard.opts.compare k' k < 0 ∧
      ∀ b ∈ t.toList, ∀ k'', w.keyAt b = some k'' → ¬ w.guard.opts.compare k'' k < 0 →
        ¬ w.guard.opts.compare k'' k' < 0

/-- **What `kylin_rb_find_or_next_raw` and `kylin_rb_find_or_next` should return**: that node,
and its element. -/
def FindsLowerBound (fuel : ℕ) (w : World α) (t : ColorTree ℕ) (cmp : KPtr α) (k : Cell α) : Prop :=
  ∃ p q, w.findOrNextRaw fuel cmp = some p ∧ w.IsLowerBound t k p ∧
    w.findOrNext fuel cmp = some q ∧ p.elim (q = .null) (w.IsElement · q)

/-- A key that is not stored has no lower bound here: the search returns a node with a smaller
key, or null when there is none. -/
theorem Searchable.stored_or_empty (S : Searchable w t) (hfuel : t.toList.length ≤ fuel)
    (hk : cmp.deref = some k) (h : FindsLowerBound fuel w t cmp k) :
    w.Stored t k ∨ w.guard.root = none := by
  obtain ⟨p, q, hp, hbound, -⟩ := h
  obtain ⟨tmp, res, hloop, htmp, hres⟩ := S.findOrNext hfuel hk
  rw [findOrNextRaw, hloop] at hp
  cases tmp with
  | some a => exact .inl ⟨a, (htmp a).mp rfl⟩
  | none =>
      obtain rfl : res = p := Option.some.inj hp
      right
      obtain ⟨a, -, ⟨k', hk', hlt⟩, rfl⟩ | ⟨hall, rfl⟩ := hres rfl
      · obtain ⟨-, k'', hk'', hnot, -⟩ := hbound
        obtain rfl := Option.some.inj (hk'.symm.trans hk'')
        exact absurd hlt hnot
      · by_contra hroot
        rw [S.holds.root] at hroot
        obtain ⟨a, ha⟩ := Option.ne_none_iff_exists'.mp hroot
        have hmem := mem_toList_of_root ha
        obtain ⟨k', hk', hlt⟩ := hall a hmem
        obtain ⟨k'', hk'', hlt'⟩ := hbound a hmem
        obtain rfl := Option.some.inj (hk'.symm.trans hk'')
        exact S.total.asymm hlt hlt'

/-- **When a lower bound is found**: exactly when the key is stored or the tree is empty. -/
theorem findsLowerBound_iff (S : Searchable w t) (hfuel : t.toList.length ≤ fuel)
    (hk : cmp.deref = some k) :
    FindsLowerBound fuel w t cmp k ↔ w.Stored t k ∨ w.guard.root = none := by
  refine ⟨S.stored_or_empty hfuel hk, fun h => ?_⟩
  obtain ⟨tmp, res, hloop, htmp, hres⟩ := S.findOrNext hfuel hk
  cases tmp with
  | some a =>
      obtain ⟨ha, hka⟩ := (htmp a).mp rfl
      obtain ⟨q, hval, helm⟩ := S.valOf ha
      have hself : ¬ w.guard.opts.compare k k < 0 := fun h => S.total.asymm h h
      refine ⟨some a, q, ?_, ⟨ha, k, hka, hself, fun _ _ _ _ h => h⟩, ?_, helm⟩
      · simp [findOrNextRaw, hloop]
      · simp [World.findOrNext, hloop, hval]
  | none =>
      obtain ⟨a, hstored⟩ | hroot := h
      · cases (htmp a).mpr hstored
      · rw [S.holds.root] at hroot
        have hempty : t.toList = [] := by
          cases t with
          | nil => rfl
          | node => cases hroot
        rw [hempty] at hres
        obtain ⟨a, ha, -⟩ | ⟨-, rfl⟩ := hres rfl
        · cases ha
        · refine ⟨none, .null, by simp [findOrNextRaw, hloop], ?_,
            by simp [World.findOrNext, hloop, nodePtr], rfl⟩
          simp [IsLowerBound, hempty]

/-- A key that is stored. -/
theorem findsLowerBound_oneChild :
    FindsLowerBound 2 oneChild (node (node nil 2 .red nil) 1 .black nil) (.user (.obj 3))
      (.obj 3) :=
  (findsLowerBound_iff searchable_oneChild (by decide) rfl).mpr (.inl ⟨2, by decide, rfl⟩)

/-- A key between the stored ones: the answer is the node of the smaller one. -/
theorem not_findsLowerBound_between :
    ∃ (w : World ℕ) (t : ColorTree ℕ) (cmp : KPtr ℕ) (k : Cell ℕ), Searchable w t ∧
      cmp.deref = some k ∧ ∀ fuel, t.toList.length ≤ fuel → ¬ FindsLowerBound fuel w t cmp k := by
  refine ⟨oneChild, _, .user (.obj 4), .obj 4, searchable_oneChild, rfl, fun fuel hfuel h => ?_⟩
  obtain ⟨a, ha, hka⟩ | hroot := searchable_oneChild.stored_or_empty hfuel rfl h
  · simp only [toList, List.nil_append, List.cons_append, List.mem_cons] at ha
    obtain rfl | rfl | ha := ha
    · cases hka
    · cases hka
    · cases ha
  · cases hroot

end Search

end Krb.World

end Kylin
