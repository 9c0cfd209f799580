import Kylin.Math.RbHpi

/-!
# Runs of the red-black tree macros

The lookups, the neighbours and the iterations of `RB_GENERATE` (`include/math/kylin_rb_hpi.h`)
on trees in search order, and whole runs of the generated functions.

The refinement is one call at a time: `perform_spec` says that a call does to the walk of the
tree what it does to the ordered set, within as many turns as the tree is deep.

## Main definitions

* `foreach`, `foreachSafe` — the iterations.
* `Call`, `perform`, `Allowed` — the calls on a tree.
* `spec` — the ordered set.

## Main results

* `run_isOrderedSet` — every run of the macros is one of an ordered set.
* `run_logarithmic` — updates and lookups in a tree of `n` elements take logarithmic time.
* `foreachSafe_spec` — an iteration that removes elements visits all of them.
-/

namespace Kylin

open Lib ColorTree
open Krb (World)
open Krb.World (Holds At Linked at_join holds_iff)

namespace RbHpi
variable {α : Type}

/-! ## Lookup and neighbours -/

section Lookup
variable {K : Type} [LinearOrder K] {cmp : ℕ → ℕ → ℤ} {key : ℕ → K} {w : World α}
  {fuel elm n : ℕ} {t : ColorTree ℕ} {path : List (Frame ℕ)}

/-- `RB_FIND` below a place. -/
theorem findLoop_spec (hord : Orders cmp key) (hfuel : t.depth ≤ fuel) (H : At w path t)
    (ht : OrderedSet.Ascending key t.toList) :
    findLoop cmp w elm fuel t.root = some (OrderedSet.lookup key (key elm) t.toList) := by
  induction t generalizing path fuel with
  | nil => cases fuel <;> rfl
  | node l n c r ihl ihr =>
      obtain ⟨fuel, rfl⟩ : ∃ k, fuel = k + 1 := ⟨fuel - 1, by rw [depth] at hfuel; omega⟩
      rw [depth, Nat.succ_le_succ_iff, Nat.max_le] at hfuel
      obtain ⟨hl, hr, hlt, hgt⟩ := ascending_node ht
      obtain ⟨⟨v, hn⟩, -⟩ := H.linked
      have hleft := ihl hfuel.1 (at_join (s := .left).mp H) hl
      have hright := ihr hfuel.2 (at_join (s := .right).mp H) hr
      have hmiss : ∀ s : List ℕ, (∀ b ∈ s, key b ≠ key elm) →
          s.find? (fun a => decide (key a = key elm)) = none := by
        intro s hs
        rwa [← OrderedSet.lookup, OrderedSet.lookup_eq_none_iff]
      rw [root_node, findLoop, hn, Option.bind_eq_bind, Option.bind_some, OrderedSet.lookup,
        toList, List.find?_append, List.find?_cons]
      obtain ⟨hkey, hneg⟩ | ⟨hkey, hzero⟩ | ⟨hkey, hnneg, hpos⟩ := compare_cases hord elm n
      · rw [if_pos hneg, decide_eq_false hkey.ne', hmiss r.toList fun b hb =>
          (hkey.trans (hgt b hb)).ne', Option.or_none]
        exact hleft
      · rw [if_neg (by omega), if_neg (by omega), decide_eq_true hkey.symm,
          hmiss l.toList fun b hb => (hkey ▸ hlt b hb).ne]
        rfl
      · rw [if_neg hnneg, if_pos hpos, decide_eq_false hkey.ne,
          hmiss l.toList fun b hb => ((hlt b hb).trans hkey).ne]
        exact hright

/-- `RB_NFIND` below a place, when `res` is what was met above. -/
theorem nfindLoop_spec (hord : Orders cmp key) (hfuel : t.depth ≤ fuel) (H : At w path t)
    (ht : OrderedSet.Ascending key t.toList) (res : Option ℕ) :
    nfindLoop cmp w elm fuel t.root res =
      some ((t.toList.find? fun b => key elm ≤ key b).or res) := by
  induction t generalizing path fuel res with
  | nil => cases fuel <;> rfl
  | node l n c r ihl ihr =>
      obtain ⟨fuel, rfl⟩ : ∃ k, fuel = k + 1 := ⟨fuel - 1, by rw [depth] at hfuel; omega⟩
      rw [depth, Nat.succ_le_succ_iff, Nat.max_le] at hfuel
      obtain ⟨hl, hr, hlt, hgt⟩ := ascending_node ht
      obtain ⟨⟨v, hn⟩, -⟩ := H.linked
      have hleft := ihl hfuel.1 (at_join (s := .left).mp H) hl
      have hright := ihr hfuel.2 (at_join (s := .right).mp H) hr
      have hmiss : key n ≤ key elm → l.toList.find? (fun b => decide (key elm ≤ key b)) = none := by
        intro hle
        rw [List.find?_eq_none]
        exact fun b hb => by simpa using (hlt b hb).trans_le hle
      rw [root_node, nfindLoop, hn, Option.bind_eq_bind, Option.bind_some, toList,
        List.find?_append, List.find?_cons]
      obtain ⟨hkey, hneg⟩ | ⟨hkey, hzero⟩ | ⟨hkey, hnneg, hpos⟩ := compare_cases hord elm n
      · rw [if_pos hneg, decide_eq_true hkey.le, hleft (some n), Option.or_assoc]
        rfl
      · rw [if_neg (by omega), if_neg (by omega), decide_eq_true hkey.le, hmiss hkey.ge]
        rfl
      · rw [if_neg hnneg, if_pos hpos, decide_eq_false hkey.not_ge, hmiss hkey.le]
        exact hright res

/-- `RB_MINMAX` ends at the last node of the walk to its side. -/
theorem minmaxLoop_spec {s : Side} (hfuel : t.depth ≤ fuel) (H : At w path t)
    (parent : Option ℕ) :
    minmaxLoop s w fuel t.root parent = some ((toward s t).getLast?.or parent) := by
  induction fuel generalizing path t parent with
  | zero =>
      cases t with
      | nil => rw [toward_nil]; rfl
      | node l a c r => simp [depth] at hfuel
  | succ fuel ih =>
      cases hn : t.root with
      | none =>
          cases t with
          | nil => rw [toward_nil]; rfl
          | node l a c r => cases hn
      | some n =>
          obtain ⟨x, y, hjoin⟩ := exists_join_of_root s hn
          rw [hjoin] at H hfuel ⊢
          rw [depth_join, Nat.succ_le_succ_iff, Nat.max_le] at hfuel
          rw [minmaxLoop, World.childOf_eq H, Option.bind_eq_bind, Option.bind_some,
            ih hfuel.1 (at_join.mp H), toward_join, List.getLast?_append, List.getLast?_cons]
          cases (toward s x).getLast? <;> rfl

theorem min_spec (hfuel : t.depth ≤ fuel) (T : IsTree key w t) :
    min fuel w = some t.toList.head? := by
  have hmin := minmaxLoop_spec (s := .left) hfuel (holds_iff.mp T.holds) none
  rw [Option.or_none, toward, List.getLast?_reverse] at hmin
  rw [min, minmax, T.holds.root, if_pos (by decide), hmin]

theorem max_spec (hfuel : t.depth ≤ fuel) (T : IsTree key w t) :
    max fuel w = some t.toList.getLast? := by
  have hmax := minmaxLoop_spec (s := .right) hfuel (holds_iff.mp T.holds) none
  rw [Option.or_none, toward] at hmax
  rw [max, minmax, T.holds.root, if_neg (by decide), hmax]

/-- The next element is the first with a larger key, -/
theorem find?_above {pre post : List ℕ} (h : OrderedSet.Ascending key (pre ++ n :: post)) :
    (pre ++ n :: post).find? (fun b => key n < key b) = post.head? := by
  rw [OrderedSet.Ascending, List.pairwise_append, List.pairwise_cons] at h
  obtain ⟨-, ⟨hpost, -⟩, hpre⟩ := h
  have hmiss : pre.find? (fun b => decide (key n < key b)) = none := by
    rw [List.find?_eq_none]
    exact fun b hb => by simpa using (hpre b hb n (List.mem_cons_self ..)).le
  rw [List.find?_append, hmiss, List.find?_cons, decide_eq_false (lt_irrefl _), Option.none_or]
  cases post with
  | nil => rfl
  | cons b post =>
      rw [List.find?_cons, decide_eq_true (hpost b (List.mem_cons_self ..))]
      rfl

/-- and the one before is the last with a smaller one. -/
theorem find?_below {pre post : List ℕ} (h : OrderedSet.Ascending key (pre ++ n :: post)) :
    (pre ++ n :: post).reverse.find? (fun b => key b < key n) = pre.getLast? := by
  rw [OrderedSet.Ascending, List.pairwise_append, List.pairwise_cons] at h
  obtain ⟨-, ⟨hpost, -⟩, hpre⟩ := h
  have hmiss : post.reverse.find? (fun b => decide (key b < key n)) = none := by
    rw [List.find?_eq_none]
    exact fun b hb => by simpa using (hpost b (List.mem_reverse.mp hb)).le
  rw [List.reverse_append, List.reverse_cons, List.append_assoc, List.find?_append, hmiss,
    List.singleton_append, List.find?_cons, decide_eq_false (lt_irrefl _), Option.none_or,
    ← List.head?_reverse]
  cases hrev : pre.reverse with
  | nil => rfl
  | cons b rest =>
      have hb : b ∈ pre := by
        rw [← List.mem_reverse, hrev]
        exact List.mem_cons_self ..
      rw [List.find?_cons, decide_eq_true (hpre b hb n (List.mem_cons_self ..))]
      rfl

theorem next_spec (hfuel : t.toList.length < fuel) (T : IsTree key w t) (hn : n ∈ t.toList) :
    next fuel w n = some (t.toList.find? fun b => key n < key b) := by
  obtain ⟨pre, post, hsplit⟩ := List.append_of_mem hn
  have hasc := T.ascending
  rw [hsplit] at hasc
  rw [next, World.nextRaw, T.holds.neighborRaw_eq (s := .right) hfuel hsplit, hsplit,
    find?_above hasc]

theorem prev_spec (hfuel : t.toList.length < fuel) (T : IsTree key w t) (hn : n ∈ t.toList) :
    prev fuel w n = some (t.toList.reverse.find? fun b => key b < key n) := by
  obtain ⟨pre, post, hsplit⟩ := List.append_of_mem hn
  have hasc := T.ascending
  rw [hsplit] at hasc
  have hback : toward .left t = post.reverse ++ n :: pre.reverse := by
    rw [toward, hsplit]
    simp
  rw [prev, World.prevRaw, T.holds.neighborRaw_eq hfuel hback, hsplit, find?_below hasc,
    List.head?_reverse]

end Lookup

/-! ## Iteration -/

/-- The loop of `RB_FOREACH` and, for the other side, of `RB_FOREACH_REVERSE`, with the
elements it visits. -/
def foreachLoop (side : Side) (fuel : ℕ) (body : World α → ℕ → Option (World α)) :
    ℕ → World α → Option ℕ → Option (List ℕ × World α)
  | _, w, none => some ([], w)
  | 0, _, some _ => none
  | turns + 1, w, some x => do
      let w ← body w x
      let y ← w.neighborRaw side fuel x
      let (xs, w) ← foreachLoop side fuel body turns w y
      some (x :: xs, w)

/-- The loop of `RB_FOREACH_FROM` and of `RB_FOREACH_SAFE`, where the next element is found
before the body runs. -/
def foreachSafeLoop (side : Side) (fuel : ℕ) (body : World α → ℕ → Option (World α)) :
    ℕ → World α → Option ℕ → Option (List ℕ × World α)
  | _, w, none => some ([], w)
  | 0, _, some _ => none
  | turns + 1, w, some x => do
      let y ← w.neighborRaw side fuel x
      let w ← body w x
      let (xs, w) ← foreachSafeLoop side fuel body turns w y
      some (x :: xs, w)

/-- Where an iteration starts: at the other end. -/
def start (side : Side) (fuel : ℕ) (w : World α) : Option (Option ℕ) :=
  match side with
  | .right => min fuel w
  | .left => max fuel w

/-- `RB_FOREACH` and `RB_FOREACH_REVERSE`. -/
def foreach (side : Side) (fuel : ℕ) (body : World α → ℕ → Option (World α)) (w : World α) :
    Option (List ℕ × World α) := do
  let x ← start side fuel w
  foreachLoop side fuel body fuel w x

/-- `RB_FOREACH_SAFE` and `RB_FOREACH_REVERSE_SAFE`. -/
def foreachSafe (side : Side) (fuel : ℕ) (body : World α → ℕ → Option (World α)) (w : World α) :
    Option (List ℕ × World α) := do
  let x ← start side fuel w
  foreachSafeLoop side fuel body fuel w x

/-! ## Removing during an iteration -/

section Foreach
variable {K : Type} [LinearOrder K] {key : ℕ → K} {w : World α} {fuel turns : ℕ}
  {t : ColorTree ℕ} {s : Side}

/-- The body that removes the elements `p` picks. -/
def removeIf (fuel : ℕ) (p : ℕ → Bool) (w : World α) (x : ℕ) : Option (World α) :=
  if p x then (remove fuel w x).map Prod.snd else some w

theorem toward_filter {t' : ColorTree ℕ} {q : ℕ → Bool} (h : t'.toList = t.toList.filter q) :
    toward s t' = (toward s t).filter q := by
  cases s with
  | left => rw [toward, toward, h, List.filter_reverse]
  | right => exact h

/-- One turn: the element goes if it is picked. -/
theorem removeIf_spec (p : ℕ → Bool) {x : ℕ} (hfuel : t.depth < fuel) (T : IsTree key w t)
    (hx : x ∈ t.toList) :
    ∃ w' t', removeIf fuel p w x = some w' ∧ IsTree key w' t' ∧
      t'.toList = t.toList.filter fun b => !(p b && b == x) := by
  rw [removeIf]
  by_cases hp : p x = true
  · obtain ⟨w', t', hrun, T', hlist⟩ := remove_spec hfuel T hx
    refine ⟨w', t', by rw [if_pos hp, hrun]; rfl, T', ?_⟩
    rw [hlist, T.holds.nodup.erase_eq_filter]
    refine List.filter_congr fun b _ => ?_
    by_cases hb : b = x
    · simp [hb, hp]
    · have hne : (b == x) = false := beq_eq_false_iff_ne.mpr hb
      simp [hne, bne]
  · refine ⟨w, t, if_neg hp, T, (List.filter_eq_self.mpr fun b _ => ?_).symm⟩
    by_cases hb : b = x
    · simp [hb, hp]
    · simp [hb]

/-- The rest of an iteration whose body removes picked elements. -/
theorem foreachSafeLoop_spec (p : ℕ → Bool) (kept : List ℕ) {rest : List ℕ}
    (hturns : rest.length ≤ turns) (hfuel : t.toList.length < fuel) (T : IsTree key w t)
    (hsplit : toward s t = kept ++ rest) :
    ∃ w' t', foreachSafeLoop s fuel (removeIf fuel p) turns w rest.head? = some (rest, w') ∧
      IsTree key w' t' ∧ toward s t' = kept ++ rest.filter fun x => !p x := by
  induction rest generalizing turns kept w t with
  | nil => exact ⟨w, t, by cases turns <;> rfl, T, by simpa using hsplit⟩
  | cons x rest ih =>
      obtain ⟨turns, rfl⟩ : ∃ k, turns = k + 1 := ⟨turns - 1, by
        rw [List.length_cons] at hturns
        omega⟩
      have hx : x ∈ t.toList := by
        rw [← mem_toward (s := s), hsplit]
        simp
      have hnodup : (kept ++ x :: rest).Nodup := by
        rw [← hsplit]
        cases s with
        | left => exact List.nodup_reverse.mpr T.holds.nodup
        | right => exact T.holds.nodup
      have hnext := T.holds.neighborRaw_eq hfuel hsplit
      have hdepth := depth_le_length t
      obtain ⟨w₁, t₁, hbody, T₁, hlist⟩ := removeIf_spec p (by omega : t.depth < fuel) T hx
      have hlen : t₁.toList.length ≤ t.toList.length := by
        rw [hlist]
        exact List.length_filter_le ..
      -- among the others the body keeps all
      have hothers : ∀ l : List ℕ, x ∉ l → l.filter (fun b => !(p b && b == x)) = l := by
        intro l hl
        rw [List.filter_eq_self]
        intro b hb
        simp [ne_of_mem_of_not_mem hb hl]
      rw [List.nodup_append, List.nodup_cons] at hnodup
      obtain ⟨-, ⟨hrest, -⟩, hdisj⟩ := hnodup
      have hkept : x ∉ kept := fun h => hdisj x h x (List.mem_cons_self ..) rfl
      have hsplit₁ : toward s t₁ = (kept ++ if p x then [] else [x]) ++ rest := by
        rw [toward_filter hlist, hsplit, List.filter_append, List.filter_cons, hothers kept hkept,
          hothers rest hrest]
        cases p x <;> simp
      obtain ⟨w', t', hrun, T', hlist'⟩ :=
        ih _ (Nat.le_of_succ_le_succ hturns) (by omega) T₁ hsplit₁
      refine ⟨w', t', ?_, T', ?_⟩
      · rw [List.head?_cons, foreachSafeLoop, hnext]
        simp only [Option.bind_eq_bind, Option.bind_some, hbody, hrun]
      · rw [hlist', List.filter_cons]
        cases p x <;> simp

theorem toList_of_toward {t' : ColorTree ℕ} {q : ℕ → Bool}
    (h : toward s t' = (toward s t).filter q) : t'.toList = t.toList.filter q := by
  cases s with
  | left =>
      have hrev := congrArg List.reverse h
      simpa [toward, List.filter_reverse] using hrev
  | right => exact h

/-- The same by the elements of the tree: of those that are left to visit, the picked ones go. -/
theorem foreachSafeLoop_filter (p : ℕ → Bool) {kept rest : List ℕ}
    (hfuel : t.toList.length < fuel) (T : IsTree key w t) (hsplit : toward s t = kept ++ rest) :
    ∃ w' t', foreachSafeLoop s fuel (removeIf fuel p) fuel w rest.head? = some (rest, w') ∧
      IsTree key w' t' ∧ t'.toList = t.toList.filter fun b => !(decide (b ∈ rest) && p b) := by
  have hlen : (toward s t).length = t.toList.length := by
    cases s <;> simp only [toward, List.length_reverse]
  have hnodup : (toward s t).Nodup := by
    cases s with
    | left => exact List.nodup_reverse.mpr T.holds.nodup
    | right => exact T.holds.nodup
  rw [hsplit] at hlen hnodup
  rw [List.length_append] at hlen
  obtain ⟨w', t', hrun, T', hlist⟩ :=
    foreachSafeLoop_spec p kept (by omega : rest.length ≤ fuel) hfuel T hsplit
  refine ⟨w', t', hrun, T', toList_of_toward (s := s) ?_⟩
  have hkept : kept.filter (fun b => !(decide (b ∈ rest) && p b)) = kept := by
    rw [List.filter_eq_self]
    intro b hb
    have hnot : b ∉ rest := fun hr => (List.nodup_append.mp hnodup).2.2 b hb b hr rfl
    rw [decide_eq_false hnot, Bool.false_and, Bool.not_false]
  have hrest : rest.filter (fun b => !(decide (b ∈ rest) && p b)) = rest.filter fun b => !p b :=
    List.filter_congr fun b hb => by rw [decide_eq_true hb, Bool.true_and]
  rw [hlist, hsplit, List.filter_append, hkept, hrest]

/-- An iteration starts at the first element it is to visit. -/
theorem start_spec (hfuel : t.depth ≤ fuel) (T : IsTree key w t) :
    start s fuel w = some (toward s t).head? := by
  cases s with
  | left => rw [start, max_spec hfuel T, toward, List.head?_reverse]
  | right => rw [start, min_spec hfuel T, toward]

/-- All the elements of a tree are visited. -/
theorem filter_toward (p : ℕ → Bool) :
    (t.toList.filter fun b => !(decide (b ∈ toward s t) && p b)) =
      t.toList.filter fun b => !p b :=
  List.filter_congr fun b hb => by
    rw [decide_eq_true (mem_toward.mpr hb), Bool.true_and]

/-- **Removal during an iteration.**  `RB_FOREACH_SAFE` with a body that removes picked elements
visits every element once, in order, and leaves the red-black tree of the others. -/
theorem foreachSafe_spec (p : ℕ → Bool) (hfuel : t.toList.length < fuel) (T : IsTree key w t) :
    ∃ w' t', foreachSafe s fuel (removeIf fuel p) w = some (toward s t, w') ∧
      IsTree key w' t' ∧ t'.toList = t.toList.filter fun x => !p x := by
  have hdepth := depth_le_length t
  obtain ⟨w', t', hrun, T', hlist⟩ :=
    foreachSafeLoop_filter p hfuel T (List.nil_append (toward s t)).symm
  refine ⟨w', t', ?_, T', hlist.trans (filter_toward p)⟩
  rw [foreachSafe, start_spec (by omega : t.depth ≤ fuel) T]
  exact hrun

/-- An iteration with a body that changes nothing visits every element in order. -/
theorem foreachLoop_spec (kept : List ℕ) {rest : List ℕ} (hturns : rest.length ≤ turns)
    (hfuel : t.toList.length < fuel) (T : IsTree key w t) (hsplit : toward s t = kept ++ rest) :
    foreachLoop s fuel (fun w _ => some w) turns w rest.head? = some (rest, w) := by
  induction rest generalizing turns kept with
  | nil => cases turns <;> rfl
  | cons x rest ih =>
      obtain ⟨turns, rfl⟩ : ∃ k, turns = k + 1 := ⟨turns - 1, by
        rw [List.length_cons] at hturns
        omega⟩
      have hsplit₁ : toward s t = (kept ++ [x]) ++ rest := by simp [hsplit]
      have hrun := ih _ (Nat.le_of_succ_le_succ hturns) hsplit₁
      rw [List.head?_cons, foreachLoop]
      simp only [Option.bind_eq_bind, Option.bind_some, T.holds.neighborRaw_eq hfuel hsplit, hrun]

/-- **Iteration.** -/
theorem foreach_spec (hfuel : t.toList.length < fuel) (T : IsTree key w t) :
    foreach s fuel (fun w _ => some w) w = some (toward s t, w) := by
  have hdepth := depth_le_length t
  have hlen : (toward s t).length ≤ fuel := by
    cases s <;> simp only [toward, List.length_reverse] <;> omega
  rw [foreach, start_spec (by omega : t.depth ≤ fuel) T]
  exact foreachLoop_spec [] hlen hfuel T rfl

end Foreach

/-! ## Whole runs -/

/-- The calls on a tree, with the iterations: `foreach` has a body that changes nothing,
`foreachSafe`, and `foreachFrom` from an element on, one that removes the elements `p` picks. -/
inductive Call
  | init
  | insert (elm : ℕ)
  | remove (elm : ℕ)
  | find (elm : ℕ)
  | nfind (elm : ℕ)
  | next (elm : ℕ)
  | prev (elm : ℕ)
  | min
  | max
  | foreach (side : Side)
  | foreachSafe (side : Side) (p : ℕ → Bool)
  | foreachFrom (side : Side) (p : ℕ → Bool) (elm : ℕ)

/-- What a call gives: a pointer to an element, or the elements that an iteration visits. -/
inductive Answer
  | void
  | elm (p : Option ℕ)
  | visited (l : List ℕ)
  deriving DecidableEq

/-- One call. -/
def perform (cmp : ℕ → ℕ → ℤ) (fuel : ℕ) (w : World α) : Call → Option (Answer × World α)
  | .init => some (.void, init w)
  | .insert elm => (insert cmp fuel w elm).map fun r => (.elm r.1, r.2)
  | .remove elm => (remove fuel w elm).map fun r => (.elm r.1, r.2)
  | .find elm => (find cmp fuel w elm).map fun p => (.elm p, w)
  | .nfind elm => (nfind cmp fuel w elm).map fun p => (.elm p, w)
  | .next elm => (next fuel w elm).map fun p => (.elm p, w)
  | .prev elm => (prev fuel w elm).map fun p => (.elm p, w)
  | .min => (min fuel w).map fun p => (.elm p, w)
  | .max => (max fuel w).map fun p => (.elm p, w)
  | .foreach side => (foreach side fuel (fun w _ => some w) w).map fun r => (.visited r.1, r.2)
  | .foreachSafe side p =>
      (foreachSafe side fuel (removeIf fuel p) w).map fun r => (.visited r.1, r.2)
  | .foreachFrom side p elm =>
      (foreachSafeLoop side fuel (removeIf fuel p) fuel w (some elm)).map fun r =>
        (.visited r.1, r.2)

/-- An element is inserted when it is not in the tree; it is removed, asked for its neighbours,
and iterated from, when it is. -/
def Allowed (w : World α) : Call → Prop
  | .insert elm => (w.heap.get elm).isSome ∧ ∀ l, World.Walk w.heap w.guard.root l → elm ∉ l
  | .remove elm | .next elm | .prev elm | .foreachFrom _ _ elm =>
      ∃ l, World.Walk w.heap w.guard.root l ∧ elm ∈ l
  | .init | .find _ | .nfind _ | .min | .max | .foreach _ | .foreachSafe _ _ => True

/-- The calls that walk from one element to another. -/
def Call.Walks : Call → Prop
  | .next _ | .prev _ | .foreach _ | .foreachSafe _ _ | .foreachFrom _ _ _ => True
  | .init | .insert _ | .remove _ | .find _ | .nfind _ | .min | .max => False

/-- A list, read from the end that an iteration starts at. -/
def ordered (side : Side) (s : List ℕ) : List ℕ :=
  match side with
  | .right => s
  | .left => s.reverse

/-- An ordered set: the calls on its elements in ascending order of their keys. -/
def spec {K : Type} [LinearOrder K] (key : ℕ → K) (s : List ℕ) : Call → Answer × List ℕ
  | .init => (.void, [])
  | .insert elm =>
      match OrderedSet.lookup key (key elm) s with
      | some b => (.elm (some b), s)
      | none => (.elm none, OrderedSet.place key elm s)
  | .remove elm => (.elm (some elm), s.erase elm)
  | .find elm => (.elm (OrderedSet.lookup key (key elm) s), s)
  | .nfind elm => (.elm (s.find? fun b => key elm ≤ key b), s)
  | .next elm => (.elm (s.find? fun b => key elm < key b), s)
  | .prev elm => (.elm (s.reverse.find? fun b => key b < key elm), s)
  | .min => (.elm s.head?, s)
  | .max => (.elm s.getLast?, s)
  | .foreach side => (.visited (ordered side s), s)
  | .foreachSafe side p => (.visited (ordered side s), s.filter fun b => !p b)
  | .foreachFrom side p elm =>
      let l := (ordered side s).dropWhile (· != elm)
      (.visited l, s.filter fun b => !(decide (b ∈ l) && p b))

section Runs
variable {K : Type} [LinearOrder K] {cmp : ℕ → ℕ → ℤ} {key : ℕ → K} {w w₀ : World α}
  {fuel : ℕ} {t : ColorTree ℕ} {s : Side}

/-- The walk of a linked tree. -/
theorem walk_of_linked {h : Heap (KrbNode α)} {p : Option ℕ} (hl : Linked h p t) :
    World.Walk h t.root t.toList := by
  induction t generalizing p with
  | nil => exact .nil
  | node l a c r ihl ihr =>
      obtain ⟨⟨v, hget⟩, hl, hr⟩ := hl
      exact .node hget (ihl hl) (ihr hr)

theorem walk_unique {h : Heap (KrbNode α)} {p : Option ℕ} {xs ys : List ℕ}
    (hx : World.Walk h p xs) (hy : World.Walk h p ys) : xs = ys := by
  induction hx generalizing ys with
  | nil => cases hy; rfl
  | node hget _ _ ihl ihr =>
      cases hy with
      | node hget' hleft hright =>
          obtain rfl := Option.some.inj (hget.symm.trans hget')
          rw [ihl hleft, ihr hright]

/-- The elements in the tree are those its walk meets. -/
theorem IsTree.mem_iff (T : IsTree key w t) {elm : ℕ} :
    (∃ l, World.Walk w.heap w.guard.root l ∧ elm ∈ l) ↔ elm ∈ t.toList := by
  have hwalk := walk_of_linked T.holds.linked
  rw [← T.holds.root] at hwalk
  constructor
  · rintro ⟨l, hl, hmem⟩
    rwa [walk_unique hl hwalk] at hmem
  · exact fun hmem => ⟨_, hwalk, hmem⟩

/-- The initialised head holds the empty tree. -/
theorem isTree_init (key : ℕ → K) (w₀ : World α) : IsTree key (init w₀) nil :=
  ⟨⟨rfl, trivial, List.nodup_nil⟩, ⟨trivial, 0, rfl⟩, List.Pairwise.nil⟩

theorem toward_eq_ordered : toward s t = ordered s t.toList := by
  cases s <;> rfl

/-- An element splits a walk where it is met. -/
theorem exists_dropWhile {l : List ℕ} {elm : ℕ} (h : elm ∈ l) :
    ∃ kept rest, l = kept ++ rest ∧ rest = l.dropWhile (· != elm) ∧ rest.head? = some elm := by
  induction l with
  | nil => cases h
  | cons b l ih =>
      by_cases hb : b = elm
      · subst hb
        exact ⟨[], b :: l, rfl, by simp, rfl⟩
      · obtain ⟨kept, rest, hl, hrest, hhead⟩ := ih ((List.mem_cons.mp h).resolve_left (Ne.symm hb))
        refine ⟨b :: kept, rest, congrArg (b :: ·) hl, ?_, hhead⟩
        rw [List.dropWhile_cons_of_pos (by simpa using hb)]
        exact hrest

/-- **One call**, when the loops may take as many turns as the tree is deep; a walk from one
element to another may take more. -/
theorem perform_spec (hord : Orders cmp key) (T : IsTree key w t) {c : Call}
    (hfuel : t.depth < fuel) (hwalk : c.Walks → t.toList.length < fuel) (ha : Allowed w c) :
    ∃ w' t', perform cmp fuel w c = some ((spec key t.toList c).1, w') ∧ IsTree key w' t' ∧
      t'.toList = (spec key t.toList c).2 := by
  have hroot := T.holds.root
  have hat := holds_iff.mp T.holds
  have hle := Nat.le_of_lt hfuel
  cases c with
  | init => exact ⟨init w, nil, rfl, isTree_init key w, rfl⟩
  | insert elm =>
      have helm : elm ∉ t.toList := by
        rw [← T.mem_iff]
        rintro ⟨l, hl, hmem⟩
        exact ha.2 l hl hmem
      obtain ⟨b, hlookup, hrun⟩ | ⟨w', t', hlookup, hrun, T', hlist⟩ :=
        insert_spec hord hfuel T ha.1 helm
      · exact ⟨w, t, by rw [perform, hrun, spec, hlookup]; rfl, T, by rw [spec, hlookup]⟩
      · exact ⟨w', t', by rw [perform, hrun, spec, hlookup]; rfl, T', by
          rw [hlist, spec, hlookup]⟩
  | remove elm =>
      obtain ⟨w', t', hrun, T', hlist⟩ := remove_spec hfuel T (T.mem_iff.mp ha)
      exact ⟨w', t', by rw [perform, hrun]; rfl, T', hlist⟩
  | find elm =>
      refine ⟨w, t, ?_, T, rfl⟩
      rw [perform, find, hroot, findLoop_spec hord hle hat T.ascending]
      rfl
  | nfind elm =>
      refine ⟨w, t, ?_, T, rfl⟩
      rw [perform, nfind, hroot, nfindLoop_spec hord hle hat T.ascending, Option.or_none]
      rfl
  | next elm =>
      refine ⟨w, t, ?_, T, rfl⟩
      rw [perform, next_spec (hwalk trivial) T (T.mem_iff.mp ha)]
      rfl
  | prev elm =>
      refine ⟨w, t, ?_, T, rfl⟩
      rw [perform, prev_spec (hwalk trivial) T (T.mem_iff.mp ha)]
      rfl
  | min => exact ⟨w, t, by rw [perform, min_spec hle T]; rfl, T, rfl⟩
  | max => exact ⟨w, t, by rw [perform, max_spec hle T]; rfl, T, rfl⟩
  | foreach side =>
      refine ⟨w, t, ?_, T, rfl⟩
      rw [perform, foreach_spec (hwalk trivial) T, toward_eq_ordered]
      rfl
  | foreachSafe side p =>
      obtain ⟨w', t', hrun, T', hlist⟩ :=
        foreachSafeLoop_filter p (hwalk trivial) T (List.nil_append (toward side t)).symm
      refine ⟨w', t', ?_, T', hlist.trans (filter_toward p)⟩
      rw [perform, foreachSafe, start_spec hle T, Option.bind_eq_bind, Option.bind_some, hrun,
        toward_eq_ordered]
      rfl
  | foreachFrom side p elm =>
      obtain ⟨kept, rest, hsplit, hrest, hhead⟩ :=
        exists_dropWhile (mem_toward (s := side) |>.mpr (T.mem_iff.mp ha))
      obtain ⟨w', t', hrun, T', hlist⟩ := foreachSafeLoop_filter p (hwalk trivial) T hsplit
      rw [toward_eq_ordered] at hrest
      refine ⟨w', t', ?_, T', ?_⟩
      · rw [perform, ← hhead, hrun, spec, ← hrest]
        rfl
      · rw [hlist, spec, ← hrest]

/-- A call adds one element at most. -/
theorem length_spec_le (key : ℕ → K) (s : List ℕ) (c : Call) :
    (spec key s c).2.length ≤ s.length + 1 := by
  cases c with
  | init => exact Nat.zero_le _
  | insert elm =>
      rw [spec]
      split
      · exact Nat.le_succ _
      · exact OrderedSet.place_perm.length_eq.le
  | remove elm => exact (List.length_erase_le ..).trans (Nat.le_succ _)
  | find _ | nfind _ | next _ | prev _ | min | max | foreach _ => exact Nat.le_succ _
  | foreachSafe _ _ | foreachFrom _ _ _ =>
      exact (List.length_filter_le ..).trans (Nat.le_succ _)

/-- The tree after a run, with its size. -/
theorem run_tree (hord : Orders cmp key) {tr : List (Step (World α) Call Answer)}
    (h : Run (perform cmp fuel) Allowed (init w₀) tr w) (hfuel : tr.length < fuel) :
    ∃ t, IsTree key w t ∧ t.toList.length ≤ tr.length ∧
      specRun (spec key) [] (tr.map Step.call) = (tr.map Step.result, t.toList) := by
  refine h.induct (P := fun tr w => tr.length < fuel → ∃ t, IsTree key w t ∧
    t.toList.length ≤ tr.length ∧
      specRun (spec key) [] (tr.map Step.call) = (tr.map Step.result, t.toList)) ?_ ?_ hfuel
  · exact fun _ => ⟨nil, isTree_init key w₀, Nat.le_refl 0, rfl⟩
  · intro tr w c r w' _ ih ha hs hlt
    rw [List.length_append, List.length_singleton] at hlt
    obtain ⟨t, T, hlen, hspec⟩ := ih (by omega)
    have hdepth := depth_le_length t
    obtain ⟨w'', t', hrun, T', hlist⟩ :=
      perform_spec hord T (by omega : t.depth < fuel) (fun _ => by omega) ha
    obtain ⟨hr, rfl⟩ := Prod.mk.inj (Option.some.inj (hs.symm.trans hrun))
    have hstep := length_spec_le key t.toList c
    refine ⟨t', T', ?_, ?_⟩
    · rw [hlist, List.length_append, List.length_singleton]
      omega
    · simp [specRun_append, hspec, specRun, hlist, hr]

/-- **The macros are an ordered set.**  After every run from the initialised head the elements
stand in a red-black tree in search order, all results were those of the ordered set, and the
next call returns. -/
theorem run_isOrderedSet (hord : Orders cmp key) {tr : List (Step (World α) Call Answer)}
    (h : Run (perform cmp fuel) Allowed (init w₀) tr w) (hfuel : tr.length < fuel) :
    ∃ t, IsTree key w t ∧
      specRun (spec key) [] (tr.map Step.call) = (tr.map Step.result, t.toList) ∧
      ∀ c, Allowed w c → (perform cmp fuel w c).isSome := by
  obtain ⟨t, T, hlen, hspec⟩ := run_tree hord h hfuel
  refine ⟨t, T, hspec, fun c ha => ?_⟩
  have hdepth := depth_le_length t
  obtain ⟨w', t', hrun, -⟩ :=
    perform_spec hord T (by omega : t.depth < fuel) (fun _ => by omega) ha
  rw [hrun]
  rfl

/-- **Updates and lookups take logarithmic time.**  In a tree of `n` elements after a run none
of their loops takes more than `2 * log2 (n + 1) + 1` turns. -/
theorem run_logarithmic (hord : Orders cmp key) {tr : List (Step (World α) Call Answer)}
    (h : Run (perform cmp fuel) Allowed (init w₀) tr w) (hfuel : tr.length < fuel) :
    ∃ t, IsTree key w t ∧ ∀ c, Allowed w c → ¬ c.Walks →
      ∃ w', perform cmp (2 * Nat.log2 (t.toList.length + 1) + 1) w c =
        some ((spec key t.toList c).1, w') := by
  obtain ⟨t, T, -, -⟩ := run_tree hord h hfuel
  refine ⟨t, T, fun c ha hc => ?_⟩
  have hdepth : t.depth < 2 * Nat.log2 (t.toList.length + 1) + 1 :=
    Nat.lt_succ_of_le T.redBlack.depth_le
  obtain ⟨w', t', hrun, -⟩ := perform_spec hord T hdepth (fun hwalks => absurd hwalks hc) ha
  exact ⟨w', hrun⟩

end Runs

/-- Elements with numbers for keys. -/
def numbered : World ℕ :=
  { Krb.World.emptyTree with heap := ⟨fun a => some (Krb.World.nodeOf none none none .black a)⟩ }

/-- The comparison of their keys. -/
def compareNumbers (a b : ℕ) : ℤ := a - b

theorem orders_compareNumbers : Orders compareNumbers id where
  lt a b := by
    rw [compareNumbers, id, id]
    omega
  gt a b := by
    rw [compareNumbers, id, id]
    omega

/-- What a run answers that removes the root from above a red child and then iterates. -/
def answersNumbered : List Answer :=
  [.elm none, .elm none, .elm (some 5), .visited [3], .elm none, .void]

theorem run_numbered : ∃ (tr : List (Step (World ℕ) Call Answer)) (w : World ℕ),
    Run (perform compareNumbers 7) Allowed (init numbered) tr w ∧
      tr.map Step.result = answersNumbered := by
  refine ⟨_, _, run_of_runList [.insert 5, .insert 3, .remove 5,
    .foreachSafe .right (· == 3), .min, .init] rfl ?_, rfl⟩
  simp only [List.forall_mem_cons]
  refine ⟨⟨rfl, fun l hl => ?_⟩, ⟨rfl, fun l hl => ?_⟩, ?_, trivial, trivial, trivial, by simp⟩
  · cases hl
    simp
  · rw [walk_unique hl (.node rfl .nil .nil)]
    simp
  · exact ⟨_, .node rfl (.node rfl .nil .nil) .nil, by simp⟩

theorem run_isOrderedSet_numbered :
    ∃ (tr : List (Step (World ℕ) Call Answer)) (w : World ℕ),
      tr.map Step.result = answersNumbered ∧ ∃ t, IsTree id w t ∧
        specRun (spec id) [] (tr.map Step.call) = (tr.map Step.result, t.toList) ∧
        ∀ c, Allowed w c → (perform compareNumbers 7 w c).isSome := by
  obtain ⟨tr, w, hrun, hresults⟩ := run_numbered
  have hlen : tr.length = 6 := by rw [← List.length_map, hresults]; rfl
  exact ⟨tr, w, hresults, run_isOrderedSet orders_compareNumbers hrun (by omega)⟩

theorem run_logarithmic_numbered :
    ∃ (tr : List (Step (World ℕ) Call Answer)) (w : World ℕ),
      tr.map Step.result = answersNumbered ∧ ∃ t, IsTree id w t ∧
        ∀ c, Allowed w c → ¬ c.Walks →
          ∃ w', perform compareNumbers (2 * Nat.log2 (t.toList.length + 1) + 1) w c =
            some ((spec id t.toList c).1, w') := by
  obtain ⟨tr, w, hrun, hresults⟩ := run_numbered
  have hlen : tr.length = 6 := by rw [← List.length_map, hresults]; rfl
  exact ⟨tr, w, hresults, run_logarithmic orders_compareNumbers hrun (by omega)⟩

/-- A root above a left child, by keys that fall with the address. -/
theorem isTree_oneChild :
    IsTree (fun a => 3 - a) Krb.World.oneChild (node (node nil 2 .red nil) 1 .black nil) :=
  ⟨Krb.World.wellFormed_oneChild.holds, Krb.World.wellFormed_oneChild.redBlack, by
    simp [OrderedSet.Ascending, toList]⟩

theorem foreachSafe_oneChild :
    ∃ w' t', foreachSafe .right 3 (removeIf 3 (· == 1)) Krb.World.oneChild = some ([2, 1], w') ∧
      IsTree (fun a => 3 - a) w' t' ∧ t'.toList = [2] :=
  foreachSafe_spec (s := .right) (· == 1) (by decide) isTree_oneChild

end RbHpi

end Kylin
