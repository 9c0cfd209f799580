import Kylin.Lib.Run
import Kylin.Math.SetArray

/-!
# Iterating over a set

`KYLIN_SET_FOREACH` starts with `kylin_set_first` and goes on with `kylin_set_next`, which finds
the place of the current element by comparing it with those before.  It comes back to an earlier
element when two compare equal, and ends early when one does not compare equal to itself.
`kylin_set_first` returns the first slot, whether it is in use or not: for an empty set of
integers that is never `NULL`.

## Main definitions

* `Yields` — what the loop yields.
* `Iterates` — what the loop is for.
* `Iterable` — the sets for which it does that.

## Main results

* `yields_iff` — a loop, one call of `kylin_set_next` at a time.
* `iterates_iff_iterable` — the sets, of those that are reached, over which the loop iterates.
-/

namespace Kylin.KsetArray

open Lib

variable {α : Type}

/-- Insertions and removals, of arguments that are not `NULL`. -/
def Callable (_ : KsetArray α) : Action α → Prop
  | .insert v _ => v ≠ .null
  | .remove key => key ≠ .null
  | .removeByIndex _ => False

/-- The sets that are reached from a new one. -/
def Reached (opts : KsetOpts α) (set : KsetArray α) : Prop :=
  ∃ set₀ tr, create opts = some set₀ ∧ Run step Callable set₀ tr set

/-- The loop yields these elements from the current one on, and ends. -/
inductive Yields (set : KsetArray α) : KPtr α → List (KPtr α) → Prop
  | done : Yields set .null []
  | turn {p q ps} : p ≠ .null → set.next p = some q → Yields set q ps → Yields set p (p :: ps)

/-- What `kmath_val_get` makes of the elements. -/
def elements (set : KsetArray α) : List (KPtr α) :=
  set.slots.map fun x => kmathValGet x set.opts.valType

/-- **What the loop is for**: it ends and yields each element once, in their order. -/
def Iterates (set : KsetArray α) : Prop := ∃ p, set.first = some p ∧ Yields set p set.elements

/-- Whether the slots `j` and `i` compare equal. -/
def equals (set : KsetArray α) (j i : ℕ) : Option Bool := do
  let cmp ← set.opts.compare
  let a ← Kset.contents set.opts (set.val.get j)
  let b ← Kset.contents set.opts (set.val.get i)
  some (decide (cmp a b = 0))

/-- The set is empty, holds no integers, and has a first slot, which is `NULL`; or it has one
element, and no callback; or no element compares equal to one before it, and each but the last
to itself.  Slots are counted with an `int`. -/
def Iterable (set : KsetArray α) : Prop :=
  (set.used = 0 ∧ ¬ set.opts.valType.IsInt ∧ 0 < set.val.size ∧
    (set.val.get 0).ptr = .null) ∨
  (set.used = 1 ∧ set.opts.compare = none) ∨
  (0 < set.used ∧ (∀ j i, i < j → j < set.used → set.equals j i = some false) ∧
    (∀ j, j + 1 < set.used → set.equals j j = some true) ∧
    ∃ b, set.equals (set.used - 1) (set.used - 1) = some b ∧
      if b then set.used ≤ 2 ^ 31 else set.used < 2 ^ 31)

/-! ## Reached sets -/

section Reached
variable {opts : KsetOpts α} {set : KsetArray α}

/-- No element of the array is `NULL`, and for integers all slots hold integers. -/
structure Solid (set : KsetArray α) : Prop where
  used_le : set.used ≤ set.val.size
  ne_null : ∀ x ∈ set.slots, kmathValGet x set.opts.valType ≠ .null
  words : set.opts.valType.IsInt → ∀ i, ∃ w, set.val.get i = .word w

theorem kmathValGet_ne_null {v : KPtr α} (hv : v ≠ .null) {type : Kobj} {ctor : Bool}
    {x : KmathVal α} (hx : kmathValCtor v type ctor = some x) : kmathValGet x type ≠ .null := by
  cases type <;> cases ctor <;> simp [kmathValCtor] at hx <;>
    first
    | (subst hx; exact hv)
    | (rcases hx with ⟨w, -, rfl⟩; simp [kmathValGet])

theorem kmathValCtor_word {type : Kobj} (h : type.IsInt) {v : KPtr α} {ctor : Bool}
    {x : KmathVal α} (hx : kmathValCtor v type ctor = some x) : ∃ w, x = .word w := by
  cases type <;> simp [Kobj.IsInt] at h <;> simp [kmathValCtor] at hx <;>
    (rcases hx with ⟨w, -, rfl⟩; exact ⟨_, rfl⟩)

/-- The elements are the slots in use. -/
theorem mem_slots {x : KmathVal α} :
    x ∈ set.slots ↔ ∃ i, i < set.used ∧ set.val.get i = x := by
  rw [slots, mem_slice]
  simp only [Nat.zero_add]

theorem get_mem_slots (set : KsetArray α) {i : ℕ} (hi : i < set.used) :
    set.val.get i ∈ set.slots := mem_slots.mpr ⟨i, hi, rfl⟩

theorem Solid.step (H : Solid set) {a : Action α} (ha : Callable set a) {err : Kerr}
    {set' : KsetArray α} (h : step set a = some (err, set')) : Solid set' := by
  cases a with
  | insert v seen =>
      rcases insert_cases H.used_le h with ⟨-, -, rfl⟩ |
        ⟨-, -, ho, hused, -, hle, hrest, x, i, hx, hi, hslots⟩
      · exact H
      · have hmem : ∀ {y}, y ∈ set'.slots → y = x ∨ y ∈ set.slots := by
          intro y hy
          rwa [hslots, List.mem_insertIdx (by rwa [length_slots])] at hy
        refine ⟨hle, fun y hy => ?_, fun hint m => ?_⟩
        · rw [ho]
          rcases hmem hy with rfl | hy
          · exact kmathValGet_ne_null ha hx
          · exact H.ne_null y hy
        · rw [ho] at hint
          by_cases hm : m < set'.used
          · rcases hmem (get_mem_slots set' hm) with hy | hy
            · rw [hy]
              exact kmathValCtor_word hint hx
            · rcases mem_slots.mp hy with ⟨j, -, hj⟩
              rw [← hj]
              exact H.words hint j
          · rw [hrest m (by omega)]
            exact H.words hint m
  | remove key =>
      rcases remove_cases H.used_le h with ⟨-, rfl⟩ |
        ⟨-, ho, hsize, hused, hrest, i, -, hslots, hthis⟩
      · exact H
      · have hle := H.used_le
        have hmem : ∀ {y}, y ∈ set'.slots → y ∈ set.slots := by
          intro y hy
          rw [hslots] at hy
          exact List.mem_of_mem_eraseIdx hy
        refine ⟨by omega, fun y hy => ?_, fun hint m => ?_⟩
        · rw [ho]
          exact H.ne_null y (hmem hy)
        · rw [ho] at hint
          rcases Nat.lt_trichotomy m set'.used with hm | rfl | hm
          · rcases mem_slots.mp (hmem (get_mem_slots set' hm)) with ⟨j, -, hj⟩
            rw [← hj]
            exact H.words hint j
          · rw [hthis]
            exact H.words hint i
          · rw [hrest m (by omega)]
            exact H.words hint m
  | removeByIndex index => exact ha.elim

theorem solid_of_reached (h : Reached opts set) : Solid set := by
  rcases h with ⟨set₀, tr, hcreate, hrun⟩
  refine hrun.invariant (I := Solid) ?_ fun s a err s' H ha hs => H.step ha hs
  rw [create] at hcreate
  split at hcreate
  · cases hcreate
  · cases hcreate
    exact ⟨Nat.zero_le _, fun x hx => absurd hx List.not_mem_nil, fun _ _ => ⟨0, rfl⟩⟩

end Reached

/-! ## The loop -/

section Loop
variable {set : KsetArray α}

theorem Yields.headD {p : KPtr α} {ps : List (KPtr α)} (h : Yields set p ps) :
    p = ps.headD .null := by
  cases h <;> rfl

/-- The loop yields a list when each call of `kylin_set_next` leads from one of its elements to
the next, and behind the last to `NULL`. -/
theorem yields_iff {ps : List (KPtr α)} : Yields set (ps.headD .null) ps ↔
    ∀ j p, ps[j]? = some p → p ≠ .null ∧ set.next p = some (ps.getD (j + 1) .null) := by
  induction ps with
  | nil => exact iff_of_true .done fun j p hp => nomatch hp
  | cons q ps ih =>
      have hhead : (q :: ps).getD (0 + 1) .null = ps.headD .null := by
        cases ps <;> rfl
      constructor
      · intro h j p hp
        cases h with
        | turn hne hnext hrest =>
            obtain rfl := hrest.headD
            cases j with
            | zero =>
                cases hp
                refine ⟨hne, ?_⟩
                rw [hhead]
                exact hnext
            | succ j => exact ih.mp hrest j p hp
      · intro h
        rcases h 0 q rfl with ⟨hne, hnext⟩
        rw [hhead] at hnext
        exact .turn hne hnext (ih.mpr fun j p hp => h (j + 1) p hp)

/-- `kmath_val_get` of the slot `i`, -/
def element (set : KsetArray α) (i : ℕ) : KPtr α :=
  kmathValGet (set.val.get i) set.opts.valType

/-- and of the one after it, or `NULL` behind the last. -/
def following (set : KsetArray α) (i : ℕ) : KPtr α :=
  if i + 1 < set.used then set.element (i + 1) else .null

theorem get_of_lt {i : ℕ} (hi : i < set.val.size) : set.get i = some (set.element i) := by
  rw [get, Buffer.load_of_lt hi]
  rfl

theorem Solid.element_ne_null (H : Solid set) {i : ℕ} (hi : i < set.used) :
    set.element i ≠ .null := H.ne_null _ (get_mem_slots set hi)

theorem elements_eq (set : KsetArray α) :
    set.elements = (List.range set.used).map set.element := by
  rw [elements, slots, slice, List.map_map]
  apply List.map_congr_left
  intro i _
  rw [Function.comp_apply, Nat.zero_add]
  rfl

theorem getElem?_elements {j : ℕ} {p : KPtr α} :
    set.elements[j]? = some p ↔ j < set.used ∧ set.element j = p := by
  rw [elements_eq, List.getElem?_map, Option.map_eq_some_iff]
  constructor
  · rintro ⟨i, hi, rfl⟩
    rcases List.getElem?_eq_some_iff.mp hi with ⟨hlt, hget⟩
    rw [List.length_range] at hlt
    rw [List.getElem_range] at hget
    exact ⟨hlt, by rw [hget]⟩
  · rintro ⟨hlt, rfl⟩
    exact ⟨j, List.getElem?_range hlt, rfl⟩

theorem getD_elements (j : ℕ) : set.elements.getD (j + 1) .null = set.following j := by
  rw [List.getD_eq_getElem?_getD, following]
  by_cases hlt : j + 1 < set.used
  · rw [if_pos hlt, getElem?_elements.mpr ⟨hlt, rfl⟩, Option.getD_some]
  · rw [if_neg hlt, List.getElem?_eq_none, Option.getD_none]
    rw [elements, List.length_map, length_slots]
    exact Nat.not_lt.mp hlt

/-- A loop over a set with elements iterates when `kylin_set_next` leads from each to the
next. -/
theorem iterates_iff_next (H : Solid set) (hpos : 0 < set.used) :
    Iterates set ↔ ∀ j, j < set.used → set.next (set.element j) = some (set.following j) := by
  have hfirst : set.first = some (set.elements.headD .null) := by
    have hzero := getElem?_elements.mpr ⟨hpos, rfl⟩
    rw [first, get_of_lt (hpos.trans_le H.used_le), List.headD_eq_head?_getD,
      List.head?_eq_getElem?, hzero, Option.getD_some]
  have hyields : Iterates set ↔ Yields set (set.elements.headD .null) set.elements := by
    constructor
    · rintro ⟨p, -, h⟩
      rwa [h.headD] at h
    · exact fun h => ⟨_, hfirst, h⟩
  rw [hyields, yields_iff]
  constructor
  · intro h j hj
    rw [(h j _ (getElem?_elements.mpr ⟨hj, rfl⟩)).2, getD_elements]
  · intro h j p hp
    rcases getElem?_elements.mp hp with ⟨hj, rfl⟩
    exact ⟨H.element_ne_null hj, by rw [h j hj, getD_elements]⟩

/-- The calls lead through different elements, because they come to `NULL`. -/
theorem element_injective (H : Solid set)
    (h : ∀ j, j < set.used → set.next (set.element j) = some (set.following j)) {i j : ℕ}
    (hij : i < j) (hj : j < set.used) : set.element i ≠ set.element j := by
  obtain ⟨d, hd⟩ : ∃ d, j + d = set.used - 1 := ⟨set.used - 1 - j, by omega⟩
  induction d generalizing i j with
  | zero =>
      intro heq
      have hnext := h i (by omega)
      rw [heq, h j hj, following, if_neg (by omega), following, if_pos (by omega)] at hnext
      exact H.element_ne_null (by omega) (Option.some.inj hnext).symm
  | succ d ih =>
      intro heq
      have hnext := h i (by omega)
      rw [heq, h j hj, following, if_pos (by omega), following, if_pos (by omega)] at hnext
      exact ih (i := i + 1) (j := j + 1) (by omega) (by omega) (by omega)
        (Option.some.inj hnext).symm

/-- The search of `kylin_set_next` for the element `j`. -/
def seek (set : KsetArray α) (j : ℕ) : Option (Option ℕ) :=
  findLoop intLimit (set.isEqual (set.element j)) set.used 0

theorem next_eq (H : Solid set) {j : ℕ} {r : Option ℕ} (h : set.seek j = some r) :
    set.next (set.element j) = some (match r with
      | none => .null
      | some i => set.following i) := by
  rw [seek] at h
  rw [next, h, Option.bind_eq_bind, Option.bind_some]
  cases r with
  | none => rfl
  | some i =>
      dsimp only
      rw [following]
      have hle := H.used_le
      by_cases hlt : i < set.used - 1
      · rw [if_pos hlt, if_pos (by omega), get_of_lt (by omega)]
      · rw [if_neg hlt, if_neg (by omega)]

/-- Each element is found at its own place, and the last there or nowhere. -/
theorem next_iff_seek (H : Solid set) :
    (∀ j, j < set.used → set.next (set.element j) = some (set.following j)) ↔
      ∀ j, j < set.used → set.seek j = some (some j) ∨
        j + 1 = set.used ∧ set.seek j = some none := by
  constructor
  · intro h j hj
    have hnext := h j hj
    rcases hseek : set.seek j with - | r
    · rw [next, show findLoop intLimit _ _ _ = none from hseek] at hnext
      cases hnext
    · rw [next_eq H hseek] at hnext
      cases r with
      | none =>
          refine Or.inr ⟨?_, rfl⟩
          by_contra hne
          rw [following, if_pos (by omega)] at hnext
          exact H.element_ne_null (by omega) (Option.some.inj hnext).symm
      | some i =>
          have hi : i < set.used := by
            have hlt := ((findLoop_eq_some_iff (by decide)).mp hseek).2.1
            omega
          -- both are followed by the same
          have hfollow : set.following i = set.following j := Option.some.inj hnext
          refine Or.inl (congrArg (some ∘ some) ?_)
          rcases Nat.lt_trichotomy i j with hij | rfl | hij
          · rw [following, following, if_pos (by omega)] at hfollow
            split at hfollow
            · exact absurd hfollow (element_injective H h (by omega) (by omega))
            · exact absurd hfollow (H.element_ne_null (by omega))
          · rfl
          · rw [following, following, if_pos (c := j + 1 < set.used) (by omega)] at hfollow
            split at hfollow
            · exact absurd hfollow.symm (element_injective H h (by omega) (by omega))
            · exact absurd hfollow.symm (H.element_ne_null (by omega))
  · intro h j hj
    rcases h j hj with hseek | ⟨hlast, hseek⟩
    · rw [next_eq H hseek]
    · rw [next_eq H hseek, following, if_neg (by omega)]

theorem isEqual_of_none (hcmp : set.opts.compare = none) (p : KPtr α) (i : ℕ) :
    set.isEqual p i = some false := by
  rw [isEqual, hcmp]

theorem isEqual_element {cmp : Cell α → Cell α → ℤ} (hcmp : set.opts.compare = some cmp)
    {i : ℕ} (hi : i < set.val.size) (j : ℕ) :
    set.isEqual (set.element j) i = set.equals j i := by
  rw [isEqual, equals, hcmp, Buffer.load_of_lt hi]
  rfl

/-- Without a callback nothing is found. -/
theorem seek_of_none (hcmp : set.opts.compare = none) (j : ℕ) :
    (set.seek j = some none ↔ set.used < 2 ^ 31) ∧ ∀ k, set.seek j ≠ some (some k) := by
  constructor
  · rw [seek, findLoop_eq_none_iff (by decide), Nat.zero_add]
    exact and_iff_left fun i _ _ => isEqual_of_none hcmp _ i
  · intro k hk
    have htest := ((findLoop_eq_some_iff (by decide)).mp hk).2.2.2.1
    rw [isEqual_of_none hcmp] at htest
    cases htest

theorem seek_eq_self_iff (H : Solid set) {cmp : Cell α → Cell α → ℤ}
    (hcmp : set.opts.compare = some cmp) {j : ℕ} (hj : j < set.used) :
    set.seek j = some (some j) ↔
      j < 2 ^ 31 ∧ set.equals j j = some true ∧ ∀ i, i < j → set.equals j i = some false := by
  have hle := H.used_le
  rw [seek, findLoop_eq_some_iff (by decide), isEqual_element hcmp (by omega)]
  constructor
  · rintro ⟨-, -, hlim, htrue, hfalse⟩
    refine ⟨hlim, htrue, fun i hi => ?_⟩
    rw [← isEqual_element hcmp (by omega)]
    exact hfalse i (Nat.zero_le i) hi
  · rintro ⟨hlim, htrue, hfalse⟩
    refine ⟨Nat.zero_le j, by omega, hlim, htrue, fun i _ hi => ?_⟩
    rw [isEqual_element hcmp (by omega)]
    exact hfalse i hi

theorem seek_eq_none_iff (H : Solid set) {cmp : Cell α → Cell α → ℤ}
    (hcmp : set.opts.compare = some cmp) {j : ℕ} : set.seek j = some none ↔
      set.used < 2 ^ 31 ∧ ∀ i, i < set.used → set.equals j i = some false := by
  have hle := H.used_le
  rw [seek, findLoop_eq_none_iff (by decide), Nat.zero_add]
  refine and_congr_right fun _ => forall_congr' fun i => ?_
  rw [imp_iff_right (Nat.zero_le i)]
  refine imp_congr_right fun hi => ?_
  rw [isEqual_element hcmp (by omega)]

/-- The loop over an empty set. -/
theorem iterates_iff_of_empty (H : Solid set) (hzero : set.used = 0) :
    Iterates set ↔ ¬ set.opts.valType.IsInt ∧ 0 < set.val.size ∧ (set.val.get 0).ptr = .null := by
  have hnil : set.elements = [] := by
    rw [elements_eq, hzero]
    rfl
  have hfirst : Iterates set ↔ set.first = some .null := by
    rw [Iterates, hnil]
    constructor
    · rintro ⟨p, hp, h⟩
      rw [hp, h.headD]
      rfl
    · exact fun h => ⟨.null, h, .done⟩
  rw [hfirst, first]
  by_cases hsize : 0 < set.val.size
  · rw [get_of_lt hsize, Option.some.injEq, element, and_iff_right hsize]
    by_cases hint : set.opts.valType.IsInt
    · refine iff_of_false ?_ fun h => h.1 hint
      rcases H.words hint 0 with ⟨w, hw⟩
      rw [hw]
      cases htype : set.opts.valType <;> simp [htype, Kobj.IsInt] at hint <;>
        simp [kmathValGet]
    · rw [and_iff_right hint]
      cases htype : set.opts.valType <;> simp [htype, Kobj.IsInt] at hint <;>
        cases set.val.get 0 <;> exact Iff.rfl
  · refine iff_of_false ?_ fun h => hsize h.2.1
    rw [get, Buffer.load, if_neg hsize]
    simp

end Loop

/-- **The sets over which the loop iterates**, of those that are reached with any options, values
and calls. -/
theorem iterates_iff_iterable {opts : KsetOpts α} {set : KsetArray α} (h : Reached opts set) :
    Iterates set ↔ Iterable set := by
  have H := solid_of_reached h
  rcases Nat.eq_zero_or_pos set.used with hzero | hpos
  · rw [iterates_iff_of_empty H hzero, Iterable, and_iff_right hzero, or_iff_left]
    rintro (⟨hone, -⟩ | ⟨hpos, -⟩) <;> omega
  · rw [iterates_iff_next H hpos, next_iff_seek H, Iterable, or_iff_right (by omega)]
    cases hcmp : set.opts.compare with
    | none =>
        have hthird : ∀ j i, set.equals j i = none := by
          intro j i
          rw [equals, hcmp]
          rfl
        constructor
        · intro hall
          rcases hall 0 hpos with hseek | ⟨hone, -⟩
          · exact absurd hseek ((seek_of_none hcmp 0).2 0)
          · exact Or.inl ⟨hone.symm, rfl⟩
        · rintro (⟨hone, -⟩ | ⟨-, -, -, b, hb, -⟩)
          · intro j hj
            have hlim : set.used < 2 ^ 31 := by omega
            exact Or.inr ⟨by omega, (seek_of_none hcmp j).1.mpr hlim⟩
          · rw [hthird] at hb
            cases hb
    | some cmp =>
        rw [or_iff_right (fun h => nomatch h.2), and_iff_right hpos]
        constructor
        · intro hall
          refine ⟨fun j i hij hj => ?_, fun j hj => ?_, ?_⟩
          · rcases hall j hj with hseek | ⟨-, hseek⟩
            · exact ((seek_eq_self_iff H hcmp hj).mp hseek).2.2 i hij
            · exact ((seek_eq_none_iff H hcmp).mp hseek).2 i (by omega)
          · rcases hall j (by omega) with hseek | ⟨hlast, -⟩
            · exact ((seek_eq_self_iff H hcmp (by omega)).mp hseek).2.1
            · omega
          · have hlast : set.used - 1 < set.used := by omega
            rcases hall _ hlast with hseek | ⟨-, hseek⟩
            · rcases (seek_eq_self_iff H hcmp hlast).mp hseek with ⟨hlim, htrue, -⟩
              refine ⟨true, htrue, ?_⟩
              rw [if_pos rfl]
              omega
            · rcases (seek_eq_none_iff H hcmp).mp hseek with ⟨hlim, hfalse⟩
              exact ⟨false, hfalse _ hlast, hlim⟩
        · rintro ⟨hbefore, hself, b, hb, hlim⟩ j hj
          have hcount : set.used ≤ 2 ^ 31 := by
            split at hlim <;> omega
          rcases Nat.lt_or_ge (j + 1) set.used with hlt | hge
          · exact Or.inl ((seek_eq_self_iff H hcmp hj).mpr
              ⟨by omega, hself j hlt, fun i hi => hbefore j i hi hj⟩)
          · have hlast : j = set.used - 1 := by omega
            subst hlast
            cases b with
            | true =>
                exact Or.inl ((seek_eq_self_iff H hcmp hj).mpr
                  ⟨by omega, hb, fun i hi => hbefore _ i hi hj⟩)
            | false =>
                refine Or.inr ⟨by omega, (seek_eq_none_iff H hcmp).mpr ⟨hlim, fun i hi => ?_⟩⟩
                rcases Nat.lt_or_eq_of_le (Nat.le_sub_one_of_lt hi) with hbelow | rfl
                · exact hbefore _ i hbelow hj
                · exact hb

/-- Two integers, inserted in descending order. -/
theorem iterates_iff_iterable_two : ∃ set, Reached ints set ∧ set.used = 2 ∧ Iterates set := by
  have hrun : Run step Callable ⟨ints, 0, ⟨2, fun _ => .zero⟩⟩ _ _ :=
    run_of_runList [.insert (.user (.int 5)) none, .insert (.user (.int 3)) none] rfl (by
      intro e he
      rcases List.mem_pair.mp he with rfl | rfl
      · exact fun h => nomatch h
      · exact fun h => nomatch h)
  have hreach : Reached ints _ := ⟨_, _, rfl, hrun⟩
  refine ⟨_, hreach, rfl, (iterates_iff_iterable hreach).mpr ?_⟩
  refine Or.inr (Or.inr ⟨by decide, ?_, ?_, ?_⟩)
  · intro j i hij hj
    have hj' : j = 1 := by
      change j < 2 at hj
      omega
    have hi : i = 0 := by omega
    subst hj' hi
    rfl
  · intro j hj
    have hj' : j = 0 := by
      change j + 1 < 2 at hj
      omega
    subst hj'
    rfl
  · exact ⟨true, rfl, by decide⟩

/-- A new set of integers, of which the first slot is not `NULL`; and a set with an integer
twice. -/
theorem not_iterates : (∃ set, Reached ints set ∧ set.used = 0 ∧
      set.first = some (.copy (.int 0)) ∧ ¬ Iterates set) ∧
    ∃ set, Reached ints set ∧ set.used = 2 ∧
      set.next (.copy (.int 5)) = some (.copy (.int 5)) ∧ ¬ Iterates set := by
  constructor
  · refine ⟨_, ⟨_, [], rfl, .nil⟩, rfl, rfl, ?_⟩
    rintro ⟨p, hp, h⟩
    cases hp
    cases h
  · have hrun : Run step Callable ⟨ints, 0, ⟨2, fun _ => .zero⟩⟩ _ _ :=
      run_of_runList [.insert (.user (.int 5)) none, .insert (.user (.int 5)) none] rfl (by
        intro e he
        rcases List.mem_pair.mp he with rfl | rfl
        · exact fun h => nomatch h
        · exact fun h => nomatch h)
    have hfacts : ∃ set, Reached ints set ∧ set.used = 2 ∧
        set.next (.copy (.int 5)) = some (.copy (.int 5)) ∧
        set.elements = [.copy (.int 5), .copy (.int 5)] := ⟨_, ⟨_, _, rfl, hrun⟩, rfl, rfl, rfl⟩
    rcases hfacts with ⟨set, hreach, hused, hnext, hlist⟩
    refine ⟨set, hreach, hused, hnext, ?_⟩
    rintro ⟨p, hp, h⟩
    rw [h.headD, hlist] at h
    -- behind the second element `NULL` is expected, and the element itself comes again
    have hlast := (yields_iff.mp h 1 _ rfl).2
    rw [hnext] at hlast
    cases hlast

end Kylin.KsetArray
