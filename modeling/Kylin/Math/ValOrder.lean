import Kylin.Math.IndexMap
import Kylin.Math.RbRemove
import Kylin.Math.SetOrder

/-!
# Comparison of integers

`kmath_val_cmp` and `kmath_val_cmp_raw` (`lib/core/math/kylin_math.h`) answer `1` or `-1` for the
integer types, and so they never say that two values are equal; the second also reads 64 bits
through the pointer it is given, of whatever type the integer there is.

Every search of a map, an index or a tree ends at a value that compares equal.  With an integer type
none does.

## Main definitions

* `intAt` — the integer of a type at an address.
* `ComparesAt` — both comparisons are that of the integers.
* `Kmap.World.Misses`, `Kindex.World.Misses`, `Krb.World.Misses` — a key is not found, replaced or
  removed.

## Main results

* `comparesAt_iff` — the integers that are compared as they should be.
* `Kmap.World.misses`, `Kindex.World.misses`, `Krb.World.misses` — the keys of integer types.
-/

namespace Kylin

open Lib KsetArray

variable {α : Type}

/-- The integer of a type that starts at an address. -/
def intAt (type : Kobj) (w : BitVec 64) : ℤ :=
  match type with
  | .int8 => (w.setWidth 8).toInt
  | .int16 => (w.setWidth 16).toInt
  | .int32 => (w.setWidth 32).toInt
  | .int64 => w.toInt
  | .uint8 => (w.setWidth 8).toNat
  | .uint16 => (w.setWidth 16).toNat
  | .uint32 => (w.setWidth 32).toNat
  | _ => w.toNat

/-- **Both comparisons are that of the integers** that `x` and `y` start with. -/
def ComparesAt (type : Kobj) (ctor : Bool) (cmp : Cell α → Cell α → ℤ) (x y : BitVec 64) : Prop :=
  ∃ v1 v2 r s, kmathValCtor (.user (.int x)) type ctor = some v1 ∧
    kmathValCtor (.user (.int y)) type ctor = some v2 ∧
    kmathValCmp v1 v2 type cmp = some r ∧ r.sign = (intAt type x - intAt type y).sign ∧
    kmathValCmpRaw v1 (.user (.int y)) type cmp = some s ∧
      s.sign = (intAt type x - intAt type y).sign

section Compare
variable {type : Kobj} {ctor : Bool} {cmp : Cell α → Cell α → ℤ} {x y : BitVec 64}

/-- What is stored has the value of the integer. -/
theorem wordValue_storedWord (h : type.IsInt) (w : BitVec 64) :
    wordValue type (storedWord type w) = intAt type w := by
  cases type <;> simp [Kobj.IsInt] at h <;>
    simp [wordValue, storedWord, intAt, Kobj.code, BitVec.toInt_signExtend_of_le] <;> omega

theorem kmathValCmp_of_isInt (h : type.IsInt) (a b : BitVec 64) :
    kmathValCmp (.word a) (.word b) type cmp =
      some (if wordValue type b < wordValue type a then 1 else -1) := by
  cases type <;> simp [Kobj.IsInt] at h <;> simp [kmathValCmp, wordValue, Kobj.code, KmathVal.bits]

theorem kmathValCmpRaw_of_isInt (h : type.IsInt) (a b : BitVec 64) :
    kmathValCmpRaw (.word a) (.user (.int b)) type cmp =
      some (if wordValue type b < wordValue type a then 1 else -1) := by
  cases type <;> simp [Kobj.IsInt] at h <;>
    simp [kmathValCmpRaw, wordValue, Kobj.code, KmathVal.bits, KPtr.load]

/-- An answer that is never zero is right about integers that differ. -/
theorem sign_ite_iff (p : Prop) [Decidable p] (m n : ℤ) :
    (if p then (1 : ℤ) else -1).sign = (m - n).sign ↔ m ≠ n ∧ (p ↔ n < m) := by
  rcases lt_trichotomy m n with h | rfl | h
  · rw [Int.sign_eq_neg_one_of_neg (by omega : m - n < 0)]
    by_cases hp : p <;> simp [hp, h.ne, h.not_gt]
  · by_cases hp : p <;> simp [hp]
  · rw [Int.sign_eq_one_of_pos (by omega : 0 < m - n)]
    by_cases hp : p <;> simp [hp, h.ne', h]

/-- **Which integers are compared as they should be**: those that differ, if the 64 bits at the
second are on the same side of the first. -/
theorem comparesAt_iff (h : type.IsInt) : ComparesAt type ctor cmp x y ↔
    intAt type x ≠ intAt type y ∧
      (wordValue type y < intAt type x ↔ intAt type y < intAt type x) := by
  have hx : kmathValCtor (.user (.int x) : KPtr α) type ctor = some (.word (storedWord type x)) :=
    kmathValCtor_of_isInt h rfl ctor
  have hy : kmathValCtor (.user (.int y) : KPtr α) type ctor = some (.word (storedWord type y)) :=
    kmathValCtor_of_isInt h rfl ctor
  constructor
  · rintro ⟨v1, v2, r, s, hv1, hv2, hr, hsign, hs, hraw⟩
    obtain rfl := Option.some.inj (hx.symm.trans hv1)
    obtain rfl := Option.some.inj (hy.symm.trans hv2)
    rw [kmathValCmpRaw_of_isInt h] at hs
    obtain rfl := Option.some.inj hs
    rwa [wordValue_storedWord h, sign_ite_iff] at hraw
  · rintro ⟨hne, hside⟩
    refine ⟨_, _, _, _, hx, hy, kmathValCmp_of_isInt h _ _, ?_, kmathValCmpRaw_of_isInt h _ _, ?_⟩
    · rw [sign_ite_iff, wordValue_storedWord h, wordValue_storedWord h]
      exact ⟨hne, Iff.rfl⟩
    · rw [sign_ite_iff, wordValue_storedWord h]
      exact ⟨hne, hside⟩

/-- Two integers never compare equal. -/
theorem kmathValCmpRaw_ne_zero (h : type.IsInt) (v : KmathVal α) (p : KPtr α) :
    kmathValCmpRaw v p type cmp ≠ some 0 := by
  have hlt : type.code < Kobj.normal.code := by
    cases type <;> simp [Kobj.IsInt] at h <;> decide
  intro hzero
  simp only [kmathValCmpRaw, if_pos hlt, Option.bind_eq_bind] at hzero
  split at hzero
  · exact compare_words_ne_zero hzero
  · split at hzero
    · exact compare_words_ne_zero hzero
    · cases hzero

end Compare

/-! ## Indexes -/

namespace Kindex.World
variable {w : World α} {val : KPtr α}

/-- **The value is not found**, and neither replaced nor removed. -/
structure Misses (w : World α) (val : KPtr α) : Prop where
  find : ∀ r, w.find val = some r → r = none
  replace : ∀ r w', w.replace val = some (r, w') → r = none
  remove : ∀ r w', w.remove val = some (r, w') → r = .nodata

theorem searchBoth_of_isInt {opts : KindexOpts α} (h : opts.valType.IsInt) (stop : Bool) (hash : ℕ)
    (val : KPtr α) : Ensures (w.searchBoth stop hash (cmpRaw opts val)) (· = none) := by
  have hseek : ∀ chain, Ensures (seek (cmpRaw opts val) chain) (· = none) :=
    fun chain r hr => seek_eq_none hr fun x _ => kmathValCmpRaw_ne_zero h _ _
  refine .ite (.some rfl) (.bind .any fun chain _ => .bind (hseek chain) fun r hr => ?_)
  subst hr
  refine .ite (.some rfl) (.bind .any fun chain _ => .bind (hseek chain) fun r hr => ?_)
  subst hr
  exact .some rfl

theorem unlinkBy_of_isInt (h : w.guard.opts.valType.IsInt) (val : KPtr α) :
    Ensures (w.unlinkBy (hashOf w.guard.opts val) (cmpRaw w.guard.opts val)) fun a =>
      a.1 = none := by
  refine .bind .any fun w₁ _ => .bind .any fun hash _ =>
    .bind (searchBoth_of_isInt h _ _ _) fun r hr => ?_
  subst hr
  exact .some rfl

/-- **An index with an integer type finds no value.** -/
theorem misses (h : w.guard.opts.valType.IsInt) : w.Misses val where
  find := by
    refine Ensures.bind .any fun hash _ => .bind (searchBoth_of_isInt h _ _ _) fun r hr => ?_
    subst hr
    exact .some rfl
  replace r w' := by
    have hreplace : Ensures (w.replace val) fun a => a.1 = none := by
      refine .bind (settle_opts w) fun w₁ hopts => .bind .any fun hash _ =>
        .bind (searchBoth_of_isInt (hopts ▸ h) _ _ _) fun r hr => ?_
      subst hr
      exact .some rfl
    exact hreplace (r, w')
  remove r w' := by
    have hnull : Ensures (w.unlink val) fun a => a.1 = .null := by
      refine .bind (unlinkBy_of_isInt h val) fun a ha => ?_
      obtain ⟨node, w₁⟩ := a
      subst ha
      exact .some rfl
    have hremove : Ensures (w.remove val) fun a => a.1 = .nodata := by
      refine .bind hnull fun a ha => ?_
      obtain ⟨node, w₁⟩ := a
      subst ha
      exact .some rfl
    exact hremove (r, w')

end Kindex.World

/-! ## Maps -/

namespace Kmap.World
variable {K V : Type} {w : World K V} {key : KPtr K}

/-- **The key is not found**, and neither replaced nor removed. -/
structure Misses (w : World K V) (key : KPtr K) : Prop where
  find : ∀ r, w.find key = some r → r = none
  replace : ∀ val valType size r w', w.replace key val valType size = some (r, w') → r = none
  remove : ∀ r w', w.remove key = some (r, w') → r = .nodata

/-- The search of a map is that of its index. -/
theorem searchBoth_of_isInt (h : w.guard.opts.keyType.IsInt) (stop : Bool) (hash : ℕ)
    (key : KPtr K) : Ensures (w.searchBoth stop hash key) (· = none) := by
  have hint : (Kindex.ofOpts w.guard.opts).valType.IsInt := h
  have hnone := Kindex.World.searchBoth_of_isInt (w := .ofMap [] w) hint stop hash key
  rw [Kindex.World.searchBoth_ofMap] at hnone
  exact hnone.of_map.mono fun _ => Option.map_eq_none_iff.mp

theorem unlink_of_isInt (h : w.guard.opts.keyType.IsInt) (key : KPtr K) :
    Ensures (w.unlink key) fun a => a.1 = none := by
  have hnone := Kindex.World.unlinkBy_of_isInt (w := .ofMap [] w) h key
  rw [Kindex.World.ofMap_opts, Kindex.World.unlinkBy_ofMap] at hnone
  exact hnone.of_map.mono fun _ => Option.map_eq_none_iff.mp

/-- **A map with an integer type finds no key.** -/
theorem misses (h : w.guard.opts.keyType.IsInt) : w.Misses key where
  find := by
    refine Ensures.bind .any fun hash _ => .bind (searchBoth_of_isInt h _ _ _) fun r hr => ?_
    subst hr
    exact .some rfl
  replace val valType size r w' := by
    have hreplace : Ensures (w.replace key val valType size) fun a => a.1 = none := by
      refine .bind (Kindex.World.settle_ofOpts w) fun w₁ hopts => .bind .any fun hash _ =>
        .bind (searchBoth_of_isInt ?_ _ _ _) fun r hr => ?_
      · have htype : w₁.guard.opts.keyType = w.guard.opts.keyType :=
          congrArg KindexOpts.valType hopts
        rwa [htype]
      · subst hr
        exact .some rfl
    exact hreplace (r, w')
  remove r w' := by
    have hremove : Ensures (w.remove key) fun a => a.1 = .nodata := by
      refine .bind (unlink_of_isInt h key) fun a ha => ?_
      obtain ⟨node, w₁⟩ := a
      subst ha
      exact .some rfl
    exact hremove (r, w')

end Kmap.World

/-! ## Trees -/

namespace Krb.World
variable {w : World α} {cmp : KPtr α}

/-- **The value is not found**, and not removed. -/
structure Misses (w : World α) (cmp : KPtr α) : Prop where
  find : ∀ fuel r, w.find fuel cmp = some r → r = .null
  remove : ∀ fuel w', w.remove fuel cmp = some w' → w' = { w with kerrno := .noent }

theorem findLoop_of_isInt (h : w.guard.opts.valType.IsInt) (cmp : KPtr α) (fuel : ℕ)
    (p : Option ℕ) : Ensures (w.findLoop cmp fuel p) (· = none) := by
  induction fuel generalizing p with
  | zero =>
      cases p with
      | none => exact .some rfl
      | some tmp => exact .none
  | succ fuel ih =>
      cases p with
      | none => exact .some rfl
      | some tmp =>
          intro r hr
          obtain ⟨x, -, hr⟩ := Option.bind_eq_some_iff.mp hr
          obtain ⟨result, hcmp, hr⟩ := Option.bind_eq_some_iff.mp hr
          split at hr
          · exact ih _ r hr
          · split at hr
            · exact ih _ r hr
            · obtain rfl : result = 0 := by omega
              exact absurd hcmp (kmathValCmpRaw_ne_zero h _ _)

/-- **A tree with an integer type finds no value.** -/
theorem misses (h : w.guard.opts.valType.IsInt) : w.Misses cmp where
  find fuel := by
    refine Ensures.bind (findLoop_of_isInt h cmp fuel _) fun r hr => ?_
    subst hr
    exact .some rfl
  remove fuel := by
    refine Ensures.bind (findLoop_of_isInt h cmp fuel _) fun r hr => ?_
    subst hr
    exact .some rfl

end Krb.World

/-! ## Integer types -/

/-- **What becomes of the integers of a type**: those that are compared as they should be are few,
and as keys none of them is found, replaced or removed. -/
theorem integers_compare {K V : Type} {type : Kobj} (h : type.IsInt) :
    (∀ (ctor : Bool) (cmp : Cell α → Cell α → ℤ) (x y : BitVec 64), ComparesAt type ctor cmp x y ↔
      intAt type x ≠ intAt type y ∧
        (wordValue type y < intAt type x ↔ intAt type y < intAt type x)) ∧
    (∀ (w : Kmap.World K V) (key : KPtr K), w.guard.opts.keyType = type → w.Misses key) ∧
    (∀ (w : Kindex.World α) (val : KPtr α), w.guard.opts.valType = type → w.Misses val) ∧
    ∀ (w : Krb.World α) (cmp : KPtr α), w.guard.opts.valType = type → w.Misses cmp := by
  refine ⟨fun _ _ _ _ => comparesAt_iff h, ?_, ?_, ?_⟩
  · rintro w key rfl
    exact Kmap.World.misses h
  · rintro w val rfl
    exact Kindex.World.misses h
  · rintro w cmp rfl
    exact Krb.World.misses h

theorem integers_compare_int8 : ComparesAt .int8 false (fun (_ _ : Cell ℕ) => 0) 5 4 := by
  have hint := (integers_compare (α := ℕ) (K := ℕ) (V := ℕ) (by decide : Kobj.int8.IsInt)).1
  exact (hint false (fun _ _ => 0) 5 4).mpr (by decide)

/-- A map from `int32_t` to numbers. -/
def intOpts : KmapOpts ℕ where
  keyType := .int32
  keyCtor := false
  valCtor := false
  hash _ := 0
  keyCmp _ _ := 0

/-- The key `5` is put into the map and then looked up. -/
def insertFind : Option (Option (KmapNode ℕ ℕ) × Option (KmapNode ℕ ℕ)) := do
  let (node, w) ← (Kmap.World.create intOpts).insert (some 1) true (.user (.int 5))
    (.user (.obj 0)) .others 8
  let r ← w.find (.user (.int 5))
  some (node, r)

/-- `5` does not compare equal to `5`, and is not found in a map; and it compares below `4` if a one
is in the byte behind that. -/
theorem not_comparesAt : ¬ ComparesAt .int32 false (fun (_ _ : Cell ℕ) => 0) 5 5 ∧
    insertFind.map (Prod.map Option.isSome Option.isSome) = some (true, false) ∧
      ¬ ComparesAt .int8 false (fun (_ _ : Cell ℕ) => 0) 5 0x104 := by
  refine ⟨?_, by decide, ?_⟩
  · rw [comparesAt_iff (by decide)]
    decide
  · rw [comparesAt_iff (by decide)]
    decide

end Kylin
