import Kylin.Lib.OrderedSet
import Kylin.Lib.Run
import Kylin.Math.SetArray
import Mathlib.Data.Int.ConditionallyCompleteOrder
import Mathlib.Data.Multiset.Sort
import Mathlib.Order.ConditionallyCompleteLattice.Basic

/-!
# Ordered sets of integers

A set with `is_order` keeps its elements in ascending order: `kylin_set_insert` puts a new one
before the first that is greater, and removals leave the others in their order.  The set is
compared with a multiset of integers, from which equal elements are removed one at a time.

## Main definitions

* `Agrees` — the callback compares the integers that are stored.
* `spec` — the functions on a multiset.
* `Sorted` — what holds of an ordered set.

## Main results

* `step_spec` — one call.
* `keepsOrder` — the sets of every run are sorted.
-/

namespace Kylin.KsetArray

open Lib

variable {α : Type}

/-! ## Integers -/

/-- The word that is stored for the integer at the start of `w`. -/
def storedWord (type : Kobj) (w : BitVec 64) : BitVec 64 :=
  match type with
  | .int8 => (w.setWidth 8).signExtend 64
  | .int16 => (w.setWidth 16).signExtend 64
  | .int32 => (w.setWidth 32).signExtend 64
  | .uint8 => (w.setWidth 8).setWidth 64
  | .uint16 => (w.setWidth 16).setWidth 64
  | .uint32 => (w.setWidth 32).setWidth 64
  | _ => w

/-- A word that an insertion has stored. -/
def Stored (type : Kobj) (w : BitVec 64) : Prop := ∃ u, w = storedWord type u

/-- The integer that a stored word is. -/
def wordValue (type : Kobj) (w : BitVec 64) : ℤ :=
  if type.code < Kobj.signed.code then w.toInt else w.toNat

/-- The callback reads what a key points to as the integer `read`, which for a stored word is the
one it is, and compares it with the stored integers. -/
structure Agrees (type : Kobj) (cmp : Cell α → Cell α → ℤ) (read : BitVec 64 → ℤ) : Prop where
  stored : ∀ w, Stored type w → read w = wordValue type w
  sign : ∀ a w, Stored type w → (cmp (.int a) (.int w)).sign = (read a - wordValue type w).sign

/-! ## Runs -/

/-- The arguments point to integers. -/
def Pointing (_ : KsetArray α) : Action α → Prop
  | .insert v _ => ∃ w, v.load = some w
  | .remove key => ∃ w, key.load = some w
  | .removeByIndex _ => True

/-- The word that a pointer points to. -/
def argument (p : KPtr α) : BitVec 64 := p.load.getD 0

/-- What the call does to the integers in the set; an index is a place in their ascending
order. -/
def spec (opts : KsetOpts α) (read : BitVec 64 → ℤ) (m : Multiset ℤ) :
    Action α → Kerr × Multiset ℤ
  | .insert v _ =>
      if m.card = opts.cap then (.inval, m)
      else (.ok, wordValue opts.valType (storedWord opts.valType (argument v)) ::ₘ m)
  | .remove key =>
      if read (argument key) ∈ m then (.ok, m.erase (read (argument key))) else (.noent, m)
  | .removeByIndex index =>
      match (m.sort (· ≤ ·))[index.toNat]? with
      | none => (.inval, m)
      | some k => (.ok, m.erase k)

/-- **What holds of an ordered set** of the integers `m`. -/
structure Sorted (set : KsetArray α) (m : Multiset ℤ) : Prop where
  used_le : set.used ≤ set.opts.cap
  slots : ∃ ws : List (BitVec 64),
    set.slots.map (Kset.contents set.opts) = (ws.map Cell.int).map some ∧
    (ws.map (wordValue set.opts.valType)).Pairwise (· ≤ ·) ∧
    (ws.map (wordValue set.opts.valType) : Multiset ℤ) = m
  last : set.used ≠ 0 → ∃ p w, set.last = some p ∧ p.load = some w ∧
    wordValue set.opts.valType w ∈ m ∧ ∀ k ∈ m, k ≤ wordValue set.opts.valType w

/-- A refused insertion finds the set full, and leaves it as it is. -/
def Refuses (e : Step (KsetArray α) (Action α) Kerr) : Prop :=
  ∀ v seen, e.call = .insert v seen → (e.result ≠ .ok ↔ e.before.used = e.before.opts.cap) ∧
    (e.result ≠ .ok → e.after = e.before)

/-- The sets of every run are sorted; what is in them is what was inserted and not removed, and
the next call returns. -/
def KeepsOrder (opts : KsetOpts α) (read : BitVec 64 → ℤ) : Prop :=
  ∃ set₀, create opts = some set₀ ∧ ∀ tr set, Run step Pointing set₀ tr set →
    (∃ m, specRun (spec opts read) 0 (tr.map Step.call) = (tr.map Step.result, m) ∧
      Sorted set m) ∧
    (∀ e ∈ tr, Refuses e) ∧ ∀ a, Pointing set a → ∃ err set', step set a = some (err, set')

/-! ## One call -/

section Words
variable {type : Kobj} {opts : KsetOpts α} {cmp : Cell α → Cell α → ℤ} {read : BitVec 64 → ℤ}

theorem kmathValCtor_of_isInt (h : type.IsInt) {v : KPtr α} {w : BitVec 64}
    (hv : v.load = some w) (ctor : Bool) :
    kmathValCtor v type ctor = some (.word (storedWord type w)) := by
  cases type <;> simp [Kobj.IsInt] at h <;> simp [kmathValCtor, hv, storedWord]

theorem contents_word (h : opts.valType.IsInt) (w : BitVec 64) :
    Kset.contents opts (.word w) = some (.int w) := by
  cases htype : opts.valType <;> simp [htype, Kobj.IsInt] at h <;>
    simp [Kset.contents, kmathValGet, htype]

theorem deref_of_load {p : KPtr α} {w : BitVec 64} (h : p.load = some w) :
    p.deref = some (.int w) := by
  rw [KPtr.load] at h
  split at h
  · next heq =>
      cases h
      exact heq
  · cases h

theorem Agrees.lt_iff (H : Agrees type cmp read) {a w : BitVec 64} (hw : Stored type w) :
    cmp (.int a) (.int w) < 0 ↔ read a < wordValue type w := by
  rw [← Int.sign_eq_neg_one_iff_neg, H.sign a w hw, Int.sign_eq_neg_one_iff_neg, sub_neg]

theorem Agrees.eq_iff (H : Agrees type cmp read) {a w : BitVec 64} (hw : Stored type w) :
    cmp (.int a) (.int w) = 0 ↔ read a = wordValue type w := by
  rw [← Int.sign_eq_zero_iff_zero, H.sign a w hw, Int.sign_eq_zero_iff_zero, sub_eq_zero]

/-- A new word is placed before the first that is greater. -/
theorem place_words (H : Agrees opts.valType cmp read) (hint : opts.valType.IsInt)
    (hcmp : opts.compare = some cmp) {x : BitVec 64} (hx : Stored opts.valType x)
    {xs : List (KmathVal α)} {ws : List (BitVec 64)}
    (h : xs.map (Kset.contents opts) = (ws.map Cell.int).map some)
    (hws : ∀ w ∈ ws, Stored opts.valType w) :
    ∃ ys, Kset.place opts (.word x) xs = some ys ∧ ys.map (Kset.contents opts) =
      ((OrderedSet.place (wordValue opts.valType) x ws).map Cell.int).map some := by
  induction xs generalizing ws with
  | nil =>
      cases ws with
      | nil => exact ⟨[.word x], rfl, by simp [contents_word hint, OrderedSet.place]⟩
      | cons w ws => cases h
  | cons y xs ih =>
      cases ws with
      | nil => cases h
      | cons w ws =>
          rw [List.map_cons, List.map_cons, List.map_cons, List.cons.injEq] at h
          rcases ih h.2 (fun w hw => hws w (List.mem_cons_of_mem _ hw)) with ⟨ys, hys, hcs⟩
          have hlt := H.lt_iff (a := x) (hws w List.mem_cons_self)
          rw [H.stored x hx] at hlt
          rw [Kset.place, hcmp, OrderedSet.place]
          simp only [Kset.address, h.1, Option.bind_eq_bind, Option.bind_some]
          by_cases hbefore : wordValue opts.valType x < wordValue opts.valType w
          · rw [if_pos (hlt.mpr hbefore), if_pos hbefore]
            refine ⟨_, rfl, ?_⟩
            simp only [List.map_cons, contents_word hint, h.1, h.2]
          · rw [if_neg (mt hlt.mp hbefore), if_neg hbefore, hys]
            refine ⟨_, rfl, ?_⟩
            simp only [List.map_cons, h.1, hcs]

end Words

/-- An array with the stored words `ws`, in ascending order. -/
structure Holds (set : KsetArray α) (ws : List (BitVec 64)) : Prop where
  fits : set.Fits
  contents : set.toKset.Holds (ws.map Cell.int)
  stored : ∀ w ∈ ws, Stored set.opts.valType w
  ascending : ws.Pairwise fun a b =>
    wordValue set.opts.valType a ≤ wordValue set.opts.valType b

/-- The integers that the words are. -/
def values (type : Kobj) (ws : List (BitVec 64)) : Multiset ℤ := (ws.map (wordValue type) : List ℤ)

section Calls
variable {set : KsetArray α} {ws : List (BitVec 64)} {cmp : Cell α → Cell α → ℤ}
  {read : BitVec 64 → ℤ}

theorem Holds.used_eq (H : Holds set ws) : set.used = ws.length := by
  have h := H.contents.used_eq
  rwa [used_toKset, List.length_map] at h

theorem Holds.card (H : Holds set ws) (type : Kobj) : (values type ws).card = set.used := by
  rw [values, Multiset.coe_card, List.length_map, H.used_eq]

/-- What a call on the list of elements says about the one on the array. -/
theorem exists_of_map {o : Option (Kerr × KsetArray α)} {err : Kerr} {s : Kset α}
    (h : o.map (fun r => (r.1, r.2.toKset)) = some (err, s)) :
    ∃ set', o = some (err, set') ∧ set'.toKset = s := by
  rcases Option.map_eq_some_iff.mp h with ⟨⟨e, set'⟩, ho, heq⟩
  cases heq
  exact ⟨set', ho, rfl⟩

/-- A call that keeps the capacity and the array keeps its size. -/
theorem Fits.congr {set' : KsetArray α} (H : set.Fits) (ho : set'.opts = set.opts)
    (hsize : set'.val.size = set.val.size) (hused : set'.used ≤ set.val.size) : set'.Fits :=
  ⟨by rw [hsize, ho, H.size_eq], by rw [ho, ← H.size_eq]; exact hused, ho ▸ H.cap_lt⟩

theorem Holds.insert (H : Holds set ws) (Ha : Agrees set.opts.valType cmp read)
    (hint : set.opts.valType.IsInt) (hcmp : set.opts.compare = some cmp)
    (horder : set.opts.isOrder = true) (hroom : set.used ≠ set.opts.cap) {v : KPtr α}
    {u : BitVec 64} (hv : v.load = some u) (seen : Option (Cell α)) :
    ∃ set', set.insert v seen = some (.ok, set') ∧ set'.opts = set.opts ∧
      Holds set' (OrderedSet.place (wordValue set.opts.valType)
        (storedWord set.opts.valType u) ws) := by
  have hx := kmathValCtor_of_isInt hint hv set.opts.ctor
  have hstored : Stored set.opts.valType (storedWord set.opts.valType u) := ⟨u, rfl⟩
  rcases place_words Ha hint hcmp hstored H.contents H.stored with ⟨ys, hplace, hys⟩
  have hkset := kset_insert_of_ne set.toKset (by rwa [used_toKset]) hx
  have horder' : set.toKset.opts.isOrder = true := horder
  rw [if_pos horder', show Kset.place set.toKset.opts _ set.toKset.val = some ys from hplace,
    Option.map_some] at hkset
  have haddr : ∀ x, kmathValCtor v set.opts.valType set.opts.ctor = some x →
      address seen x = Kset.address x := by
    intro x hx'
    rw [hx] at hx'
    cases hx'
    rfl
  rcases exists_of_map ((insert_toKset H.fits v haddr).trans hkset) with ⟨set', hrun, hto⟩
  have hin : set.used ≤ set.val.size := H.fits.size_eq ▸ H.fits.used_le
  rcases insert_cases hin hrun with ⟨-, herr, -⟩ | ⟨-, -, ho, hused, hsize, hle, -⟩
  · cases herr
  · refine ⟨set', hrun, ho, H.fits.congr ho hsize (hsize ▸ hle), ?_, ?_, ?_⟩
    · rw [hto]
      exact hys
    · intro w hw
      rw [ho]
      rcases OrderedSet.mem_place.mp hw with rfl | hw
      · exact hstored
      · exact H.stored w hw
    · rw [ho]
      exact OrderedSet.pairwise_place H.ascending

/-- A removal of some of the words. -/
theorem Holds.sublist (H : Holds set ws) {set' : KsetArray α} {ws' : List (BitVec 64)}
    (hfits : set'.Fits) (ho : set'.opts = set.opts) (h : set'.toKset.Holds (ws'.map Cell.int))
    (hsub : ws'.Sublist ws) : Holds set' ws' := by
  refine ⟨hfits, h, fun w hw => ?_, ?_⟩
  · rw [ho]
    exact H.stored w (hsub.subset hw)
  · rw [ho]
    exact H.ascending.sublist hsub

theorem Holds.removeByIndex (H : Holds set ws) {index : ℕ} (hindex : index < set.used) :
    ∃ set', set.removeByIndex index = some (.ok, set') ∧ set'.opts = set.opts ∧
      Holds set' (ws.eraseIdx index) := by
  have hin : set.used ≤ set.val.size := H.fits.size_eq ▸ H.fits.used_le
  have hlimit : set.used ≤ intLimit := (H.fits.used_le.trans_lt H.fits.cap_lt).le
  rcases removeByIndex_spec hindex hin hlimit with ⟨set', hrun, ho, hused, hsize, hslots, -⟩
  refine ⟨set', hrun, ho, H.sublist (H.fits.congr ho hsize (by omega)) ho ?_
    (List.eraseIdx_sublist ..)⟩
  change set'.slots.map (Kset.contents set'.opts) = _
  have h : set.slots.map (Kset.contents set.opts) = (ws.map Cell.int).map some := H.contents
  rw [hslots, ho, ← List.eraseIdx_map, h, List.eraseIdx_map, List.eraseIdx_map]

theorem Holds.remove (H : Holds set ws) (Ha : Agrees set.opts.valType cmp read)
    (hcmp : set.opts.compare = some cmp) {key : KPtr α} {u : BitVec 64}
    (hkey : key.load = some u)
    (hmem : ∃ w ∈ ws, read u = wordValue set.opts.valType w) :
    ∃ set', set.remove key = some (.ok, set') ∧ set'.opts = set.opts ∧
      Holds set' (ws.eraseP fun w => cmp (.int u) (.int w) = 0) := by
  have hmem' : ∃ c ∈ ws.map Cell.int, cmp (.int u) c = 0 := by
    rcases hmem with ⟨w, hw, heq⟩
    exact ⟨_, List.mem_map_of_mem hw, (Ha.eq_iff (H.stored w hw)).mpr heq⟩
  rcases Kset.Holds.remove H.contents hcmp (deref_of_load hkey) hmem' with ⟨s, hkset, -, hs⟩
  rcases exists_of_map ((remove_toKset H.fits key).trans hkset) with ⟨set', hrun, hto⟩
  have hin : set.used ≤ set.val.size := H.fits.size_eq ▸ H.fits.used_le
  rcases remove_cases hin hrun with ⟨herr, -⟩ | ⟨-, ho, hsize, hused, -⟩
  · cases herr
  · refine ⟨set', hrun, ho, H.sublist (H.fits.congr ho hsize (by omega)) ho ?_
      List.eraseP_sublist⟩
    rw [hto]
    rwa [List.eraseP_map] at hs

theorem Holds.remove_absent (H : Holds set ws) (Ha : Agrees set.opts.valType cmp read)
    (hcmp : set.opts.compare = some cmp) {key : KPtr α} {u : BitVec 64}
    (hkey : key.load = some u)
    (hmem : ∀ w ∈ ws, read u ≠ wordValue set.opts.valType w) :
    ∃ set', set.remove key = some (.noent, set') ∧ set' = set := by
  have hfind : ((ws.map Cell.int).findIdx? fun c => cmp (.int u) c = 0) = none := by
    rw [List.findIdx?_eq_none_iff]
    intro c hc
    rcases List.mem_map.mp hc with ⟨w, hw, rfl⟩
    exact decide_eq_false (mt (Ha.eq_iff (H.stored w hw)).mp (hmem w hw))
  have hcmp' : set.toKset.opts.compare = some cmp := hcmp
  have hkset : set.toKset.remove key = some (.noent, set.toKset) := by
    rw [Kset.remove, Kset.search_eq hcmp' (deref_of_load hkey) H.contents, hfind]
    rfl
  rcases exists_of_map ((remove_toKset H.fits key).trans hkset) with ⟨set', hrun, -⟩
  have hin : set.used ≤ set.val.size := H.fits.size_eq ▸ H.fits.used_le
  rcases remove_cases hin hrun with ⟨-, heq⟩ | ⟨herr, -⟩
  · exact ⟨set', hrun, heq⟩
  · cases herr

theorem mem_values {type : Kobj} {k : ℤ} :
    k ∈ values type ws ↔ ∃ w ∈ ws, k = wordValue type w := by
  rw [values, Multiset.mem_coe, List.mem_map]
  exact exists_congr fun w => and_congr_right fun _ => eq_comm

/-- The place of an integer in ascending order is that of its word. -/
theorem Holds.sort_eq (H : Holds set ws) :
    (values set.opts.valType ws).sort (· ≤ ·) = ws.map (wordValue set.opts.valType) := by
  have hsorted : (ws.map (wordValue set.opts.valType)).Pairwise (· ≤ ·) :=
    List.pairwise_map.mpr H.ascending
  apply List.Perm.eq_of_pairwise' (Multiset.pairwise_sort _ _) hsorted
  rw [← Multiset.coe_eq_coe, Multiset.sort_eq]
  rfl

/-- The words that are left when one with a value is erased. -/
theorem values_eraseP {type : Kobj} (Ha : Agrees type cmp read) (hws : ∀ w ∈ ws, Stored type w)
    (u : BitVec 64) : values type (ws.eraseP fun w => cmp (.int u) (.int w) = 0) =
      (values type ws).erase (read u) := by
  rw [values, values, Multiset.coe_erase]
  apply congrArg
  induction ws with
  | nil => rfl
  | cons w ws ih =>
      have hrest := ih fun w hw => hws w (List.mem_cons_of_mem _ hw)
      have heq := Ha.eq_iff (a := u) (hws w List.mem_cons_self)
      rw [List.map_cons, List.erase_cons, List.eraseP_cons]
      by_cases hzero : cmp (.int u) (.int w) = 0
      · rw [decide_eq_true hzero, cond_true, heq.mp hzero, if_pos (beq_self_eq_true _)]
      · rw [decide_eq_false hzero, cond_false, List.map_cons, hrest, if_neg]
        rw [beq_iff_eq]
        exact fun h => hzero (heq.mpr h.symm)

/-- **One call** on a sorted set is one on the integers in it. -/
theorem step_spec (H : Holds set ws) (Ha : Agrees set.opts.valType cmp read)
    (hint : set.opts.valType.IsInt) (hcmp : set.opts.compare = some cmp)
    (horder : set.opts.isOrder = true) {a : Action α} (ha : Pointing set a) :
    ∃ err set' ws', step set a = some (err, set') ∧ set'.opts = set.opts ∧ Holds set' ws' ∧
      spec set.opts read (values set.opts.valType ws) a = (err, values set.opts.valType ws') ∧
      (err ≠ .ok → set' = set) := by
  cases a with
  | insert v seen =>
      rcases ha with ⟨u, hv⟩
      by_cases hfull : set.used = set.opts.cap
      · refine ⟨.inval, set, ws, if_pos hfull, rfl, H, ?_, fun _ => rfl⟩
        rw [spec, if_pos (by rw [H.card, hfull])]
      · rcases H.insert Ha hint hcmp horder hfull hv seen with ⟨set', hrun, ho, H'⟩
        refine ⟨.ok, set', _, hrun, ho, H', ?_, fun herr => absurd rfl herr⟩
        rw [spec, if_neg (by rwa [H.card]), argument, hv, Option.getD_some, values, values,
          Multiset.cons_coe]
        apply congrArg (Prod.mk Kerr.ok)
        apply Multiset.coe_eq_coe.mpr
        exact (OrderedSet.place_perm.map (wordValue set.opts.valType)).symm
  | remove key =>
      rcases ha with ⟨u, hkey⟩
      by_cases hmem : ∃ w ∈ ws, read u = wordValue set.opts.valType w
      · rcases H.remove Ha hcmp hkey hmem with ⟨set', hrun, ho, H'⟩
        refine ⟨.ok, set', _, hrun, ho, H', ?_, fun herr => absurd rfl herr⟩
        rw [spec, argument, hkey, Option.getD_some, if_pos (mem_values.mpr hmem),
          values_eraseP Ha H.stored]
      · rcases H.remove_absent Ha hcmp hkey (fun w hw heq => hmem ⟨w, hw, heq⟩)
          with ⟨set', hrun, heq⟩
        refine ⟨.noent, set', ws, hrun, heq ▸ rfl, heq ▸ H, ?_, fun _ => heq⟩
        rw [spec, argument, hkey, Option.getD_some, if_neg (mt mem_values.mp hmem)]
  | removeByIndex index =>
      by_cases hindex : index.toNat < set.used
      · rcases H.removeByIndex hindex with ⟨set', hrun, ho, H'⟩
        refine ⟨.ok, set', _, hrun, ho, H', ?_, fun herr => absurd rfl herr⟩
        have hlt : index.toNat < (ws.map (wordValue set.opts.valType)).length := by
          rw [List.length_map, ← H.used_eq]
          exact hindex
        rw [spec, H.sort_eq, List.getElem?_eq_getElem hlt]
        dsimp only
        rw [values, values, Multiset.coe_erase, ← List.eraseIdx_map]
        apply congrArg (Prod.mk Kerr.ok)
        apply Multiset.coe_eq_coe.mpr
        apply (List.perm_cons _).mp ((List.perm_cons_erase (List.getElem_mem hlt)).symm.trans _)
        exact (List.getElem_cons_eraseIdx_perm hlt).symm
      · refine ⟨.inval, set, ws, if_pos (Nat.not_lt.mp hindex), rfl, H, ?_, fun _ => rfl⟩
        have hle : (ws.map (wordValue set.opts.valType)).length ≤ index.toNat := by
          rw [List.length_map, ← H.used_eq]
          exact Nat.not_lt.mp hindex
        rw [spec, H.sort_eq, List.getElem?_eq_none hle]

/-- The last of the words is the greatest. -/
theorem Holds.last (H : Holds set ws) (hne : set.used ≠ 0) :
    ∃ p w, set.last = some p ∧ p.load = some w ∧
      wordValue set.opts.valType w ∈ values set.opts.valType ws ∧
      ∀ k ∈ values set.opts.valType ws, k ≤ wordValue set.opts.valType w := by
  have hlen := H.used_eq
  have hcap := H.fits.cap_lt
  have hle := H.fits.used_le
  have hlt : set.used - 1 < ws.length := by omega
  have hindex : sizeSub set.used 1 = set.used - 1 := sizeSub_of_le (by omega) (by omega)
  have hload : set.val.load (set.used - 1) = some (set.val.get (set.used - 1)) := by
    apply Buffer.load_of_lt
    rw [H.fits.size_eq]
    omega
  have hslot : (kmathValGet (set.val.get (set.used - 1)) set.opts.valType).deref =
      some (.int ws[set.used - 1]) := by
    have h : set.slots.map (Kset.contents set.opts) = (ws.map Cell.int).map some := H.contents
    have hget := congrArg (fun l => l[set.used - 1]?) h
    rw [slots] at hget
    simpa [show set.used - 1 < set.used by omega, hlt, Kset.contents] using hget
  refine ⟨kmathValGet (set.val.get (set.used - 1)) set.opts.valType, ws[set.used - 1], ?_, ?_,
    mem_values.mpr ⟨_, List.getElem_mem hlt, rfl⟩, fun k hk => ?_⟩
  · rw [KsetArray.last, hindex, get, hload]
    rfl
  · rw [KPtr.load, hslot]
  · rcases mem_values.mp hk with ⟨w, hw, rfl⟩
    rcases List.getElem_of_mem hw with ⟨i, hi, rfl⟩
    rcases Nat.lt_or_eq_of_le (show i ≤ set.used - 1 by omega) with hlast | rfl
    · exact List.pairwise_iff_getElem.mp H.ascending i (set.used - 1) hi hlt hlast
    · exact le_rfl

theorem Holds.sorted (H : Holds set ws) : Sorted set (values set.opts.valType ws) where
  used_le := H.fits.used_le
  slots := ⟨ws, H.contents, List.pairwise_map.mpr H.ascending, rfl⟩
  last := H.last

end Calls

/-- A new set has no elements. -/
theorem create_spec (opts : KsetOpts α) (hcap : opts.cap < 2 ^ 31) :
    ∃ set, create opts = some set ∧ set.opts = opts ∧ Holds set [] := by
  have hslots : 8 * opts.cap % 2 ^ 64 / 8 = opts.cap := by omega
  have hsize : ¬ 2 ^ 64 ≤ sizeofKset + 8 * (8 * opts.cap % 2 ^ 64 / 8) := by
    rw [hslots, sizeofKset]
    omega
  refine ⟨_, if_neg hsize, rfl, ⟨hslots, Nat.zero_le _, hcap⟩, rfl, ?_, List.Pairwise.nil⟩
  intro w hw
  cases hw

/-- **Ordered sets stay sorted**, along every run of insertions and removals. -/
theorem keepsOrder (opts : KsetOpts α) {cmp : Cell α → Cell α → ℤ} {read : BitVec 64 → ℤ}
    (horder : opts.isOrder = true) (hint : opts.valType.IsInt) (hcap : opts.cap < 2 ^ 31)
    (hcmp : opts.compare = some cmp) (Ha : Agrees opts.valType cmp read) :
    KeepsOrder opts read := by
  rcases create_spec opts hcap with ⟨set₀, hcreate, ho₀, H₀⟩
  -- a set of the run has the options of the first, and words that the multiset is of
  have hone : ∀ {set : KsetArray α} {ws : List (BitVec 64)}, set.opts = opts → Holds set ws →
      ∀ {a}, Pointing set a → ∃ err set' ws', step set a = some (err, set') ∧
        set'.opts = opts ∧ Holds set' ws' ∧
        spec opts read (values opts.valType ws) a = (err, values opts.valType ws') ∧
        (err ≠ .ok → set' = set) := by
    rintro set ws rfl H a ha
    exact step_spec H Ha hint hcmp horder ha
  have hrun : ∀ {tr set}, Run step Pointing set₀ tr set →
      ∃ m, specRun (spec opts read) 0 (tr.map Step.call) = (tr.map Step.result, m) ∧
        ∃ ws, set.opts = opts ∧ Holds set ws ∧ m = values opts.valType ws := by
    intro tr set h
    refine h.simulates (R := fun set m =>
      ∃ ws, set.opts = opts ∧ Holds set ws ∧ m = values opts.valType ws)
      ⟨[], ho₀, H₀, rfl⟩ ?_
    rintro set a err set' m ⟨ws, ho, H, rfl⟩ ha hstep
    rcases hone ho H ha with ⟨err', s, ws', hs, ho', H', hspec, -⟩
    rw [hs] at hstep
    cases hstep
    rw [hspec]
    exact ⟨rfl, ws', ho', H', rfl⟩
  refine ⟨set₀, hcreate, fun tr set h => ⟨?_, ?_, ?_⟩⟩
  · rcases hrun h with ⟨m, hspec, ws, rfl, H, rfl⟩
    exact ⟨_, hspec, H.sorted⟩
  · refine h.forall_mem ?_
    rintro tr set a err set' h ha hstep v seen rfl
    rcases hrun h with ⟨m, -, ws, ho, H, -⟩
    rcases hone ho H ha with ⟨err', s, ws', hs, -, -, hspec, hkeep⟩
    rw [hs] at hstep
    cases hstep
    refine ⟨?_, hkeep⟩
    rw [spec, H.card] at hspec
    change err ≠ .ok ↔ set.used = set.opts.cap
    rw [ho]
    by_cases hfull : set.used = opts.cap
    · rw [if_pos hfull] at hspec
      rw [← (Prod.mk.inj hspec).1]
      exact iff_of_true (by decide) hfull
    · rw [if_neg hfull] at hspec
      rw [← (Prod.mk.inj hspec).1]
      exact iff_of_false (fun hne => hne rfl) hfull
  · intro a ha
    rcases hrun h with ⟨m, -, ws, ho, H, -⟩
    rcases hone ho H ha with ⟨err, s, -, hs, -⟩
    exact ⟨err, s, hs⟩

theorem keepsOrder_ints : KeepsOrder ints BitVec.toInt :=
  keepsOrder ints rfl trivial (by decide) rfl ⟨fun _ _ => rfl, fun _ _ _ => rfl⟩

end Kylin.KsetArray
