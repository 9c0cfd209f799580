import Mathlib.Data.Finmap
import Kylin.Lib.Buffer

/-!
# Tables of buckets

A hash table is a block of chains.  What it holds is the concatenation of the chains,
up to order, and every operation on it replaces one chain; so the effect of an
operation is a permutation of the contents with one chain exchanged
(`contents_store`).

What the table stands for is a finite map.  `Represents key val xs t` says that the
elements `xs`, in whatever order, are the bindings of `t`, one for each key.

## Main definitions

* `FirstAt`, `firstFrom`, `probe` — the first bucket of a kind, and counting up to it.
* `contents` — everything in a table of chains.
* `seek` — the search of a chain.
* `Holder` — the element with a key.
* `Represents` — elements as a finite map; `perm`, `cons`, `erase`, `exchange` say what
  becomes of the map when the elements change.
-/

namespace Lib

open List

variable {β : Type}

/-! ## Looking for a bucket -/

section FirstAt
variable {p : β → Bool} {b : Buffer β} {i j k limit fuel : ℕ}

/-- The bucket `i` is the first from `k` on with the property `p`. -/
structure FirstAt (p : β → Bool) (b : Buffer β) (k i : ℕ) : Prop where
  le : k ≤ i
  lt : i < b.size
  here : p (b.get i) = true
  skip : ∀ j, k ≤ j → j < i → p (b.get j) = false

theorem exists_firstAt (hk : k ≤ j) (hj : j < b.size) (hp : p (b.get j) = true) :
    ∃ i, FirstAt p b k i := by
  have hex : ∃ i, k ≤ i ∧ i < b.size ∧ p (b.get i) = true := ⟨j, hk, hj, hp⟩
  rcases Nat.find_spec hex with ⟨hle, hlt, hhere⟩
  refine ⟨Nat.find hex, hle, hlt, hhere, fun l hl hlf => ?_⟩
  rw [← Bool.not_eq_true]
  intro hpl
  exact Nat.find_min hex hlf ⟨hl, by omega, hpl⟩

/-- The first bucket from `k` on with the property `p`. -/
def firstFrom (p : β → Bool) (b : Buffer β) (k : ℕ) : Option β :=
  ((range' k (b.size - k)).map b.get).find? p

theorem FirstAt.firstFrom_eq (F : FirstAt p b k i) : firstFrom p b k = some (b.get i) := by
  have hfind : (range' k (b.size - k)).find? (p ∘ b.get) = some i := by
    rw [find?_range'_eq_some]
    refine ⟨F.here, ?_, ?_⟩
    · rw [mem_range'_1]
      exact ⟨F.le, by have := F.lt; omega⟩
    · intro j hkj hji
      simp [F.skip j hkj hji]
  rw [firstFrom, find?_map, hfind]
  rfl

/-- The first of translated buckets. -/
theorem firstFrom_map {γ : Type} (f : γ → β) (p : β → Bool) (c : Buffer γ) (k : ℕ) :
    firstFrom p (c.map f) k = (firstFrom (p ∘ f) c k).map f := by
  rw [firstFrom, firstFrom, ← find?_map, map_map]
  rfl

/-- Counting up to the first bucket with the property `p`, with a counter that has to stay
below `limit`. -/
def probe (p : β → Bool) (limit : ℕ) (b : Buffer β) : ℕ → ℕ → Option ℕ
  | 0, _ => none
  | fuel + 1, i => do
      let c ← b.load i
      if p c then some i
      else if i + 1 < limit then probe p limit b fuel (i + 1) else none

/-- What a probe returns is the first. -/
theorem probe_firstAt (h : probe p limit b fuel k = some i) : FirstAt p b k i := by
  induction fuel generalizing k with
  | zero => cases h
  | succ fuel ih =>
      rw [probe] at h
      by_cases hk : k < b.size
      · rw [Buffer.load_of_lt hk, Option.bind_eq_bind, Option.bind_some] at h
        split at h
        · rename_i hp
          cases h
          exact ⟨Nat.le_refl _, hk, hp, fun j hj hj' => by omega⟩
        · rename_i hp
          split at h
          · have F := ih h
            refine ⟨by have := F.le; omega, F.lt, F.here, fun j hj hji => ?_⟩
            by_cases hjk : j = k
            · rw [hjk]
              exact Bool.not_eq_true _ ▸ hp
            · exact F.skip j (by omega) hji
          · cases h
      · rw [Buffer.load, if_neg hk] at h
        cases h

/-- A probe finds the first, if its counter can count so far. -/
theorem FirstAt.probe_eq (F : FirstAt p b k i) (hi : i < limit) :
    ∀ fuel, i - k < fuel → probe p limit b fuel k = some i := by
  intro fuel
  induction fuel generalizing k with
  | zero =>
      intro hfuel
      omega
  | succ fuel ih =>
      intro hfuel
      have hle := F.le
      have hlt := F.lt
      rw [probe, Buffer.load_of_lt (by omega), Option.bind_eq_bind, Option.bind_some]
      by_cases hki : k = i
      · subst hki
        rw [if_pos F.here]
      · rw [if_neg (by rw [F.skip k (Nat.le_refl _) (by omega)]; decide), if_pos (by omega)]
        exact ih ⟨by omega, F.lt, F.here, fun j hj => F.skip j (by omega)⟩ (by omega)

/-- A probe of translated buckets. -/
theorem probe_map {γ : Type} (f : γ → β) (p : β → Bool) (limit : ℕ) (c : Buffer γ) (fuel i : ℕ) :
    probe p limit (c.map f) fuel i = probe (p ∘ f) limit c fuel i := by
  induction fuel generalizing i with
  | zero => rfl
  | succ fuel ih =>
      rw [probe, probe, Buffer.load_map]
      cases c.load i with
      | none => rfl
      | some x => simp [ih]

end FirstAt

/-! ## Contents -/

/-- Everything in a table of chains. -/
def contents (b : Buffer (List β)) : List β := (range b.size).flatMap b.get

theorem mem_contents {b : Buffer (List β)} {x : β} :
    x ∈ contents b ↔ ∃ i, i < b.size ∧ x ∈ b.get i := by
  simp [contents]

@[simp] theorem contents_empty (n : ℕ) : contents (⟨n, fun _ => []⟩ : Buffer (List β)) = [] := by
  simp [contents]

/-- A table that holds something has a first chain that does. -/
theorem exists_first_chain {b : Buffer (List β)} (h : contents b ≠ []) :
    ∃ i, FirstAt (fun chain => !chain.isEmpty) b 0 i := by
  rcases exists_mem_of_ne_nil _ h with ⟨x, hx⟩
  rcases mem_contents.mp hx with ⟨j, hj, hmem⟩
  exact exists_firstAt (Nat.zero_le j) hj (by simpa using ne_nil_of_mem hmem)

/-- **Exchanging one chain.**  The contents before and after have everything but the
chain in common. -/
theorem contents_store {b : Buffer (List β)} {i : ℕ} (hi : i < b.size) (chain : List β) :
    ∃ rest, contents b ~ b.get i ++ rest ∧
      contents { b with get := Function.update b.get i chain } ~ chain ++ rest := by
  have hrange : range b.size ~ i :: (range b.size).erase i := perm_cons_erase (mem_range.mpr hi)
  refine ⟨((range b.size).erase i).flatMap b.get, hrange.flatMap_right _, ?_⟩
  have hother : ((range b.size).erase i).flatMap (Function.update b.get i chain) =
      ((range b.size).erase i).flatMap b.get := by
    refine flatMap_congr fun j hj => Function.update_of_ne ?_ _ _
    exact (nodup_range.mem_erase_iff.mp hj).1
  have h := hrange.flatMap_right (Function.update b.get i chain)
  rw [flatMap_cons, Function.update_self, hother] at h
  exact h

/-! ## Searching a chain -/

section Seek
variable {cmp : β → Option ℤ} {chain before behind : List β} {x : β}

/-- The first element of a chain that compares equal, with those before and behind it. -/
def seek (cmp : β → Option ℤ) : List β → Option (Option (List β × β × List β))
  | [] => some none
  | x :: xs => do
      if (← cmp x) = 0 then some (some ([], x, xs))
      else (← seek cmp xs).elim (some none) fun (before, y, behind) =>
        some (some (x :: before, y, behind))

/-- What a search finds is in the chain and compares equal. -/
theorem seek_eq_some (h : seek cmp chain = some (some (before, x, behind))) :
    chain = before ++ x :: behind ∧ cmp x = some 0 := by
  induction chain generalizing before with
  | nil => simp [seek] at h
  | cons y ys ih =>
      rw [seek] at h
      rcases Option.bind_eq_some_iff.mp h with ⟨z, hz, h⟩
      split at h
      · rename_i hzero
        cases h
        exact ⟨rfl, by rw [hz, hzero]⟩
      · rcases Option.bind_eq_some_iff.mp h with ⟨r, hr, h⟩
        rcases r with _ | ⟨before', y', behind'⟩
        · cases h
        · cases h
          rcases ih hr with ⟨hys, hx⟩
          exact ⟨by rw [hys, List.cons_append], hx⟩

/-- A search among elements that do not compare equal finds nothing. -/
theorem seek_eq_none {r : Option (List β × β × List β)} (h : seek cmp chain = some r)
    (hne : ∀ y ∈ chain, cmp y ≠ some 0) : r = none := by
  rcases r with _ | ⟨before, x, behind⟩
  · rfl
  · rcases seek_eq_some h with ⟨rfl, hx⟩
    exact absurd hx (hne x (by simp))

/-- A search with a comparison that never faults finds the first element with the
property that the comparison tests. -/
theorem seek_spec {P : β → Prop} (h : ∀ x ∈ chain, ∃ z, cmp x = some z ∧ (z = 0 ↔ P x)) :
    ∃ r, seek cmp chain = some r ∧
      (∀ before x behind, r = some (before, x, behind) → chain = before ++ x :: behind ∧ P x) ∧
      (r = none → ∀ x ∈ chain, ¬ P x) := by
  induction chain with
  | nil => exact ⟨none, rfl, by simp, by simp⟩
  | cons x xs ih =>
      rcases h x (by simp) with ⟨z, hz, hP⟩
      rcases ih fun y hy => h y (by simp [hy]) with ⟨r, hr, hsome, hnone⟩
      by_cases hzero : z = 0
      · refine ⟨some ([], x, xs), by simp [seek, hz, hzero], ?_, by simp⟩
        intro before y behind heq
        cases heq
        exact ⟨rfl, hP.mp hzero⟩
      · cases r with
        | none =>
            refine ⟨none, by simp [seek, hz, hzero, hr], by simp, fun _ y hy => ?_⟩
            rcases List.mem_cons.mp hy with rfl | hy
            · exact fun hy => hzero (hP.mpr hy)
            · exact hnone rfl y hy
        | some r =>
            rcases r with ⟨before, y, behind⟩
            refine ⟨some (x :: before, y, behind), by simp [seek, hz, hzero, hr], ?_, by simp⟩
            intro _ _ _ heq
            cases heq
            rcases hsome before y behind rfl with ⟨hxs, hy⟩
            exact ⟨by rw [hxs, List.cons_append], hy⟩

/-- A search of a translated chain. -/
theorem seek_map {γ : Type} (f : γ → β) (chain : List γ) :
    seek cmp (chain.map f) = (seek (cmp ∘ f) chain).map
      (Option.map (Prod.map (List.map f) (Prod.map f (List.map f)))) := by
  induction chain with
  | nil => rfl
  | cons x xs ih =>
      rw [map_cons, seek, seek, ih, Function.comp_apply]
      cases cmp (f x) with
      | none => rfl
      | some z =>
          by_cases hz : z = 0
          · simp [hz]
          · rcases seek (cmp ∘ f) xs with _ | _ | ⟨before, y, behind⟩ <;> simp [hz]

/-- Comparisons that agree on what is equal find the same. -/
theorem seek_congr {cmp' : β → Option ℤ}
    (h : ∀ x ∈ chain, ∃ y z, cmp x = some y ∧ cmp' x = some z ∧ (y = 0 ↔ z = 0)) :
    seek cmp chain = seek cmp' chain := by
  induction chain with
  | nil => rfl
  | cons x xs ih =>
      rcases h x (by simp) with ⟨y, z, hy, hz, hiff⟩
      rw [seek, seek, hy, hz, ih fun x hx => h x (by simp [hx])]
      simp only [Option.bind_eq_bind, Option.bind_some, hiff]

end Seek

/-! ## The holder of a key -/

section Holder
variable {κ : Type} {key : β → Option κ} {xs ys : List β} {x : β} {k : κ} {r s : Option β}

/-- `r` is the element of `xs` with the key `k`, or nothing if there is none. -/
def Holder (key : β → Option κ) (xs : List β) (k : κ) (r : Option β) : Prop :=
  ∀ x, r = some x ↔ x ∈ xs ∧ key x = some k

namespace Holder

theorem perm (H : Holder key xs k r) (h : xs ~ ys) : Holder key ys k r := by
  intro x
  rw [← h.mem_iff]
  exact H x

theorem unique (H : Holder key xs k r) (H' : Holder key xs k s) : r = s := by
  apply Option.ext
  intro x
  rw [H x, H' x]

theorem none_iff : Holder key xs k none ↔ ∀ x ∈ xs, key x ≠ some k := by
  simp [Holder]

/-- The head holds its key when no other element has it. -/
theorem head (hd : ((x :: xs).map key).Nodup) (hk : key x = some k) :
    Holder key (x :: xs) k (some x) ∧ Holder key xs k none := by
  have hne : ∀ y ∈ xs, key y ≠ some k := by
    intro y hy hky
    exact (nodup_cons.mp hd).1 (mem_map.mpr ⟨y, hy, hky.trans hk.symm⟩)
  refine ⟨fun y => ?_, none_iff.mpr hne⟩
  rw [Option.some.injEq, mem_cons]
  constructor
  · rintro rfl
    exact ⟨.inl rfl, hk⟩
  · rintro ⟨rfl | hy, hky⟩
    · rfl
    · exact absurd hky (hne y hy)

/-- An element with another key does not matter. -/
theorem cons_iff (hne : key x ≠ some k) : Holder key (x :: xs) k r ↔ Holder key xs k r := by
  refine forall_congr' fun y => iff_congr Iff.rfl ?_
  rw [mem_cons]
  constructor
  · rintro ⟨rfl | hy, hky⟩
    · exact absurd hky hne
    · exact ⟨hy, hky⟩
  · rintro ⟨hy, hky⟩
    exact ⟨.inr hy, hky⟩

/-- What a search finds among elements with distinct keys. -/
theorem of_search (hd : (xs.map key).Nodup)
    (hsome : ∀ x, r = some x → x ∈ xs ∧ key x = some k)
    (hnone : r = none → ∀ x ∈ xs, key x ≠ some k) : Holder key xs k r := by
  cases r with
  | none => exact none_iff.mpr (hnone rfl)
  | some x =>
      rcases hsome x rfl with ⟨hx, hk⟩
      rcases append_of_mem hx with ⟨before, behind, rfl⟩
      have hd' := (perm_middle.map key).nodup_iff.mp hd
      exact (head hd' hk).1.perm perm_middle.symm

end Holder

end Holder

/-! ## Finite maps -/

section Represents
variable {κ ν : Type} [DecidableEq κ]

/-- The elements `xs` are the bindings of `t`. -/
structure Represents (key : β → Option κ) (val : β → ν) (xs : List β)
    (t : Finmap fun _ : κ => ν) : Prop where
  distinct : (xs.map key).Nodup
  lookup_iff : ∀ k v, t.lookup k = some v ↔ ∃ x ∈ xs, key x = some k ∧ val x = v
  card_eq : t.keys.card = xs.length

namespace Represents
variable {key : β → Option κ} {val : β → ν} {xs ys : List β} {t : Finmap fun _ : κ => ν}
  {x y : β} {k : κ}

theorem nil : Represents key val [] (∅ : Finmap fun _ : κ => ν) where
  distinct := by simp
  lookup_iff := by simp
  card_eq := by simp

theorem perm (H : Represents key val xs t) (h : xs ~ ys) : Represents key val ys t where
  distinct := (h.map key).nodup_iff.mp H.distinct
  lookup_iff := by
    intro k v
    simp only [H.lookup_iff, h.mem_iff]
  card_eq := H.card_eq.trans h.length_eq

/-- A key is bound if and only if an element has it. -/
theorem mem_iff (H : Represents key val xs t) : k ∈ t ↔ ∃ x ∈ xs, key x = some k := by
  rw [Finmap.mem_iff]
  constructor
  · rintro ⟨v, hv⟩
    rcases (H.lookup_iff k v).mp hv with ⟨x, hx, hk, -⟩
    exact ⟨x, hx, hk⟩
  · rintro ⟨x, hx, hk⟩
    exact ⟨val x, (H.lookup_iff k _).mpr ⟨x, hx, hk, rfl⟩⟩

/-- A search that returns an element with the key, if there is one, returns its
binding. -/
theorem lookup_eq (H : Represents key val xs t) {r : Option β}
    (hsome : ∀ x, r = some x → x ∈ xs ∧ key x = some k)
    (hnone : r = none → ∀ x ∈ xs, key x ≠ some k) : t.lookup k = r.map val := by
  cases r with
  | none =>
      rw [Option.map_none, Finmap.lookup_eq_none, H.mem_iff]
      rintro ⟨x, hx, hk⟩
      exact hnone rfl x hx hk
  | some x =>
      rcases hsome x rfl with ⟨hx, hk⟩
      exact (H.lookup_iff k _).mpr ⟨x, hx, hk, rfl⟩

theorem cons (H : Represents key val xs t) (hk : key x = some k) (hnew : k ∉ t) :
    Represents key val (x :: xs) (t.insert k (val x)) where
  distinct := by
    refine nodup_cons.mpr ⟨fun hmem => hnew ?_, H.distinct⟩
    rcases mem_map.mp hmem with ⟨y, hy, hxy⟩
    exact H.mem_iff.mpr ⟨y, hy, hxy.trans hk⟩
  lookup_iff := by
    intro j v
    by_cases hj : j = k
    · subst hj
      rw [Finmap.lookup_insert]
      constructor
      · intro h
        exact ⟨x, by simp, hk, Option.some.inj h⟩
      · rintro ⟨y, hy, hky, rfl⟩
        rcases mem_cons.mp hy with rfl | hy
        · rfl
        · exact absurd (H.mem_iff.mpr ⟨y, hy, hky⟩) hnew
    · rw [Finmap.lookup_insert_of_ne _ hj, H.lookup_iff]
      constructor
      · rintro ⟨y, hy, h⟩
        exact ⟨y, mem_cons_of_mem _ hy, h⟩
      · rintro ⟨y, hy, hky, hv⟩
        rcases mem_cons.mp hy with rfl | hy
        · rw [hk, Option.some.injEq] at hky
          exact absurd hky.symm hj
        · exact ⟨y, hy, hky, hv⟩
  card_eq := by
    have hkeys : (t.insert k (val x)).keys = Insert.insert k t.keys := by
      ext j
      simp [Finmap.mem_keys, Finmap.mem_insert]
    rw [hkeys, Finset.card_insert_of_notMem (by simpa [Finmap.mem_keys] using hnew), H.card_eq,
      length_cons]

/-- No other element has the key of an element. -/
theorem key_ne (H : Represents key val (x :: xs) t) (hk : key x = some k) :
    ∀ y ∈ xs, key y ≠ some k := by
  intro y hy hky
  exact (nodup_cons.mp H.distinct).1 (mem_map.mpr ⟨y, hy, hky.trans hk.symm⟩)

theorem erase (H : Represents key val (x :: xs) t) (hk : key x = some k) :
    Represents key val xs (t.erase k) where
  distinct := (nodup_cons.mp H.distinct).2
  lookup_iff := by
    intro j v
    by_cases hj : j = k
    · subst hj
      rw [Finmap.lookup_erase]
      constructor
      · intro h
        cases h
      · rintro ⟨y, hy, hky, -⟩
        exact absurd hky (H.key_ne hk y hy)
    · rw [Finmap.lookup_erase_ne hj, H.lookup_iff]
      constructor
      · rintro ⟨y, hy, hky, hv⟩
        rcases mem_cons.mp hy with rfl | hy
        · rw [hk, Option.some.injEq] at hky
          exact absurd hky.symm hj
        · exact ⟨y, hy, hky, hv⟩
      · rintro ⟨y, hy, h⟩
        exact ⟨y, mem_cons_of_mem _ hy, h⟩
  card_eq := by
    have hmem : k ∈ t.keys := by
      rw [Finmap.mem_keys, H.mem_iff]
      exact ⟨x, by simp, hk⟩
    rw [Finmap.keys_erase, Finset.card_erase_of_mem hmem, H.card_eq, length_cons,
      Nat.add_sub_cancel]

/-- An element may be exchanged for another with its key. -/
theorem exchange (H : Represents key val (x :: xs) t) (hx : key x = some k)
    (hy : key y = some k) : Represents key val (y :: xs) (t.insert k (val y)) := by
  have h := (H.erase hx).cons hy Finmap.notMem_erase_self
  have hins : (t.erase k).insert k (val y) = t.insert k (val y) := by
    apply Finmap.ext_lookup
    intro j
    by_cases hj : j = k
    · subst hj
      rw [Finmap.lookup_insert, Finmap.lookup_insert]
    · rw [Finmap.lookup_insert_of_ne _ hj, Finmap.lookup_insert_of_ne _ hj,
        Finmap.lookup_erase_ne hj]
  rwa [hins] at h

end Represents

end Represents

end Lib
