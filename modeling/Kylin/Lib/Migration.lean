import Mathlib.Algebra.BigOperators.Group.Finset.Piecewise
import Kylin.Lib.Buckets

/-!
# Moving one table into another, bucket by bucket

A table of buckets whose owner counts what it holds, and a second one that is to take its
place.  Buckets are moved in order: everything below `next` is empty.  The owner looks
for the next bucket to move without minding the end of the table, as long as its count is
not zero; that is safe because the count is exact (`Migration.Exact.inside`).

A bucket is anything with a size `m`, so that a bucket can also be one that nothing may
be read from.

## Main definitions

* `total` — the size of all buckets together.
* `Tally`, `Migration` — a counted table, and two of them in the middle of a move.
* `Tally.Exact`, `Migration.Exact` — the counts are right.
* `Apart` — elements that can all be moved, because none of them meets its like.
* `Tally.exact_map`, `Migration.exact_map`, `apart_map` — the same of translated buckets.

## Main results

* `Migration.Exact.inside`, `firstAt` — while the count is not zero there is a bucket to move,
  and it is found.
* `Migration.Exact.storeOld`, `storeNew`, `carry`, `swap`, `start`, `replaceOld` — the
  changes that keep the counts right.
-/

namespace Lib

variable {γ : Type} {m : γ → ℕ}

/-! ## Sizes -/

/-- The size of all buckets together. -/
def total (m : γ → ℕ) (b : Buffer γ) : ℕ := ∑ i ∈ Finset.range b.size, m (b.get i)

theorem total_eq_zero_iff {b : Buffer γ} : total m b = 0 ↔ ∀ i, i < b.size → m (b.get i) = 0 := by
  rw [total, Finset.sum_eq_zero_iff]
  simp only [Finset.mem_range]

theorem total_eq_add {b : Buffer γ} {i : ℕ} (hi : i < b.size) :
    total m b = m (b.get i) + ∑ j ∈ (Finset.range b.size).erase i, m (b.get j) :=
  (Finset.add_sum_erase _ (fun j => m (b.get j)) (Finset.mem_range.mpr hi)).symm

/-- A bucket is not larger than all of them. -/
theorem le_total {b : Buffer γ} {i : ℕ} (hi : i < b.size) : m (b.get i) ≤ total m b := by
  rw [total_eq_add hi]
  exact Nat.le_add_right _ _

/-- Exchanging a bucket exchanges its size. -/
theorem total_update {b : Buffer γ} {i : ℕ} (hi : i < b.size) (c : γ) :
    total m { b with get := Function.update b.get i c } + m (b.get i) = total m b + m c := by
  have hmem : i ∈ Finset.range b.size := Finset.mem_range.mpr hi
  have hnew : total m { b with get := Function.update b.get i c } =
      ∑ j ∈ Finset.range b.size, Function.update (m ∘ b.get) i (m c) j := by
    rw [← Function.comp_update]
    rfl
  rw [hnew, total_eq_add hi, Finset.sum_update_of_mem hmem, Finset.sdiff_singleton_eq_erase]
  simp only [Function.comp_apply]
  omega

/-! ## Counted tables -/

/-- A table with the number of its buckets and the count of what it holds. -/
structure Tally (γ : Type) where
  table : Option (Buffer γ)
  cap : ℕ
  used : ℕ

namespace Tally
variable {t : Tally γ} {b : Buffer γ}

/-- The numbers are right. -/
structure Exact (m : γ → ℕ) (t : Tally γ) : Prop where
  size_eq : ∀ b, t.table = some b → b.size = t.cap
  used_eq : t.used = t.table.elim 0 (total m)

theorem exact_none (cap : ℕ) : Exact m (⟨none, cap, 0⟩ : Tally γ) := ⟨by simp, rfl⟩

/-- A table of empty buckets. -/
theorem exact_fresh {c : γ} (hc : m c = 0) (cap : ℕ) :
    Exact m (⟨some ⟨cap, fun _ => c⟩, cap, 0⟩ : Tally γ) := by
  refine ⟨?_, ?_⟩
  · intro b hb
    cases hb
    rfl
  · symm
    exact total_eq_zero_iff.mpr fun _ _ => hc

/-- A table with its buckets translated. -/
def map {δ : Type} (f : δ → γ) (t : Tally δ) : Tally γ :=
  ⟨t.table.map (Buffer.map f), t.cap, t.used⟩

/-- Translated buckets are counted by what they are translated to. -/
theorem exact_map {δ : Type} (f : δ → γ) (t : Tally δ) : (t.map f).Exact m ↔ t.Exact (m ∘ f) := by
  rcases t with ⟨_ | b, cap, used⟩
  · exact ⟨fun H => ⟨nofun, H.used_eq⟩, fun H => ⟨nofun, H.used_eq⟩⟩
  · constructor
    · intro H
      refine ⟨fun b' hb' => ?_, H.used_eq⟩
      cases hb'
      exact H.size_eq _ rfl
    · intro H
      refine ⟨fun b' hb' => ?_, H.used_eq⟩
      cases hb'
      exact H.size_eq b rfl

theorem Exact.le_used (H : t.Exact m) (hb : t.table = some b) {i : ℕ} (hi : i < b.size) :
    m (b.get i) ≤ t.used := by
  rw [H.used_eq, hb]
  exact le_total hi

/-- Exchanging a bucket, with the count corrected. -/
theorem Exact.store (H : t.Exact m) (hb : t.table = some b) {i n : ℕ} {c : γ} (hi : i < b.size)
    (hn : n + m (b.get i) = t.used + m c) :
    Exact m ⟨some { b with get := Function.update b.get i c }, t.cap, n⟩ := by
  refine ⟨?_, ?_⟩
  · intro b' hb'
    cases hb'
    exact H.size_eq b hb
  · have hused := H.used_eq
    rw [hb, Option.elim_some] at hused
    have htotal := total_update (m := m) hi c
    rw [Option.elim_some]
    dsimp only
    omega

end Tally

/-- A table that is moved into another: the buckets below `next` are empty. -/
structure Migration (γ : Type) where
  old : Tally γ
  new : Tally γ
  next : Option ℕ

namespace Migration
variable {g : Migration γ} {b : Buffer γ} {c : γ} {i n : ℕ}

/-- Both counts are right, and the buckets moved hold nothing. -/
structure Exact (m : γ → ℕ) (g : Migration γ) : Prop where
  old : g.old.Exact m
  new : g.new.Exact m
  below : ∀ i b, g.next = some i → g.old.table = some b → ∀ j, j < i → m (b.get j) = 0

/-- A move of translated buckets. -/
def map {δ : Type} (f : δ → γ) (g : Migration δ) : Migration γ :=
  ⟨g.old.map f, g.new.map f, g.next⟩

theorem exact_map {δ : Type} (f : δ → γ) (g : Migration δ) :
    (g.map f).Exact m ↔ g.Exact (m ∘ f) := by
  constructor
  · intro H
    refine ⟨(Tally.exact_map f _).mp H.old, (Tally.exact_map f _).mp H.new, fun i b hi hb => ?_⟩
    refine H.below i (b.map f) hi ?_
    rw [map, Tally.map, hb, Option.map_some]
  · intro H
    refine ⟨(Tally.exact_map f _).mpr H.old, (Tally.exact_map f _).mpr H.new, fun i b hi hb => ?_⟩
    rcases Option.map_eq_some_iff.mp hb with ⟨b', hb', rfl⟩
    exact H.below i b' hi hb'

namespace Exact

/-- **The search for the next bucket ends inside the table.** -/
theorem inside (H : g.Exact m) (hnext : g.next = some i) (hused : g.old.used ≠ 0) :
    ∃ b j, g.old.table = some b ∧ i ≤ j ∧ j < g.old.cap ∧ m (b.get j) ≠ 0 := by
  cases hb : g.old.table with
  | none =>
      rw [H.old.used_eq, hb] at hused
      exact absurd rfl hused
  | some b =>
      rw [H.old.used_eq, hb, Option.elim_some, ne_eq, total_eq_zero_iff] at hused
      push Not at hused
      rcases hused with ⟨j, hj, hne⟩
      refine ⟨b, j, rfl, ?_, ?_, hne⟩
      · by_contra hlt
        exact hne (H.below i b hnext hb j (by omega))
      · rw [← H.old.size_eq b hb]
        exact hj

/-- The same for a search with a test that all buckets with contents pass. -/
theorem firstAt {p : γ → Bool} (hp : ∀ c, p c = false → m c = 0) (limit : ℕ) (H : g.Exact m)
    (hnext : g.next = some i) (hused : g.old.used ≠ 0) :
    ∃ b j, g.old.table = some b ∧ b.size = g.old.cap ∧ FirstAt p b i j ∧
      (g.old.cap < limit → probe p limit b (b.size + 1) i = some j) := by
  rcases H.inside hnext hused with ⟨b, j, hb, hle, hlt, hne⟩
  have hsize := H.old.size_eq b hb
  have hpass : p (b.get j) = true := by
    rw [← Bool.not_eq_false]
    exact mt (hp _) hne
  rcases exists_firstAt hle (hsize ▸ hlt) hpass with ⟨k, F⟩
  refine ⟨b, k, hb, hsize, F, fun hcap => ?_⟩
  have hk := F.lt
  exact F.probe_eq (by omega) _ (by omega)

/-- A bucket of the first table is exchanged; while a move is under way nothing is put
into an empty one. -/
theorem storeOld (H : g.Exact m) (hb : g.old.table = some b) (hi : i < b.size)
    (hn : n + m (b.get i) = g.old.used + m c) (hc : g.next.isSome → m (b.get i) = 0 → m c = 0) :
    Exact m { g with
      old := ⟨some { b with get := Function.update b.get i c }, g.old.cap, n⟩ } := by
  refine ⟨H.old.store hb hi hn, H.new, ?_⟩
  intro k b' hk hb' j hj
  cases hb'
  dsimp only
  have hzero := H.below k b hk hb j hj
  by_cases hji : j = i
  · subst hji
    rw [Function.update_self]
    exact hc (Option.isSome_iff_exists.mpr ⟨k, hk⟩) hzero
  · rw [Function.update_of_ne hji]
    exact hzero

/-- A bucket of the second table is exchanged. -/
theorem storeNew (H : g.Exact m) (hb : g.new.table = some b) (hi : i < b.size)
    (hn : n + m (b.get i) = g.new.used + m c) :
    Exact m { g with
      new := ⟨some { b with get := Function.update b.get i c }, g.new.cap, n⟩ } :=
  ⟨H.old, H.new.store hb hi hn, H.below⟩

/-- The next bucket has been moved, into whatever the second table is now. -/
theorem carry {t : Tally γ} (H : g.Exact m) (hb : g.old.table = some b) (hi : i < b.size)
    {k : ℕ} (hk : g.next = some k) (hskip : ∀ j, k ≤ j → j < i → m (b.get j) = 0)
    (hc : m c = 0) (ht : t.Exact m) :
    Exact m ⟨⟨some { b with get := Function.update b.get i c }, g.old.cap,
      g.old.used - m (b.get i)⟩, t, some (i + 1)⟩ := by
  have hle := H.old.le_used hb hi
  refine ⟨H.old.store hb hi (by omega), ht, ?_⟩
  intro l b' hl hb' j hj
  cases hb'
  cases hl
  dsimp only
  by_cases hji : j = i
  · rw [hji, Function.update_self]
    exact hc
  · rw [Function.update_of_ne hji]
    by_cases hjk : j < k
    · exact H.below k b hk hb j hjk
    · exact hskip j (by omega) (by omega)

/-- The second table takes the place of the first. -/
theorem swap (H : g.Exact m) (cap : ℕ) : Exact m ⟨g.new, ⟨none, cap, 0⟩, none⟩ :=
  ⟨H.new, Tally.exact_none cap, by simp⟩

/-- A move begins. -/
theorem start {t : Tally γ} (H : g.Exact m) (ht : t.Exact m) : Exact m ⟨g.old, t, some 0⟩ := by
  refine ⟨H.old, ht, ?_⟩
  intro i _ hi _ j hj
  cases hi
  omega

/-- Outside a move the first table may be any. -/
theorem replaceOld {t : Tally γ} (H : g.Exact m) (ht : t.Exact m) : Exact m ⟨t, g.new, none⟩ :=
  ⟨ht, H.new, by simp⟩

end Exact

end Migration

/-! ## What is moved -/

section Apart
variable {β : Type} {place : β → Option ℕ} {same : β → β → Prop} {dest : ℕ → List β}
  {x : β} {xs : List β} {i : ℕ}

/-- No element of the list meets its like where it goes: not what is in the bucket `dest`
already, and not an element that is moved there before it. -/
def Apart (place : β → Option ℕ) (same : β → β → Prop) (dest : ℕ → List β) (xs : List β) : Prop :=
  xs.Pairwise (fun x y => place x = place y → ¬ same y x) ∧
    ∀ x ∈ xs, ∀ i ∈ place x, ∀ y ∈ dest i, ¬ same x y

instance [DecidableRel same] : Decidable (Apart place same dest xs) :=
  inferInstanceAs (Decidable (_ ∧ _))

/-- Translated elements meet their likes as what they are translated to. -/
theorem apart_map {δ : Type} (f : δ → β) (dest : ℕ → List δ) (xs : List δ) :
    Apart place same (fun i => (dest i).map f) (xs.map f) ↔
      Apart (place ∘ f) (fun x y => same (f x) (f y)) dest xs := by
  rw [Apart, Apart, List.pairwise_map]
  simp only [List.forall_mem_map, Function.comp_apply]

theorem Apart.head (H : Apart place same dest (x :: xs)) (hx : place x = some i) :
    ∀ y ∈ dest i, ¬ same x y := H.2 x (by simp) i hx

/-- When the first element has been moved, the others can still be. -/
theorem Apart.tail (H : Apart place same dest (x :: xs)) (hx : place x = some i) :
    Apart place same (Function.update dest i (x :: dest i)) xs := by
  rcases H with ⟨hpair, hdest⟩
  rw [List.pairwise_cons] at hpair
  refine ⟨hpair.2, ?_⟩
  intro z hz j hj y hy
  by_cases hji : j = i
  · subst hji
    rw [Function.update_self] at hy
    rcases List.mem_cons.mp hy with rfl | hy
    · exact hpair.1 z hz (hx.trans hj.symm)
    · exact hdest z (by simp [hz]) j hj y hy
  · rw [Function.update_of_ne hji] at hy
    exact hdest z (by simp [hz]) j hj y hy

end Apart

end Lib
