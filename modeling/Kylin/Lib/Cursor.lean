import Mathlib.Data.Int.Notation
import Mathlib.Data.List.Induction
import Mathlib.Data.List.Nodup
import Mathlib.Data.List.Perm.Basic
import Mathlib.Tactic.Common

/-!
# Walking over a hash table

A hash table with chains that is being moved from one array to another is walked over by a
pointer to a node, and nothing else: within a chain the links lead on, and at its end the
place of the node is looked up again, by its hash and by comparing, to go to the next
chain, or from the first array to the second.

A pointer to a node is the chain from that node on, and `NULL` is the empty chain.  Reading
outside an array is `none`.

## Main definitions

* `Visits` — a walk from a pointer to `NULL`, with the nodes it meets.
* `ChainTable` — an array of chains; `scan`, `scanDown`, `advance`, `retreat` are the loops
  over it.
* `TwoTables` — two arrays with a hash and a comparison; `first`, `last`, `next`, `prev`.
* `TwoTables.Proper` — every node is where its hash says, and compares equal to itself only.

## Main results

* `TwoTables.Proper.next_end_fst`, `next_end_snd`, `prev_in`, `prev_start_fst`,
  `prev_start_snd` — one step of a walk.
* `TwoTables.Proper.walks_iff` — the walks from both ends meet every node once exactly if,
  during a move, both arrays hold nodes or none does.
-/

namespace Lib

variable {ν : Type}

/-! ## Walks -/

/-- Following `f` from a pointer to `NULL` meets the nodes `xs`, in this order. -/
inductive Visits (f : List ν → Option (List ν)) : List ν → List ν → Prop
  | nil : Visits f [] []
  | cons {x : ν} {behind p xs : List ν} : f (x :: behind) = some p → Visits f p xs →
      Visits f (x :: behind) (x :: xs)

/-- The first of two pointers that is not `NULL`. -/
def orElse : List ν → List ν → List ν
  | [], q => q
  | x :: p, _ => x :: p

/-- `while(node->next) node = node->next`. -/
def lastOf : List ν → List ν
  | [] => []
  | [x] => [x]
  | _ :: y :: p => lastOf (y :: p)

section Visits
variable {f : List ν → Option (List ν)} {whole p q xs : List ν}

@[simp] theorem orElse_nil (q : List ν) : orElse [] q = q := rfl

@[simp] theorem orElse_of_ne_nil (hp : p ≠ []) : orElse p q = p := by
  cases p with
  | nil => exact absurd rfl hp
  | cons => rfl

theorem lastOf_append (before : List ν) (x : ν) : lastOf (before ++ [x]) = [x] := by
  induction before with
  | nil => rfl
  | cons y ys ih =>
      cases ys with
      | nil => rfl
      | cons => exact ih

/-- A walk whose start is `NULL` under a condition, in a state of its own, starts where it
would without the condition. -/
theorem exists_start {σ : Type} {c : Prop} [Decidable c] {start : Option (List ν)} {s t : σ}
    {P : List ν → Prop} (hnull : c → start = some []) :
    (∃ p u, (if c then some ([], s) else start.map fun p => (p, t)) = some (p, u) ∧ P p) ↔
      ∃ p, start = some p ∧ P p := by
  by_cases hc : c
  · simp [hc, hnull hc]
  · simp [hc]

theorem Visits.eq_nil (h : Visits f [] xs) : xs = [] := by
  cases h
  rfl

/-- Along a chain, whose links are followed, and on from its end. -/
theorem Visits.chain (hlink : ∀ x y behind, f (x :: y :: behind) = some (y :: behind))
    (h : Visits f q xs) : ∀ before x, f [x] = some q →
      Visits f (before ++ [x]) (before ++ x :: xs) := by
  intro before x hend
  induction before with
  | nil => exact .cons hend h
  | cons y ys ih =>
      refine .cons ?_ ih
      cases ys with
      | nil => exact hlink y x []
      | cons z zs => exact hlink y z _

/-- Back along a chain, and on from its start. -/
theorem Visits.chain_back (h : Visits f q xs) (hstart : f whole = some q)
    (hback : ∀ before y x behind, whole = before ++ y :: x :: behind →
      f (x :: behind) = some (y :: x :: behind)) :
    ∀ before x behind, whole = before ++ x :: behind →
      Visits f (x :: behind) (x :: (before.reverse ++ xs)) := by
  intro before
  induction before using List.reverseRecOn with
  | nil =>
      intro x behind hwhole
      refine .cons ?_ h
      rw [← hstart, hwhole]
      rfl
  | append_singleton before y ih =>
      intro x behind hwhole
      rw [List.append_assoc] at hwhole
      refine .cons (hback before y x behind hwhole) ?_
      rw [List.reverse_append]
      exact ih y (x :: behind) hwhole

end Visits

/-! ## Arrays of chains -/

/-- An array of chains, with what the size and the mask of the array are said to be. -/
structure ChainTable (ν : Type) where
  load : ℕ → Option (List ν)
  cap : ℕ
  mask : ℕ

namespace ChainTable
variable {t : ChainTable ν} {hash : ν → Option ℕ} {i n : ℕ}

/-- The first of the `n` chains from `i` on that is not empty. -/
def scan (t : ChainTable ν) : ℕ → ℕ → Option (List ν)
  | 0, _ => some []
  | n + 1, i => do
      let chain ← t.load i
      if chain.isEmpty then t.scan n (i + 1) else some chain

/-- The end of the last of the first `n` chains that is not empty. -/
def scanDown (t : ChainTable ν) : ℕ → Option (List ν)
  | 0 => some []
  | n + 1 => do
      let chain ← t.load n
      if chain.isEmpty then t.scanDown n else some (lastOf chain)

/-- `while(++i < cap && table[i] == NULL)`, with `n` chains behind `i`. -/
def advance (t : ChainTable ν) : ℕ → ℕ → Option ℕ
  | 0, i => some (i + 1)
  | n + 1, i => do
      if (← t.load (i + 1)).isEmpty then t.advance n (i + 1) else some (i + 1)

/-- `while(--i >= 0 && table[i] == NULL)`; `-1` is `none`. -/
def retreat (t : ChainTable ν) : ℕ → Option (Option ℕ)
  | 0 => some none
  | i + 1 => do
      if (← t.load i).isEmpty then t.retreat i else some (some i)

/-- A chain; outside the array there is none. -/
def chain (t : ChainTable ν) (i : ℕ) : List ν := (t.load i).getD []

/-- The nodes of the `n` chains from `i` on. -/
def nodesFrom (t : ChainTable ν) (i n : ℕ) : List ν := (List.range' i n).flatMap t.chain

/-- The nodes of an array. -/
def nodes (t : ChainTable ν) : List ν := t.nodesFrom 0 t.cap

/-- The array is as large as it is said to be, masking a hash gives one of its chains, and
every node is in the chain of its hash. -/
structure Proper (t : ChainTable ν) (hash : ν → Option ℕ) : Prop where
  loads : ∀ i, i < t.cap → (t.load i).isSome
  masked : ∀ h, h &&& t.mask < t.cap
  placed : ∀ i, i < t.cap → ∀ x ∈ t.chain i, ∃ h, hash x = some h ∧ h &&& t.mask = i

theorem nodesFrom_succ (t : ChainTable ν) (i n : ℕ) :
    t.nodesFrom i (n + 1) = t.chain i ++ t.nodesFrom (i + 1) n := by
  simp [nodesFrom, List.range'_succ]

theorem nodesFrom_concat (t : ChainTable ν) (n : ℕ) :
    t.nodesFrom 0 (n + 1) = t.nodesFrom 0 n ++ t.chain n := by
  simp [nodesFrom, List.range'_concat]

theorem mem_nodes {x : ν} : x ∈ t.nodes ↔ ∃ i, i < t.cap ∧ x ∈ t.chain i := by
  simp [nodes, nodesFrom]

/-- The nodes translated. -/
def map {μ : Type} (f : ν → μ) (t : ChainTable ν) : ChainTable μ :=
  ⟨fun i => (t.load i).map (List.map f), t.cap, t.mask⟩

theorem chain_map {μ : Type} (f : ν → μ) (i : ℕ) : (t.map f).chain i = (t.chain i).map f := by
  simp only [chain, map]
  cases t.load i <;> rfl

theorem nodes_map {μ : Type} (f : ν → μ) : (t.map f).nodes = t.nodes.map f := by
  rw [nodes, nodes, nodesFrom, nodesFrom, List.map_flatMap]
  exact List.flatMap_congr fun i _ => chain_map f i

namespace Proper

theorem map {μ : Type} {f : ν → μ} {hash' : μ → Option ℕ} (P : t.Proper hash)
    (hhash : ∀ x, hash' (f x) = hash x) : (t.map f).Proper hash' where
  loads := fun i hi => by
    rw [ChainTable.map, Option.isSome_map]
    exact P.loads i hi
  masked := P.masked
  placed := fun i hi y hy => by
    rw [chain_map] at hy
    rcases List.mem_map.mp hy with ⟨x, hx, rfl⟩
    rw [hhash]
    exact P.placed i hi x hx

theorem load_eq (P : t.Proper hash) (hi : i < t.cap) : t.load i = some (t.chain i) := by
  rcases Option.isSome_iff_exists.mp (P.loads i hi) with ⟨c, hc⟩
  rw [chain, hc, Option.getD_some]

/-- Scanning returns `NULL` only where there is nothing. -/
theorem scan_eq (P : t.Proper hash) : ∀ n i, i + n ≤ t.cap →
    ∃ p, t.scan n i = some p ∧ (p = [] ↔ t.nodesFrom i n = []) := by
  intro n
  induction n with
  | zero => exact fun i _ => ⟨[], rfl, by simp [nodesFrom]⟩
  | succ n ih =>
      intro i hi
      rw [scan, P.load_eq (by omega), Option.bind_eq_bind, Option.bind_some, nodesFrom_succ]
      cases hc : t.chain i with
      | nil => simpa using ih (i + 1) (by omega)
      | cons x xs => exact ⟨x :: xs, by simp, by simp⟩

theorem scanDown_eq (P : t.Proper hash) : ∀ n, n ≤ t.cap →
    ∃ p, t.scanDown n = some p ∧ (p = [] ↔ t.nodesFrom 0 n = []) := by
  intro n
  induction n with
  | zero => exact fun _ => ⟨[], rfl, by simp [nodesFrom]⟩
  | succ n ih =>
      intro hn
      rw [scanDown, P.load_eq (by omega), Option.bind_eq_bind, Option.bind_some, nodesFrom_concat]
      rcases List.eq_nil_or_concat (t.chain n) with hc | ⟨before, x, hc⟩
      · simpa [hc] using ih (by omega)
      · rw [List.concat_eq_append] at hc
        exact ⟨[x], by simp [hc, lastOf_append], by simp [hc]⟩

/-- Advancing stops where a scan does, or at the end. -/
theorem advance_eq (P : t.Proper hash) : ∀ n i, i + 1 + n = t.cap →
    ∃ j p, t.advance n i = some j ∧ t.scan n (i + 1) = some p ∧
      (j = t.cap ∧ p = [] ∨ j < t.cap ∧ t.load j = some p ∧ p ≠ []) := by
  intro n
  induction n with
  | zero => exact fun i hi => ⟨i + 1, [], rfl, rfl, .inl ⟨by omega, rfl⟩⟩
  | succ n ih =>
      intro i hi
      have hload := P.load_eq (i := i + 1) (by omega)
      rw [advance, scan, hload, Option.bind_eq_bind, Option.bind_some, Option.bind_eq_bind,
        Option.bind_some]
      cases hc : t.chain (i + 1) with
      | nil => simpa using ih (i + 1) (by omega)
      | cons x xs =>
          rw [hc] at hload
          exact ⟨i + 1, x :: xs, by simp, by simp, .inr ⟨by omega, hload, by simp⟩⟩

/-- Retreating stops where a downward scan does, or before the start. -/
theorem retreat_eq (P : t.Proper hash) : ∀ i, i ≤ t.cap →
    ∃ r p, t.retreat i = some r ∧ t.scanDown i = some p ∧
      (r = none ∧ p = [] ∨ ∃ j c, r = some j ∧ t.load j = some c ∧ p = lastOf c ∧ p ≠ []) := by
  intro i
  induction i with
  | zero => exact fun _ => ⟨none, [], rfl, rfl, .inl ⟨rfl, rfl⟩⟩
  | succ i ih =>
      intro hi
      have hload := P.load_eq (i := i) (by omega)
      rw [retreat, scanDown, hload, Option.bind_eq_bind, Option.bind_some, Option.bind_eq_bind,
        Option.bind_some]
      rcases List.eq_nil_or_concat (t.chain i) with hc | ⟨before, x, hc⟩
      · simpa [hc] using ih (by omega)
      · rw [List.concat_eq_append] at hc
        refine ⟨some i, [x], by simp [hc], by simp [hc, lastOf_append], .inr ?_⟩
        exact ⟨i, before ++ [x], rfl, by rw [hload, hc], (lastOf_append _ _).symm, by simp⟩

/-- **Up through an array**, chain after chain, and on from its end. -/
theorem visits_up (P : t.Proper hash) {f : List ν → Option (List ν)} {q xs : List ν}
    (hlink : ∀ x y behind, f (x :: y :: behind) = some (y :: behind)) (h : Visits f q xs)
    (hend : ∀ i before x p, i < t.cap → t.chain i = before ++ [x] →
      t.scan (t.cap - (i + 1)) (i + 1) = some p → f [x] = some (orElse p q)) :
    ∀ n i p, i + n = t.cap → t.scan n i = some p →
      Visits f (orElse p q) (t.nodesFrom i n ++ xs) := by
  intro n
  induction n with
  | zero =>
      intro i p _ hp
      cases hp
      simpa [nodesFrom] using h
  | succ n ih =>
      intro i p hi hp
      rw [scan, P.load_eq (by omega), Option.bind_eq_bind, Option.bind_some] at hp
      rw [nodesFrom_succ, List.append_assoc]
      rcases List.eq_nil_or_concat (t.chain i) with hc | ⟨before, x, hc⟩
      · rw [hc] at hp ⊢
        exact ih (i + 1) p (by omega) hp
      · rw [List.concat_eq_append] at hc
        rw [hc, if_neg (by simp)] at hp
        cases hp
        rcases P.scan_eq n (i + 1) (by omega) with ⟨r, hr, -⟩
        have hstep := hend i before x r (by omega) hc
        rw [show t.cap - (i + 1) = n by omega] at hstep
        have hrest := (ih (i + 1) r (by omega) hr).chain hlink before x (hstep hr)
        rw [hc, orElse_of_ne_nil (by simp)]
        simpa using hrest

/-- **Down through an array**, and on from its start. -/
theorem visits_down (P : t.Proper hash) {f : List ν → Option (List ν)} {q xs : List ν}
    (h : Visits f q xs)
    (hback : ∀ i before y x behind, i < t.cap → t.chain i = before ++ y :: x :: behind →
      f (x :: behind) = some (y :: x :: behind))
    (hstart : ∀ i x behind p, i < t.cap → t.chain i = x :: behind → t.scanDown i = some p →
      f (x :: behind) = some (orElse p q)) :
    ∀ n p, n ≤ t.cap → t.scanDown n = some p →
      Visits f (orElse p q) ((t.nodesFrom 0 n).reverse ++ xs) := by
  intro n
  induction n with
  | zero =>
      intro p _ hp
      cases hp
      simpa [nodesFrom] using h
  | succ n ih =>
      intro p hn hp
      rw [scanDown, P.load_eq (by omega), Option.bind_eq_bind, Option.bind_some] at hp
      rw [nodesFrom_concat, List.reverse_append, List.append_assoc]
      rcases List.eq_nil_or_concat (t.chain n) with hc | ⟨before, x, hc⟩
      · rw [hc] at hp ⊢
        exact ih p (by omega) hp
      · rw [List.concat_eq_append] at hc
        rw [hc, if_neg (by simp), lastOf_append] at hp
        cases hp
        rcases P.scanDown_eq n (by omega) with ⟨r, hr, -⟩
        have hhead : f (t.chain n) = some (orElse r q) := by
          cases hcs : t.chain n with
          | nil => simp [hc] at hcs
          | cons y ys => exact hstart n y ys r (by omega) hcs hr
        have hrest := (ih r (by omega) hr).chain_back hhead
          (fun before y x behind => hback n before y x behind (by omega)) before x [] hc
        rw [hc, orElse_of_ne_nil (by simp)]
        simpa using hrest

end Proper

end ChainTable

/-! ## Two arrays -/

/-- The two arrays, whether the first is being moved into the second, and the callbacks. -/
structure TwoTables (ν : Type) where
  fst : Option (ChainTable ν)
  snd : Option (ChainTable ν)
  moving : Bool
  hash : ν → Option ℕ
  cmp : ν → ν → Option ℤ

namespace TwoTables

/-- The start of an array. -/
def head (t : Option (ChainTable ν)) : Option (List ν) := t.elim (some []) fun t => t.scan t.cap 0

/-- The end of an array. -/
def back (t : Option (ChainTable ν)) : Option (List ν) := t.elim (some []) fun t => t.scanDown t.cap

/-- Where a walk starts: always in the first array. -/
def first (T : TwoTables ν) : Option (List ν) := head T.fst

/-- Where a walk back starts: in the array that is inserted into. -/
def last (T : TwoTables ν) : Option (List ν) := back (if T.moving then T.snd else T.fst)

/-- The search for `x`, which is the end of a chain, from a node of chain `i` of array `t`
on.  When it is found: the next chain of the array, or else the first of the second array.
If that is empty too, the search goes on.  `none` is a search that ends. -/
def nextWalk (T : TwoTables ν) (second : Bool) (t : ChainTable ν) (x : ν) :
    ℕ → List ν → Option (Option (List ν))
  | _, [] => some none
  | i, y :: behind => do
      if (← T.cmp x y) = 0 then
        let j ← t.advance (t.cap - (i + 1)) i
        if j = t.cap then
          if second || T.snd.isNone then some (some [])
          else do
            let p ← head T.snd
            if p.isEmpty then T.nextWalk second t x j behind else some (some p)
        else do some (some (← t.load j))
      else T.nextWalk second t x i behind

/-- The node behind a node. -/
def next (T : TwoTables ν) : List ν → Option (List ν)
  | [] => none
  | _ :: y :: behind => some (y :: behind)
  | [x] => do
      let h ← T.hash x
      T.fst.elim (some []) fun t => do
        match ← T.nextWalk false t x (h &&& t.mask) (← t.load (h &&& t.mask)) with
        | some p => some p
        | none => T.snd.elim (some []) fun t => do
            match ← T.nextWalk true t x (h &&& t.mask) (← t.load (h &&& t.mask)) with
            | some p => some p
            | none => some []

/-- The search for `x` from a node of chain `i` of array `t` on, `p` being the node before.
When it is found: `p`, or else the end of the chain before in the array, or else the end of
the first array.  If that is empty too, the search goes on. -/
def prevWalk (T : TwoTables ν) (second : Bool) (t : ChainTable ν) (x : ν) (i : ℕ) :
    List ν → List ν → Option (Option (List ν))
  | _, [] => some none
  | p, y :: behind => do
      if (← T.cmp x y) = 0 then
        if p.isEmpty then do
          match ← t.retreat i with
          | none =>
              if !second || T.fst.isNone then some (some [])
              else do
                let q ← back T.fst
                if q.isEmpty then T.prevWalk second t x i (y :: behind) behind
                else some (some q)
          | some j => do some (some (lastOf (← t.load j)))
        else some (some p)
      else T.prevWalk second t x i (y :: behind) behind

/-- The node before a node. -/
def prev (T : TwoTables ν) : List ν → Option (List ν)
  | [] => none
  | x :: _ => do
      let h ← T.hash x
      T.fst.elim (some []) fun t => do
        match ← T.prevWalk false t x (h &&& t.mask) [] (← t.load (h &&& t.mask)) with
        | some p => some p
        | none => T.snd.elim (some []) fun t => do
            match ← T.prevWalk true t x (h &&& t.mask) [] (← t.load (h &&& t.mask)) with
            | some p => some p
            | none => some []

/-- An array of the two. -/
def array (T : TwoTables ν) (second : Bool) : Option (ChainTable ν) :=
  if second then T.snd else T.fst

/-- The nodes of an array, if it is there. -/
def nodesOf (t : Option (ChainTable ν)) : List ν := t.elim [] ChainTable.nodes

/-- The nodes of both arrays. -/
def nodes (T : TwoTables ν) : List ν := nodesOf T.fst ++ nodesOf T.snd

theorem nodesOf_of_eq {o : Option (ChainTable ν)} {t : ChainTable ν} (h : o = some t) :
    nodesOf o = t.nodes := by
  rw [h]
  rfl

theorem mem_nodes {T : TwoTables ν} {second : Bool} {t : ChainTable ν} {x : ν}
    (ht : T.array second = some t) (hx : x ∈ t.nodes) : x ∈ T.nodes := by
  rw [← nodesOf_of_eq ht] at hx
  cases second with
  | false => exact List.mem_append_left _ hx
  | true => exact List.mem_append_right _ hx

/-- Both arrays are proper, no node is in two places, two nodes compare equal only if they
are one, and the second array is there only during a move. -/
structure Proper (T : TwoTables ν) : Prop where
  fst : ∀ t, T.fst = some t → t.Proper T.hash
  snd : ∀ t, T.snd = some t → t.Proper T.hash
  nodup : T.nodes.Nodup
  cmp_zero : ∀ x ∈ T.nodes, ∀ y ∈ T.nodes, ∃ z, T.cmp x y = some z ∧ (z = 0 ↔ x = y)
  idle : T.moving = false → T.snd = none

theorem nodesOf_map {μ : Type} (f : ν → μ) (o : Option (ChainTable ν)) :
    nodesOf (o.map (ChainTable.map f)) = (nodesOf o).map f := by
  cases o with
  | none => rfl
  | some t => exact ChainTable.nodes_map f

/-- The nodes translated: a translation that keeps hashes and comparisons and tells the nodes
apart keeps the arrays proper. -/
theorem Proper.map {μ : Type} {T : TwoTables ν} {T' : TwoTables μ} {f : ν → μ} (P : T.Proper)
    (hfst : T'.fst = T.fst.map (ChainTable.map f)) (hsnd : T'.snd = T.snd.map (ChainTable.map f))
    (hmoving : T'.moving = T.moving) (hhash : ∀ x, T'.hash (f x) = T.hash x)
    (hcmp : ∀ x y, T'.cmp (f x) (f y) = T.cmp x y)
    (hinj : ∀ x ∈ T.nodes, ∀ y ∈ T.nodes, f x = f y → x = y) : T'.Proper := by
  have hnodes : T'.nodes = T.nodes.map f := by
    rw [nodes, nodes, hfst, hsnd, nodesOf_map, nodesOf_map, List.map_append]
  refine ⟨fun t ht => ?_, fun t ht => ?_, ?_, ?_, fun hidle => ?_⟩
  · rw [hfst] at ht
    rcases Option.map_eq_some_iff.mp ht with ⟨u, hu, rfl⟩
    exact (P.fst u hu).map hhash
  · rw [hsnd] at ht
    rcases Option.map_eq_some_iff.mp ht with ⟨u, hu, rfl⟩
    exact (P.snd u hu).map hhash
  · rw [hnodes]
    exact P.nodup.map_on hinj
  · rw [hnodes]
    intro y hy z hz
    rcases List.mem_map.mp hy with ⟨a, ha, rfl⟩
    rcases List.mem_map.mp hz with ⟨b, hb, rfl⟩
    rcases P.cmp_zero a ha b hb with ⟨n, hn, hzero⟩
    refine ⟨n, by rw [hcmp, hn], hzero.trans ⟨congrArg f, hinj a ha b hb⟩⟩
  · rw [hsnd, P.idle (hmoving ▸ hidle)]
    rfl

section Search
variable {T : TwoTables ν} {second : Bool} {t u : ChainTable ν} {x : ν} {i : ℕ}
  {before behind p : List ν}

/-- The search passes by what does not compare equal. -/
theorem nextWalk_skip (h : ∀ y ∈ before, ∃ z, T.cmp x y = some z ∧ z ≠ 0) :
    T.nextWalk second t x i (before ++ behind) = T.nextWalk second t x i behind := by
  induction before with
  | nil => rfl
  | cons y ys ih =>
      rcases h y (by simp) with ⟨z, hz, hne⟩
      have hys := ih fun y hy => h y (by simp [hy])
      simp [nextWalk, hz, hne, hys]

theorem nextWalk_skip_all (h : ∀ y ∈ before, ∃ z, T.cmp x y = some z ∧ z ≠ 0) :
    T.nextWalk second t x i before = some none := by
  rw [← List.append_nil before, nextWalk_skip h]
  rfl

/-- Passing by, the search keeps the node before: the pointer to the last node it passed. -/
theorem prevWalk_skip {y : ν} (hy : ∃ z, T.cmp x y = some z ∧ z ≠ 0) :
    T.prevWalk second t x i p (y :: behind) = T.prevWalk second t x i (y :: behind) behind := by
  rcases hy with ⟨z, hz, hne⟩
  simp [prevWalk, hz, hne]

theorem prevWalk_skip_all (h : ∀ y ∈ before, ∃ z, T.cmp x y = some z ∧ z ≠ 0) :
    T.prevWalk second t x i p before = some none := by
  induction before generalizing p with
  | nil => rfl
  | cons y ys ih =>
      rw [prevWalk_skip (h y (by simp))]
      exact ih fun y hy => h y (by simp [hy])

/-- A node that is not the first of its chain: the search returns the one before it. -/
theorem prevWalk_found {y : ν} (hself : T.cmp x x = some 0) (hy : ∃ z, T.cmp x y = some z ∧ z ≠ 0)
    (h : ∀ y ∈ before, ∃ z, T.cmp x y = some z ∧ z ≠ 0) :
    T.prevWalk second t x i p (before ++ y :: x :: behind) = some (some (y :: x :: behind)) := by
  induction before generalizing p with
  | nil =>
      rw [List.nil_append, prevWalk_skip hy]
      simp [prevWalk, hself]
  | cons z zs ih =>
      rw [List.cons_append, prevWalk_skip (h z (by simp))]
      exact ih fun y hy => h y (by simp [hy])

end Search

namespace Proper
variable {T : TwoTables ν} {second : Bool} {t u : ChainTable ν} {x y : ν} {i : ℕ}
  {before behind p q : List ν}

theorem proper (P : T.Proper) (ht : T.array second = some t) : t.Proper T.hash := by
  cases second with
  | false => exact P.fst t ht
  | true => exact P.snd t ht

theorem nodup_array (P : T.Proper) (ht : T.array second = some t) : t.nodes.Nodup := by
  have h := List.nodup_append.mp P.nodup
  rw [← nodesOf_of_eq ht]
  cases second with
  | false => exact h.1
  | true => exact h.2.1

/-- A node is not in both arrays. -/
theorem ne_of_mem (P : T.Proper) (ht : T.array second = some t) (hu : T.array (!second) = some u)
    (hx : x ∈ t.nodes) (hy : y ∈ u.nodes) : x ≠ y := by
  have h := (List.nodup_append.mp P.nodup).2.2
  rw [← nodesOf_of_eq ht] at hx
  rw [← nodesOf_of_eq hu] at hy
  cases second with
  | false => exact h x hx y hy
  | true => exact (h y hy x hx).symm

theorem cmp_self (P : T.Proper) (hx : x ∈ T.nodes) : T.cmp x x = some 0 := by
  rcases P.cmp_zero x hx x hx with ⟨z, hz, hzero⟩
  rw [hz, hzero.mpr rfl]

theorem cmp_ne (P : T.Proper) (hx : x ∈ T.nodes) (hy : y ∈ T.nodes) (hne : x ≠ y) :
    ∃ z, T.cmp x y = some z ∧ z ≠ 0 := by
  rcases P.cmp_zero x hx y hy with ⟨z, hz, hzero⟩
  exact ⟨z, hz, fun h => hne (hzero.mp h)⟩

/-- The other nodes of the chain of a node do not compare equal to it, -/
theorem cmp_chain (P : T.Proper) (second : Bool) (ht : T.array second = some t) (hi : i < t.cap)
    (hchain : t.chain i = before ++ x :: behind) :
    x ∈ t.nodes ∧ ∀ y ∈ before ++ behind, ∃ z, T.cmp x y = some z ∧ z ≠ 0 := by
  have hmem : ∀ y ∈ before ++ x :: behind, y ∈ t.nodes := by
    intro y hy
    exact ChainTable.mem_nodes.mpr ⟨i, hi, by rwa [hchain]⟩
  have hnodup := (List.nodup_flatMap.mp (P.nodup_array ht)).1 i (by simpa using hi)
  rw [hchain, List.nodup_middle, List.nodup_cons] at hnodup
  refine ⟨hmem x (by simp), fun y hy => ?_⟩
  have hy' : y ∈ before ++ x :: behind := by
    rcases List.mem_append.mp hy with hy | hy <;> simp [hy]
  refine P.cmp_ne (mem_nodes ht (hmem x (by simp))) (mem_nodes ht (hmem y hy')) ?_
  rintro rfl
  exact hnodup.1 hy

/-- nor do those of the other array. -/
theorem cmp_other (P : T.Proper) (second : Bool) (ht : T.array second = some t)
    (hu : T.array (!second) = some u) (hx : x ∈ t.nodes) (hi : i < u.cap) :
    ∀ y ∈ u.chain i, ∃ z, T.cmp x y = some z ∧ z ≠ 0 := by
  intro y hy
  have hy' : y ∈ u.nodes := ChainTable.mem_nodes.mpr ⟨i, hi, hy⟩
  exact P.cmp_ne (mem_nodes ht hx) (mem_nodes hu hy') (P.ne_of_mem ht hu hx hy')

/-- What the search for the end of a chain returns. -/
theorem nextWalk_end (P : T.Proper) (second : Bool) (ht : T.array second = some t) (hi : i < t.cap)
    (hchain : t.chain i = before ++ [x])
    (hscan : t.scan (t.cap - (i + 1)) (i + 1) = some p) (hq : head T.snd = some q) :
    T.nextWalk second t x i (t.chain i) =
      some (if p.isEmpty && q.isEmpty && !(second || T.snd.isNone) then none
        else some (orElse p (if second then [] else q))) := by
  rcases P.cmp_chain second ht hi hchain with ⟨hx, hskip⟩
  rw [hchain, nextWalk_skip fun y hy => hskip y (by simpa using hy), nextWalk,
    P.cmp_self (mem_nodes ht hx)]
  rcases (P.proper ht).advance_eq (t.cap - (i + 1)) i (by omega) with ⟨j, p', hj, hp', hcase⟩
  rw [hscan] at hp'
  cases hp'
  rcases hcase with ⟨hjcap, hnil⟩ | ⟨hlt, hload, hne⟩
  · -- the end of the array
    subst hnil
    cases second with
    | true => simp [hj, hjcap]
    | false =>
        cases hsnd : T.snd with
        | none =>
            rw [hsnd] at hq
            cases hq
            simp [hj, hjcap]
        | some u =>
            rw [hsnd] at hq
            by_cases hqe : q = []
            · simp [hj, hjcap, hq, hqe, nextWalk]
            · simp [hj, hjcap, hq, hqe]
  · simp [hj, Nat.ne_of_lt hlt, hload, hne]

/-- **The step from the end of a chain of the first array.** -/
theorem next_end_fst (P : T.Proper) (ht : T.fst = some t) (hi : i < t.cap)
    (hchain : t.chain i = before ++ [x])
    (hscan : t.scan (t.cap - (i + 1)) (i + 1) = some p) (hq : head T.snd = some q) :
    T.next [x] = some (orElse p q) := by
  have hx := (P.cmp_chain false ht hi hchain).1
  rcases (P.fst t ht).placed i hi x (by rw [hchain]; simp) with ⟨h, hh, hmask⟩
  have hwalk := P.nextWalk_end false ht hi hchain hscan hq
  rw [next, hh, Option.bind_eq_bind, Option.bind_some, ht, Option.elim_some, hmask,
    (P.fst t ht).load_eq hi, Option.bind_eq_bind, Option.bind_some, hwalk, Option.bind_eq_bind,
    Option.bind_some]
  cases hsnd : T.snd with
  | none => simp
  | some u =>
      by_cases hnil : p = [] ∧ q = []
      · -- nothing behind: the search goes on in the second array
        have hlt := (P.snd u hsnd).masked h
        have hother : T.nextWalk true u x (h &&& u.mask) (u.chain (h &&& u.mask)) = some none :=
          nextWalk_skip_all (P.cmp_other false ht hsnd hx hlt)
        simp [hnil.1, hnil.2, (P.snd u hsnd).load_eq hlt, hother]
      · by_cases hp : p = []
        · have hq' : q ≠ [] := fun h => hnil ⟨hp, h⟩
          simp [hp, hq']
        · simp [hp]

/-- **The step from the end of a chain of the second array.** -/
theorem next_end_snd (P : T.Proper) (ht : T.fst = some t) (hu : T.snd = some u) (hi : i < u.cap)
    (hchain : u.chain i = before ++ [x])
    (hscan : u.scan (u.cap - (i + 1)) (i + 1) = some p) : T.next [x] = some p := by
  have hx := (P.cmp_chain true hu hi hchain).1
  rcases (P.snd u hu).placed i hi x (by rw [hchain]; simp) with ⟨h, hh, hmask⟩
  rcases (P.snd u hu).scan_eq u.cap 0 (by omega) with ⟨q, hq, -⟩
  have hwalk := P.nextWalk_end true hu hi hchain hscan (q := q) (by rw [hu]; exact hq)
  have hlt := (P.fst t ht).masked h
  have hother : T.nextWalk false t x (h &&& t.mask) (t.chain (h &&& t.mask)) = some none :=
    nextWalk_skip_all (P.cmp_other true hu ht hx hlt)
  have hp : orElse p [] = p := by cases p <;> rfl
  simp [next, hh, ht, hu, (P.fst t ht).load_eq hlt, hother, hmask, (P.snd u hu).load_eq hi, hwalk,
    hp]

/-- What the search for the start of a chain returns. -/
theorem prevWalk_start (P : T.Proper) (second : Bool) (ht : T.array second = some t)
    (hi : i < t.cap) (hchain : t.chain i = x :: behind) (hscan : t.scanDown i = some p)
    (hq : back T.fst = some q) :
    T.prevWalk second t x i [] (t.chain i) =
      some (if p.isEmpty && q.isEmpty && second && T.fst.isSome then none
        else some (orElse p (if second then q else []))) := by
  have hsplit : t.chain i = [] ++ x :: behind := hchain
  rcases P.cmp_chain second ht hi hsplit with ⟨hx, hskip⟩
  rw [hchain, prevWalk, P.cmp_self (mem_nodes ht hx)]
  rcases (P.proper ht).retreat_eq i (Nat.le_of_lt hi) with ⟨r, p', hr, hp', hcase⟩
  rw [hscan] at hp'
  cases hp'
  rcases hcase with ⟨rfl, rfl⟩ | ⟨j, c, rfl, hload, rfl, hne⟩
  · -- the start of the array
    cases second with
    | false => simp [hr]
    | true =>
        cases hfst : T.fst with
        | none =>
            rw [hfst] at hq
            cases hq
            simp [hr]
        | some u =>
            rw [hfst] at hq
            by_cases hqe : q = []
            · have hrest : T.prevWalk true t x i (x :: behind) behind = some none :=
                prevWalk_skip_all fun y hy => hskip y (by simpa using hy)
              simp [hr, hq, hqe, hrest]
            · simp [hr, hq, hqe]
  · simp [hr, hload, hne]


/-- The search leaves the array that the node is not in, and returns what it finds in the
array of the node. -/
theorem prev_eq_fst (P : T.Proper) (ht : T.fst = some t) (hi : i < t.cap)
    (hx : x ∈ t.chain i) (hwalk : T.prevWalk false t x i [] (t.chain i) = some (some p)) :
    T.prev (x :: behind) = some p := by
  rcases (P.fst t ht).placed i hi x hx with ⟨h, hh, hmask⟩
  simp [prev, hh, ht, hmask, (P.fst t ht).load_eq hi, hwalk]

theorem prev_eq_snd (P : T.Proper) (ht : T.fst = some t) (hu : T.snd = some u) (hi : i < u.cap)
    (hx : x ∈ u.chain i) {r : Option (List ν)}
    (hwalk : T.prevWalk true u x i [] (u.chain i) = some r) :
    T.prev (x :: behind) = some (r.getD []) := by
  rcases (P.snd u hu).placed i hi x hx with ⟨h, hh, hmask⟩
  have hlt := (P.fst t ht).masked h
  have hother : T.prevWalk false t x (h &&& t.mask) [] (t.chain (h &&& t.mask)) = some none :=
    prevWalk_skip_all (P.cmp_other true hu ht (ChainTable.mem_nodes.mpr ⟨i, hi, hx⟩) hlt)
  cases r <;>
    simp [prev, hh, ht, hu, (P.fst t ht).load_eq hlt, hother, hmask, (P.snd u hu).load_eq hi, hwalk]

/-- **The step back within a chain.** -/
theorem prev_in (P : T.Proper) (ht : T.fst = some t) (second : Bool) (hu : T.array second = some u)
    (hi : i < u.cap) (hchain : u.chain i = before ++ y :: x :: behind) :
    T.prev (x :: behind) = some (y :: x :: behind) := by
  have hsplit : u.chain i = (before ++ [y]) ++ x :: behind := by simp [hchain]
  rcases P.cmp_chain second hu hi hsplit with ⟨hx, hskip⟩
  have hmem : x ∈ u.chain i := by simp [hchain]
  have hwalk : T.prevWalk second u x i [] (u.chain i) = some (some (y :: x :: behind)) := by
    rw [hchain]
    refine prevWalk_found (P.cmp_self (mem_nodes hu hx)) (hskip y (by simp)) ?_
    intro z hz
    exact hskip z (by simp [hz])
  cases second with
  | false => exact P.prev_eq_fst hu hi hmem hwalk
  | true => exact P.prev_eq_snd ht hu hi hmem hwalk

/-- **The step back from the start of a chain of the first array.** -/
theorem prev_start_fst (P : T.Proper) (ht : T.fst = some t) (hi : i < t.cap)
    (hchain : t.chain i = x :: behind) (hscan : t.scanDown i = some p) :
    T.prev (x :: behind) = some p := by
  rcases (P.fst t ht).scanDown_eq t.cap (Nat.le_refl _) with ⟨q, hq, -⟩
  have hback : back T.fst = some q := by rw [ht]; exact hq
  have hwalk := P.prevWalk_start false ht hi hchain hscan hback
  have hp : orElse p [] = p := by cases p <;> rfl
  refine P.prev_eq_fst ht hi (by simp [hchain]) ?_
  simpa [hp] using hwalk

/-- **The step back from the start of a chain of the second array.** -/
theorem prev_start_snd (P : T.Proper) (ht : T.fst = some t) (hu : T.snd = some u) (hi : i < u.cap)
    (hchain : u.chain i = x :: behind) (hscan : u.scanDown i = some p)
    (hq : back T.fst = some q) : T.prev (x :: behind) = some (orElse p q) := by
  have hwalk := P.prevWalk_start true hu hi hchain hscan hq
  rw [P.prev_eq_snd ht hu hi (by simp [hchain]) hwalk]
  by_cases hnil : p = [] ∧ q = []
  · simp [hnil.1, hnil.2, ht]
  · have hne : (p.isEmpty && q.isEmpty) = false := by
      simpa [Bool.and_eq_false_iff, not_and_or] using hnil
    simp [hne]

theorem head_eq (P : T.Proper) (second : Bool) :
    ∃ p, head (T.array second) = some p ∧ (p = [] ↔ nodesOf (T.array second) = []) := by
  cases ht : T.array second with
  | none => exact ⟨[], rfl, Iff.rfl⟩
  | some t => exact (P.proper ht).scan_eq t.cap 0 (by omega)

theorem back_eq (P : T.Proper) (second : Bool) :
    ∃ p, back (T.array second) = some p ∧ (p = [] ↔ nodesOf (T.array second) = []) := by
  cases ht : T.array second with
  | none => exact ⟨[], rfl, Iff.rfl⟩
  | some t => exact (P.proper ht).scanDown_eq t.cap (Nat.le_refl _)

/-- **Walking on**, from the first node that there is. -/
theorem visits_next (P : T.Proper) (ht : T.fst = some t) (hp : head T.fst = some p)
    (hq : head T.snd = some q) : Visits T.next (orElse p q) T.nodes := by
  have hlink : ∀ x y behind, T.next (x :: y :: behind) = some (y :: behind) := fun _ _ _ => rfl
  have hsnd : Visits T.next q (nodesOf T.snd) := by
    cases hu : T.snd with
    | none =>
        rw [hu] at hq
        cases hq
        exact .nil
    | some u =>
        rw [hu] at hq
        have h := (P.snd u hu).visits_up hlink .nil (fun i before x p hi hchain hscan => by
          rw [P.next_end_snd ht hu hi hchain hscan]
          cases p <;> rfl) u.cap 0 q (by omega) hq
        have hq' : orElse q [] = q := by cases q <;> rfl
        rwa [hq', List.append_nil] at h
  rw [ht] at hp
  rw [nodes, nodesOf_of_eq ht]
  exact (P.fst t ht).visits_up hlink hsnd
    (fun i before x p hi hchain hscan => P.next_end_fst ht hi hchain hscan hq) t.cap 0 p
    (by omega) hp

/-- **Walking back**, from the last node that there is. -/
theorem visits_prev (P : T.Proper) (ht : T.fst = some t) (hp : back T.fst = some p)
    (hq : back T.snd = some q) : Visits T.prev (orElse q p) T.nodes.reverse := by
  have hfst : Visits T.prev p (nodesOf T.fst).reverse := by
    have hp' := hp
    rw [ht] at hp'
    have h := (P.fst t ht).visits_down .nil
      (fun i before y x behind hi hchain => P.prev_in ht false ht hi hchain)
      (fun i x behind p hi hchain hscan => by
        rw [P.prev_start_fst ht hi hchain hscan]
        cases p <;> rfl) t.cap p (Nat.le_refl _) hp'
    have hnil : orElse p [] = p := by cases p <;> rfl
    rwa [hnil, List.append_nil, ← ChainTable.nodes, ← nodesOf_of_eq ht] at h
  cases hu : T.snd with
  | none =>
      rw [hu] at hq
      cases hq
      simpa [nodes, hu, nodesOf] using hfst
  | some u =>
      rw [hu] at hq
      have h := (P.snd u hu).visits_down hfst
        (fun i before y x behind hi hchain => P.prev_in ht true hu hi hchain)
        (fun i x behind p hi hchain hscan => P.prev_start_snd ht hu hi hchain hscan hp)
        u.cap q (Nat.le_refl _) hq
      rwa [nodes, List.reverse_append, nodesOf_of_eq hu]

end Proper

/-- **The walks are complete**: from the first node on every node is met once, and from the
last one back the same in the reverse order. -/
def Walks (T : TwoTables ν) : Prop :=
  ∃ xs, xs.Perm T.nodes ∧ (∃ p, T.first = some p ∧ Visits T.next p xs) ∧
    ∃ p, T.last = some p ∧ Visits T.prev p xs.reverse

/-- During a move both arrays hold nodes, or none does. -/
def Balanced (T : TwoTables ν) : Prop :=
  T.moving = true → (nodesOf T.fst = [] ↔ nodesOf T.snd = [])

section Walks
variable {T : TwoTables ν}

theorem Proper.walks_of_nodes_eq_nil (P : T.Proper) (h : T.nodes = []) : T.Walks := by
  rw [nodes, List.append_eq_nil_iff] at h
  have hnil : ∀ second, nodesOf (T.array second) = [] := by
    intro second
    cases second with
    | false => exact h.1
    | true => exact h.2
  rcases P.head_eq false with ⟨p, hp, hp0⟩
  rcases P.back_eq T.moving with ⟨q, hq, hq0⟩
  refine ⟨[], by simp [nodes, h], ⟨[], ?_, .nil⟩, [], ?_, .nil⟩
  · rw [hp0.mpr (hnil false)] at hp
    exact hp
  · rw [hq0.mpr (hnil T.moving)] at hq
    exact hq

/-- Walks from both ends that meet every node do not start at `NULL` in one of two arrays. -/
theorem Proper.balanced_of_walks (P : T.Proper) (h : T.Walks) : T.Balanced := by
  intro hmoving
  rcases h with ⟨xs, hperm, ⟨p, hp, hfirst⟩, q, hq, hlast⟩
  rcases P.head_eq false with ⟨p', hp', hp0⟩
  rcases P.back_eq true with ⟨q', hq', hq0⟩
  have hpp : p = p' := Option.some.inj (hp.symm.trans hp')
  have hqq : q = q' := by
    rw [last, hmoving, if_pos rfl] at hq
    exact Option.some.inj (hq.symm.trans hq')
  subst hpp hqq
  -- a walk that starts at `NULL` meets nothing
  have hnodes : xs = [] → nodesOf T.fst = [] ∧ nodesOf T.snd = [] := by
    intro hxs
    rw [hxs] at hperm
    exact List.append_eq_nil_iff.mp (List.nil_perm.mp hperm)
  constructor
  · intro h0
    rw [hp0.mpr h0] at hfirst
    exact (hnodes hfirst.eq_nil).2
  · intro h1
    rw [hq0.mpr h1] at hlast
    exact (hnodes (List.reverse_eq_nil_iff.mp hlast.eq_nil)).1

theorem Proper.nodes_eq_nil (P : T.Proper) (hbal : T.Balanced) (h0 : nodesOf T.fst = []) :
    T.nodes = [] := by
  cases hmoving : T.moving with
  | false =>
      rw [nodes, h0, P.idle hmoving]
      rfl
  | true => simp [nodes, h0, (hbal hmoving).mp h0]

theorem Proper.walks_of_balanced (P : T.Proper) (hbal : T.Balanced) : T.Walks := by
  by_cases h0 : nodesOf T.fst = []
  · exact P.walks_of_nodes_eq_nil (P.nodes_eq_nil hbal h0)
  rcases P.head_eq false with ⟨p, hp, hp0⟩
  rcases P.head_eq true with ⟨q, hq, -⟩
  rcases P.back_eq false with ⟨r, hr, -⟩
  rcases P.back_eq true with ⟨s, hs, hs0⟩
  cases ht : T.fst with
  | none => exact absurd (by rw [ht]; rfl) h0
  | some t =>
      refine ⟨T.nodes, .refl _, ⟨p, hp, ?_⟩, ?_⟩
      · have h := P.visits_next ht hp hq
        rwa [orElse_of_ne_nil fun hnil => h0 (hp0.mp hnil)] at h
      · have h := P.visits_prev ht hr hs
        cases hmoving : T.moving with
        | false =>
            refine ⟨r, by rw [last, hmoving]; exact hr, ?_⟩
            have hs' : s = [] := hs0.mpr (by
              have hidle : T.array true = none := P.idle hmoving
              rw [hidle]
              rfl)
            rwa [hs'] at h
        | true =>
            refine ⟨s, by rw [last, hmoving]; exact hs, ?_⟩
            rwa [orElse_of_ne_nil fun hnil =>
              h0 ((hbal hmoving).mpr (hs0.mp hnil))] at h

/-- **When the walks are complete.** -/
theorem Proper.walks_iff (P : T.Proper) : T.Walks ↔ T.Balanced :=
  ⟨P.balanced_of_walks, P.walks_of_balanced⟩

end Walks

end TwoTables

end Lib
