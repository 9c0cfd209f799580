import Mathlib.Data.Option.Basic
import Mathlib.Data.Nat.Find
import Mathlib.Tactic.Common

/-!
# Loops that count

`for(int i = 0; i < n; i++)` with a counter of a bounded type: counting past `limit` is
undefined, so a loop of that many turns faults unless it is left before.

## Main definitions

* `forLoop` — a loop whose body changes a state.
* `seekLoop` — a loop that can be left by one of its turns with a result.
* `findLoop`, `anyLoop` — loops that are left at the first index that passes a test.
* `downLoop` — a loop that counts down to zero.
* `lastLoop` — one that is left at the first index that passes a test.

## Main results

* `forLoop_spec`, `downLoop_spec` — an invariant of the turns holds after the last.
* `forLoop_eq_none`, `forLoop_overflow` — loops that fault.
* `seekLoop_eq_some_iff` — the turn in which a loop is left.
* `findLoop_eq_some_iff`, `findLoop_eq_none_iff`, `anyLoop_eq_true_iff`,
  `anyLoop_eq_false_iff`, `lastLoop_eq_some_iff`, `lastLoop_eq_none_iff` — what a loop with a test
  returns.
-/

namespace Lib

variable {σ ρ : Type}

/-- `left` turns from the index `i` on. -/
def forLoop (limit : ℕ) (body : ℕ → σ → Option σ) : ℕ → ℕ → σ → Option σ
  | 0, _, s => some s
  | left + 1, i, s => do
      let s ← body i s
      if i + 1 < limit then forLoop limit body left (i + 1) s else none

/-- `left` turns from the index `i` on, until one of them has a result; `fin` is what comes behind
the last. -/
def seekLoop (limit : ℕ) (body : ℕ → Option (Option ρ)) (fin : Option ρ) : ℕ → ℕ → Option ρ
  | 0, _ => fin
  | left + 1, i => do
      match ← body i with
      | some r => some r
      | none => if i + 1 < limit then seekLoop limit body fin left (i + 1) else none

/-- The first of `left` indices from `i` on that passes the test. -/
def findLoop (limit : ℕ) (test : ℕ → Option Bool) : ℕ → ℕ → Option (Option ℕ) :=
  seekLoop limit (fun i => (test i).map fun b => if b then some (some i) else none) (some none)

/-- Whether one of `left` indices from `i` on passes the test. -/
def anyLoop (limit : ℕ) (test : ℕ → Option Bool) (left i : ℕ) : Option Bool :=
  (findLoop limit test left i).map Option.isSome

/-- Turns with the indices below `n`, the greatest first. -/
def downLoop (body : ℕ → σ → Option σ) : ℕ → σ → Option σ
  | 0, s => some s
  | n + 1, s => do
      let s ← body n s
      downLoop body n s

/-- The greatest index below `n` that passes the test. -/
def lastLoop (test : ℕ → Option Bool) : ℕ → Option (Option ℕ)
  | 0 => some none
  | n + 1 => (test n).bind fun b => if b then some (some n) else lastLoop test n

section Turns
variable {limit left i : ℕ} {body : ℕ → σ → Option σ} {s : σ} {I : ℕ → σ → Prop}

theorem forLoop_spec (hlimit : i + left < limit) (h : I i s)
    (hbody : ∀ j s, i ≤ j → j < i + left → I j s → ∃ s', body j s = some s' ∧ I (j + 1) s') :
    ∃ s', forLoop limit body left i s = some s' ∧ I (i + left) s' := by
  induction left generalizing i s with
  | zero => exact ⟨s, rfl, h⟩
  | succ left ih =>
      rcases hbody i s (Nat.le_refl i) (by omega) h with ⟨s₁, hs₁, h₁⟩
      rcases ih (i := i + 1) (by omega) h₁ (fun j s hj hlt => hbody j s (by omega) (by omega))
        with ⟨s', hs', h'⟩
      refine ⟨s', ?_, ?_⟩
      · rw [forLoop, hs₁, Option.bind_eq_bind, Option.bind_some, if_pos (by omega), hs']
      · rwa [Nat.add_right_comm] at h'

/-- A loop faults if one of its turns does. -/
theorem forLoop_eq_none {j : ℕ} (hle : i ≤ j) (hlt : j < i + left)
    (hbody : ∀ s, body j s = none) : forLoop limit body left i s = none := by
  induction left generalizing i s with
  | zero => omega
  | succ left ih =>
      rw [forLoop]
      by_cases hij : i = j
      · rw [hij, hbody]
        rfl
      · cases body i s with
        | none => rfl
        | some s₁ =>
            rw [Option.bind_eq_bind, Option.bind_some, ih (by omega) (by omega), ite_self]

/-- A loop faults if it counts too far. -/
theorem forLoop_overflow (hi : i < limit) (h : limit ≤ i + left) :
    forLoop limit body left i s = none := by
  induction left generalizing i s with
  | zero => omega
  | succ left ih =>
      rw [forLoop]
      cases body i s with
      | none => rfl
      | some s₁ =>
          rw [Option.bind_eq_bind, Option.bind_some]
          by_cases hnext : i + 1 < limit
          · rw [if_pos hnext, ih hnext (by omega)]
          · rw [if_neg hnext]

theorem downLoop_spec {n : ℕ} (h : I n s)
    (hbody : ∀ j s, j < n → I (j + 1) s → ∃ s', body j s = some s' ∧ I j s') :
    ∃ s', downLoop body n s = some s' ∧ I 0 s' := by
  induction n generalizing s with
  | zero => exact ⟨s, rfl, h⟩
  | succ n ih =>
      rcases hbody n s (Nat.lt_succ_self n) h with ⟨s₁, hs₁, h₁⟩
      rcases ih h₁ (fun j s hj => hbody j s (by omega)) with ⟨s', hs', h'⟩
      refine ⟨s', ?_, h'⟩
      rw [downLoop, hs₁, Option.bind_eq_bind, Option.bind_some, hs']

end Turns

section Seek
variable {limit left i : ℕ} {body : ℕ → Option (Option ρ)} {fin : Option ρ} {r : ρ}

/-- The turns from `i` on lead to the result `r`, either in one of them or behind the last. -/
def Leads (limit : ℕ) (body : ℕ → Option (Option ρ)) (fin : Option ρ) (left i : ℕ) (r : ρ) :
    Prop :=
  (∃ k, i ≤ k ∧ k < i + left ∧ k < limit ∧ body k = some (some r) ∧
      ∀ j, i ≤ j → j < k → body j = some none) ∨
    i + left < limit ∧ fin = some r ∧ ∀ j, i ≤ j → j < i + left → body j = some none

/-- The turn `i` has the result, or the turns after it lead there. -/
theorem leads_succ (hi : i < limit) :
    Leads limit body fin (left + 1) i r ↔ body i = some (some r) ∨
      body i = some none ∧ i + 1 < limit ∧ Leads limit body fin left (i + 1) r := by
  have hend : i + (left + 1) = i + 1 + left := by omega
  constructor
  · rintro (⟨k, hle, hlt, hlim, hk, hall⟩ | ⟨hlim, hfin, hall⟩)
    · rcases Nat.lt_or_eq_of_le hle with hik | rfl
      · refine Or.inr ⟨hall i (Nat.le_refl i) hik, by omega, Or.inl ?_⟩
        exact ⟨k, hik, by omega, hlim, hk, fun j hj hjk => hall j (by omega) hjk⟩
      · exact Or.inl hk
    · refine Or.inr ⟨hall i (Nat.le_refl i) (by omega), by omega, Or.inr ?_⟩
      exact ⟨hend ▸ hlim, hfin, fun j hj hjk => hall j (by omega) (by omega)⟩
  · -- the turn `i` goes on
    have hback : ∀ n, body i = some none → (∀ j, i + 1 ≤ j → j < n → body j = some none) →
        ∀ j, i ≤ j → j < n → body j = some none := by
      intro n hbody hall j hj hjn
      rcases Nat.lt_or_eq_of_le hj with hij | rfl
      · exact hall j hij hjn
      · exact hbody
    rintro (hbody | ⟨hbody, -, ⟨k, hle, hlt, hlim, hk, hall⟩ | ⟨hlim, hfin, hall⟩⟩)
    · refine Or.inl ⟨i, Nat.le_refl i, by omega, hi, hbody, fun j hj hji => ?_⟩
      omega
    · exact Or.inl ⟨k, by omega, by omega, hlim, hk, hback k hbody hall⟩
    · exact Or.inr ⟨hend ▸ hlim, hfin, hend ▸ hback _ hbody hall⟩

theorem seekLoop_eq_some_iff (hi : i < limit) :
    seekLoop limit body fin left i = some r ↔ Leads limit body fin left i r := by
  induction left generalizing i with
  | zero =>
      refine ⟨fun h => Or.inr ⟨hi, h, fun j hj hjk => ?_⟩, ?_⟩
      · omega
      · rintro (⟨k, hle, hlt, -⟩ | ⟨-, hfin, -⟩)
        · omega
        · exact hfin
  | succ left ih =>
      rw [seekLoop, leads_succ hi]
      rcases body i with - | - | r'
      · simp
      · rw [Option.bind_eq_bind, Option.bind_some]
        by_cases hnext : i + 1 < limit
        · simp [hnext, ih hnext]
        · simp [hnext]
      · simp

end Seek

section Test
variable {limit left i : ℕ} {test : ℕ → Option Bool} {t : ℕ → Bool}

theorem findLoop_succ : findLoop limit test (left + 1) i = (test i).bind fun b =>
    if b then some (some i)
    else if i + 1 < limit then findLoop limit test left (i + 1) else none := by
  rw [findLoop, seekLoop]
  rcases test i with - | - | - <;> rfl

theorem findLoop_eq_some_iff {k : ℕ} (hi : i < limit) :
    findLoop limit test left i = some (some k) ↔
      i ≤ k ∧ k < i + left ∧ k < limit ∧ test k = some true ∧
        ∀ j, i ≤ j → j < k → test j = some false := by
  rw [findLoop, seekLoop_eq_some_iff hi, Leads]
  simp

theorem findLoop_eq_none_iff (hi : i < limit) :
    findLoop limit test left i = some none ↔
      i + left < limit ∧ ∀ j, i ≤ j → j < i + left → test j = some false := by
  rw [findLoop, seekLoop_eq_some_iff hi, Leads]
  simp

theorem anyLoop_eq_true_iff (ht : ∀ j, i ≤ j → j < i + left → test j = some (t j))
    (hi : i < limit) :
    anyLoop limit test left i = some true ↔
      ∃ j, i ≤ j ∧ j < i + left ∧ j < limit ∧ t j = true := by
  have hfind : anyLoop limit test left i = some true ↔
      ∃ k, findLoop limit test left i = some (some k) := by
    rw [anyLoop, Option.map_eq_some_iff]
    simp [Option.isSome_iff_exists]
  rw [hfind]
  constructor
  · rintro ⟨k, hk⟩
    rcases (findLoop_eq_some_iff hi).mp hk with ⟨hle, hlt, hlim, htest, -⟩
    rw [ht k hle hlt] at htest
    exact ⟨k, hle, hlt, hlim, Option.some.inj htest⟩
  · intro h
    -- the least of the indices that pass
    rcases Nat.find_spec h with ⟨hle, hlt, hlim, hk⟩
    refine ⟨Nat.find h, (findLoop_eq_some_iff hi).mpr ⟨hle, hlt, hlim, ?_, fun j hj hjk => ?_⟩⟩
    · rw [ht _ hle hlt, hk]
    · rw [ht j hj (by omega)]
      apply congrArg some
      rw [← Bool.not_eq_true]
      exact fun hj' => Nat.find_min h hjk ⟨hj, by omega, by omega, hj'⟩

theorem anyLoop_eq_false_iff (ht : ∀ j, i ≤ j → j < i + left → test j = some (t j))
    (hi : i < limit) :
    anyLoop limit test left i = some false ↔
      i + left < limit ∧ ∀ j, i ≤ j → j < i + left → t j = false := by
  have hfind : anyLoop limit test left i = some false ↔
      findLoop limit test left i = some none := by
    rw [anyLoop, Option.map_eq_some_iff]
    simp
  rw [hfind, findLoop_eq_none_iff hi]
  refine and_congr_right fun _ => forall_congr' fun j => ?_
  refine imp_congr_right fun hj => imp_congr_right fun hjk => ?_
  rw [ht j hj hjk, Option.some.injEq]

/-- A loop whose tests do not fault has a result. -/
theorem exists_lastLoop {n : ℕ} (ht : ∀ j, j < n → test j = some (t j)) :
    ∃ r, lastLoop test n = some r := by
  induction n with
  | zero => exact ⟨none, rfl⟩
  | succ n ih =>
      rw [lastLoop, ht n (Nat.lt_succ_self n), Option.bind_some]
      cases t n
      · exact ih fun j hj => ht j (Nat.lt_succ_of_lt hj)
      · exact ⟨some n, rfl⟩

theorem lastLoop_eq_some_iff {n k : ℕ} : lastLoop test n = some (some k) ↔
    k < n ∧ test k = some true ∧ ∀ j, k < j → j < n → test j = some false := by
  induction n with
  | zero => simp [lastLoop]
  | succ n ih =>
      -- the greatest index comes first
      have hsplit : (k < n + 1 ∧ test k = some true ∧
          ∀ j, k < j → j < n + 1 → test j = some false) ↔
          k = n ∧ test n = some true ∨ test n = some false ∧ k < n ∧ test k = some true ∧
            ∀ j, k < j → j < n → test j = some false := by
        constructor
        · rintro ⟨hk, htest, hall⟩
          rcases Nat.lt_succ_iff_lt_or_eq.mp hk with hkn | rfl
          · exact .inr ⟨hall n hkn (Nat.lt_succ_self n), hkn, htest,
              fun j hj hjn => hall j hj (Nat.lt_succ_of_lt hjn)⟩
          · exact .inl ⟨rfl, htest⟩
        · rintro (⟨rfl, htest⟩ | ⟨hn, hk, htest, hall⟩)
          · exact ⟨Nat.lt_succ_self k, htest, fun j hj hjk => by omega⟩
          · refine ⟨Nat.lt_succ_of_lt hk, htest, fun j hj hjn => ?_⟩
            rcases Nat.lt_succ_iff_lt_or_eq.mp hjn with hlt | rfl
            · exact hall j hj hlt
            · exact hn
      rw [hsplit, lastLoop]
      rcases test n with - | - | -
      · simp
      · simpa using ih
      · simp [eq_comm]

theorem lastLoop_eq_none_iff {n : ℕ} :
    lastLoop test n = some none ↔ ∀ j, j < n → test j = some false := by
  induction n with
  | zero => simp [lastLoop]
  | succ n ih =>
      rw [Nat.forall_lt_succ_right, lastLoop]
      rcases test n with - | - | -
      · simp
      · simpa using ih
      · simp

end Test

end Lib
