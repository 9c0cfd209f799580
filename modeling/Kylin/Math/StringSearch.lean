import Kylin.Lib.Loop
import Kylin.Math.StringCompare

/-!
# Searching in a string

`kylin_strstr` and `kylin_strstr_raw` (`lib/core/math/kylin_string.c`) try one position after
the other, as long as the byte there is the first of the pattern: they stop at the first byte
that is another, and do not look at the length of the string while they go on.

## Main definitions

* `Kstr.strstr`, `Kstr.strstrRaw` — the functions.
* `Kstr.Occurs`, `Kstr.First` — where a pattern is.
* `Finds` — what searching is for.

## Main results

* `Source.strstr_eq` — what a search returns.
* `finds_iff` — the strings and patterns for which a search is right.
-/

namespace Kylin

open Lib

namespace Kstr

/-- `kylin_strncmp_raw`, with a pointer into a block. -/
def strncmpRaw (s1 : Kstr) (s2 : Buffer Byte) (off n : ℕ) : Option ℤ := do
  let x ← s1.val.read 0 n
  let y ← s2.read off n
  some (memcmp x y)

/-- A turn of the two loops: `NULL` at a byte that is not the first of the pattern, and the
position where there is no difference. -/
def seekTurn (s : Kstr) (first : Option Byte) (compare : ℕ → Option ℤ) (i : ℕ) :
    Option (Option (Option ℕ)) := do
  let x ← s.val.load i
  let y ← first
  if x = y then
    let diff ← compare i
    if diff = 0 then some (some (some i)) else some none
  else some (some none)

/-- `kylin_strstr`; the result is an index of `s->val`, or `NULL`.  A turn behind the block is a
fault. -/
def strstr (s acpt : Kstr) : Option (Option ℕ) :=
  if s.used < acpt.used then some none
  else seekLoop intLimit (s.seekTurn (acpt.val.load 0) fun i => acpt.strncmpRaw s.val i acpt.used)
    none s.val.size 0

/-- `kylin_strstr_raw`. -/
def strstrRaw (s : Kstr) (acpt : CString) : Option (Option ℕ) :=
  if s.used < acpt.len then some none
  else seekLoop intLimit (s.seekTurn (some (acpt.chars.headD 0)) fun i => do
    let y ← s.val.read i acpt.len
    some (memcmp acpt.chars y)) none s.val.size 0

/-- The string without what its block has behind the byte that follows those in use. -/
def cut (s : Kstr) : Kstr := { s with val := ⟨s.used + 1, s.val.get⟩ }

/-- The pattern is at `i`, within the bytes in use. -/
def Occurs (s : Kstr) (pat : List Byte) (i : ℕ) : Prop :=
  i + pat.length ≤ s.used ∧ slice s.val.get i pat.length = pat

/-- The least position of a pattern, or that it has none. -/
def First (s : Kstr) (pat : List Byte) : Option ℕ → Prop
  | some i => s.Occurs pat i ∧ ∀ j, j < i → ¬ s.Occurs pat j
  | none => ∀ i, ¬ s.Occurs pat i

end Kstr

namespace Source

/-- `kylin_strstr`, or `kylin_strstr_raw`. -/
def strstr (s : Kstr) : Source → Option (Option ℕ)
  | .kstr acpt => s.strstr acpt
  | .raw acpt => s.strstrRaw acpt

/-- `acpt->val[0]`, or `acpt[0]`. -/
def first : Source → Byte
  | .kstr acpt => acpt.val.get 0
  | .raw acpt => acpt.chars.headD 0

end Source

/-- **What searching is for**: the first position is found, without a look behind the byte that
follows those in use. -/
def Finds (s : Kstr) (acpt : Source) : Prop :=
  ∃ r, acpt.strstr s = some r ∧ acpt.strstr s.cut = some r ∧ s.First acpt.chars r

/-- The strings in which a pattern is found: it is too long; or it is there, and no other byte
than its first before that; or it is not there, and a byte that is not its first comes before
the comparison of the bytes at a position goes behind the string. -/
def Reachable (s : Kstr) (first : Byte) (pat : List Byte) : Prop :=
  s.used < pat.length ∨
    (∃ k, k < 2 ^ 31 ∧ s.First pat (some k) ∧ ∀ j, j ≤ k → s.val.get j = first) ∨
    s.First pat none ∧ ∃ k, k < 2 ^ 31 ∧ k ≤ s.used ∧ s.val.get k ≠ first ∧
      ∀ j, j < k → s.val.get j = first ∧ j + pat.length ≤ s.used + 1 ∧
        slice s.val.get j pat.length ≠ pat

section Search
variable {s : Kstr} {acpt : Source} {first : Byte} {pat : List Byte}

/-- A turn, on a block of which the comparison reads as many bytes as the pattern has. -/
def turn (b : Buffer Byte) (first : Byte) (pat : List Byte) (i : ℕ) :
    Option (Option (Option ℕ)) :=
  if i < b.size then
    if b.get i = first then
      if i + pat.length ≤ b.size then
        if slice b.get i pat.length = pat then some (some (some i)) else some none
      else none
    else some (some none)
  else none

theorem seekTurn_eq {compare : ℕ → Option ℤ}
    (hcompare : ∀ i, compare i = (s.val.read i pat.length).map (memcmp pat)) (i : ℕ) :
    s.seekTurn (some first) compare i = turn s.val first pat i := by
  rw [Kstr.seekTurn, turn]
  by_cases hi : i < s.val.size
  · rw [Buffer.load_of_lt hi, if_pos hi, Option.bind_eq_bind, Option.bind_some, Option.bind_some]
    by_cases hfirst : s.val.get i = first
    · rw [if_pos hfirst, if_pos hfirst, hcompare]
      by_cases hin : i + pat.length ≤ s.val.size
      · rw [Buffer.read_of_le hin, if_pos hin, Option.map_some, Option.bind_eq_bind,
          Option.bind_some]
        apply if_congr _ rfl rfl
        rw [memcmp_eq_zero_iff_eq (length_slice _ _ _).symm]
        exact eq_comm
      · rw [Buffer.read, if_neg hin, if_neg hin]
        rfl
    · rw [if_neg hfirst, if_neg hfirst]
  · rw [Buffer.load, if_neg hi, if_neg hi]
    rfl

/-- Both functions, in a block that has room for the pattern. -/
theorem Source.strstr_eq (Ha : acpt.Room) (s : Kstr) :
    acpt.strstr s = if s.used < acpt.len then some none
      else seekLoop intLimit (turn s.val acpt.first acpt.chars) none s.val.size 0 := by
  cases acpt with
  | kstr a =>
      have hfirst : a.val.load 0 = some (a.val.get 0) := by
        apply Buffer.load_of_lt
        rw [Kstr.Room.size_eq Ha]
        exact Nat.succ_pos _
      have hcompare : ∀ i, a.strncmpRaw s.val i a.used =
          (s.val.read i a.content.length).map (memcmp a.content) := by
        intro i
        rw [Kstr.strncmpRaw, Kstr.Room.read Ha le_rfl, Kstr.length_content,
          List.take_of_length_le (Nat.le_of_eq a.length_content), Option.map_eq_bind]
        rfl
      change s.strstr a = _
      rw [Kstr.strstr, hfirst, funext (seekTurn_eq hcompare)]
      rfl
  | raw a =>
      have hcompare : ∀ i, (do
          let y ← s.val.read i a.len
          some (memcmp a.chars y)) = (s.val.read i a.chars.length).map (memcmp a.chars) := by
        intro i
        rw [Option.map_eq_bind]
        rfl
      change s.strstrRaw a = _
      rw [Kstr.strstrRaw, funext (seekTurn_eq hcompare)]
      rfl

/-- The turns that go on, -/
theorem turn_eq_none_iff {b : Buffer Byte} {j : ℕ} :
    turn b first pat j = some none ↔ j < b.size ∧ b.get j = first ∧ j + pat.length ≤ b.size ∧
      slice b.get j pat.length ≠ pat := by
  unfold turn
  split_ifs <;> simp [*]

/-- and those that leave the loop. -/
theorem turn_eq_some_iff {b : Buffer Byte} {k : ℕ} {r : Option ℕ} :
    turn b first pat k = some (some r) ↔ k < b.size ∧
      (b.get k ≠ first ∧ r = none ∨ b.get k = first ∧ k + pat.length ≤ b.size ∧
        slice b.get k pat.length = pat ∧ r = some k) := by
  have hcomm : (some k = r) = (r = some k) := propext eq_comm
  have hnone : (none = r) = (r = none) := propext eq_comm
  unfold turn
  split_ifs <;> simp [*]

theorem turn_cut {b : Buffer Byte} {n j : ℕ} {x : Option (Option ℕ)} (hn : n ≤ b.size)
    (h : turn ⟨n, b.get⟩ first pat j = some x) : turn b first pat j = some x := by
  cases x with
  | none =>
      rcases turn_eq_none_iff.mp h with ⟨hj, hfirst, hin, hne⟩
      exact turn_eq_none_iff.mpr ⟨hj.trans_le hn, hfirst, hin.trans hn, hne⟩
  | some r =>
      rcases turn_eq_some_iff.mp h with ⟨hj, hr | ⟨hfirst, hin, hr⟩⟩
      · exact turn_eq_some_iff.mpr ⟨hj.trans_le hn, Or.inl hr⟩
      · exact turn_eq_some_iff.mpr ⟨hj.trans_le hn, Or.inr ⟨hfirst, hin.trans hn, hr⟩⟩

/-- What a search that does not look behind the string returns, for a pattern that is not too
long: the turns before the last go on. -/
theorem Source.strstr_cut_iff (Ha : acpt.Room) (hlen : acpt.len ≤ s.used) {r : Option ℕ} :
    acpt.strstr s.cut = some r ↔
      ∃ k, k < 2 ^ 31 ∧ turn ⟨s.used + 1, s.val.get⟩ acpt.first acpt.chars k = some (some r) ∧
        ∀ j, j < k → turn ⟨s.used + 1, s.val.get⟩ acpt.first acpt.chars j = some none := by
  have hused : ¬ s.cut.used < acpt.len := Nat.not_lt.mpr hlen
  rw [Source.strstr_eq Ha, if_neg hused, seekLoop_eq_some_iff (by decide)]
  constructor
  · rintro (⟨k, -, -, hlim, hk, hall⟩ | ⟨-, hend, -⟩)
    · exact ⟨k, hlim, hk, fun j hj => hall j (Nat.zero_le j) hj⟩
    · cases hend
  · rintro ⟨k, hlim, hk, hall⟩
    have hin : k < s.cut.val.size := (turn_eq_some_iff.mp hk).1
    exact Or.inl
      ⟨k, Nat.zero_le k, by rwa [Nat.zero_add], hlim, hk, fun j _ hj => hall j hj⟩

/-- The whole block makes no difference to it. -/
theorem Source.strstr_of_cut (Hs : s.Room) (Ha : acpt.Room) (hlen : acpt.len ≤ s.used)
    {r : Option ℕ} (h : acpt.strstr s.cut = some r) : acpt.strstr s = some r := by
  have hsize : s.used + 1 ≤ s.val.size := by
    rw [Hs.size_eq]
    exact Nat.succ_le_succ Hs.used_le
  rcases (Source.strstr_cut_iff Ha hlen).mp h with ⟨k, hlim, hk, hall⟩
  have hin := (turn_eq_some_iff.mp (turn_cut hsize hk)).1
  rw [Source.strstr_eq Ha, if_neg (Nat.not_lt.mpr hlen), seekLoop_eq_some_iff (by decide)]
  exact Or.inl ⟨k, Nat.zero_le k, by rwa [Nat.zero_add], hlim, turn_cut hsize hk,
    fun j _ hj => turn_cut hsize (hall j hj)⟩

/-- **When a search is right**, for any string and any pattern. -/
theorem finds_iff (Hs : s.Room) (Ha : acpt.Room) :
    Finds s acpt ↔ Reachable s acpt.first acpt.chars := by
  by_cases hlong : s.used < acpt.len
  · refine iff_of_true ⟨none, ?_, ?_, fun i hi => ?_⟩ (Or.inl (by rwa [acpt.length_chars]))
    · rw [Source.strstr_eq Ha, if_pos hlong]
    · rw [Source.strstr_eq Ha]
      exact if_pos hlong
    · have hle := hi.1
      rw [acpt.length_chars] at hle
      omega
  · have hlen := Nat.not_lt.mp hlong
    have hfinds : Finds s acpt ↔ ∃ r, acpt.strstr s.cut = some r ∧ s.First acpt.chars r := by
      constructor
      · rintro ⟨r, -, hrun, hfirst⟩
        exact ⟨r, hrun, hfirst⟩
      · rintro ⟨r, hrun, hfirst⟩
        exact ⟨r, Source.strstr_of_cut Hs Ha hlen hrun, hrun, hfirst⟩
    rw [hfinds, Reachable, or_iff_right (by rwa [acpt.length_chars])]
    constructor
    · rintro ⟨r, hrun, hfirst⟩
      rcases (Source.strstr_cut_iff Ha hlen).mp hrun with ⟨k, hlim, hk, hall⟩
      rcases turn_eq_some_iff.mp hk with ⟨hin, ⟨hother, rfl⟩ | ⟨hthis, -, -, rfl⟩⟩
      · refine Or.inr ⟨hfirst, k, hlim, Nat.le_of_lt_succ hin, hother, fun j hj => ?_⟩
        exact (turn_eq_none_iff.mp (hall j hj)).2
      · refine Or.inl ⟨k, hlim, hfirst, fun j hj => ?_⟩
        rcases Nat.lt_or_eq_of_le hj with hlt | rfl
        · exact (turn_eq_none_iff.mp (hall j hlt)).2.1
        · exact hthis
    · rintro (⟨k, hlim, hfirst, hbytes⟩ | ⟨hfirst, k, hlim, hle, hother, hbytes⟩)
      · refine ⟨some k, (Source.strstr_cut_iff Ha hlen).mpr ⟨k, hlim, ?_, fun j hj => ?_⟩, hfirst⟩
        · have hin := hfirst.1.1
          refine turn_eq_some_iff.mpr ⟨Nat.lt_succ_of_le (by omega), Or.inr ?_⟩
          exact ⟨hbytes k le_rfl, Nat.le_succ_of_le hin, hfirst.1.2, rfl⟩
        · -- an earlier position has room for the pattern, too
          have hin : j + acpt.chars.length ≤ s.used := by
            have hk := hfirst.1.1
            omega
          refine turn_eq_none_iff.mpr ⟨Nat.lt_succ_of_le (by omega), hbytes j (by omega),
            Nat.le_succ_of_le hin, fun heq => hfirst.2 j hj ⟨hin, heq⟩⟩
      · refine ⟨none, (Source.strstr_cut_iff Ha hlen).mpr ⟨k, hlim, ?_, fun j hj => ?_⟩, hfirst⟩
        · exact turn_eq_some_iff.mpr ⟨Nat.lt_succ_of_le hle, Or.inl ⟨hother, rfl⟩⟩
        · exact turn_eq_none_iff.mpr ⟨Nat.lt_succ_of_le (by omega), hbytes j hj⟩

end Search

/-- A pattern at the start of a string. -/
theorem finds_iff_start : Finds (Kstr.ofChars [97, 98]) (.raw (Kstr.letters 1)) := by
  have hoccurs : (Kstr.ofChars [97, 98]).Occurs (Kstr.letters 1).chars 0 :=
    ⟨by decide, by decide⟩
  have hfirst : ∀ j, j ≤ 0 → (Kstr.ofChars [97, 98]).val.get j = 97 := by
    intro j hj
    rw [Nat.le_zero.mp hj]
    rfl
  have hroom : (Source.raw (Kstr.letters 1)).Room := trivial
  refine (finds_iff (Kstr.room_ofChars (by decide)) hroom).mpr (Or.inr (Or.inl ⟨0, by decide, ?_,
    hfirst⟩))
  exact ⟨hoccurs, fun j hj => absurd hj (Nat.not_lt_zero j)⟩

/-- `"a"` is not found in `"ba"`. -/
theorem not_finds_second :
    (Kstr.ofChars [98, 97]).strstrRaw (Kstr.letters 1) = some none ∧
      (Kstr.ofChars [98, 97]).Occurs (Kstr.letters 1).chars 1 ∧
      ¬ Finds (Kstr.ofChars [98, 97]) (.raw (Kstr.letters 1)) := by
  have hrun : (Kstr.ofChars [98, 97]).strstrRaw (Kstr.letters 1) = some none := by decide
  have hoccurs : (Kstr.ofChars [98, 97]).Occurs (Kstr.letters 1).chars 1 :=
    ⟨by decide, by decide⟩
  refine ⟨hrun, hoccurs, ?_⟩
  rintro ⟨r, hr, -, hfirst⟩
  rw [show (Source.raw (Kstr.letters 1)).strstr _ = some none from hrun] at hr
  cases hr
  exact hfirst 1 hoccurs

end Kylin
