import Kylin.Math.StringSearch

/-!
# Characters and tokens

`kylin_strchr`, `kylin_strrchr`, `kylin_strpbrk` and `kylin_strtok` (`lib/core/math/kylin_string.c`)
go through the characters of a string with a counter of type `int`.  The first, the third and the
fourth run into undefined behaviour when they count too far; the second converts the length to
`int` before it counts down, so of a long string it looks at a part only, `Kstr.looked`.

`kylin_strtok` returns a duplicate with a NUL byte for each delimiter: at every place of it stands
the text up to the next delimiter as a C string, `Kstr.run_strtok`.

## Main definitions

* `Kstr.strchr`, `Kstr.strrchr`, `Kstr.strpbrk`, `Kstr.strtok` — the functions.
* `Kstr.FirstOf`, `Kstr.LastOf` — where a character is.
* `Kstr.textAt` — the C string at a place of a block.

## Main results

* `Kstr.finds_char_iff` — which characters are found.
* `Kstr.run_strtok` — the tokens of the strings of a run.
-/

namespace Kylin.Kstr

open Lib

/-- `kylin_strchr`; the result is an index of `s->val`, or `NULL`. -/
def strchr (s : Kstr) (c : Byte) : Option (Option ℕ) :=
  findLoop intLimit (fun i => (s.val.load i).map (· == c)) s.used 0

/-- The characters at which `kylin_strrchr` looks: its counter starts with `s->used - 1`, converted
to `int`, and goes down to zero. -/
def looked (used : ℕ) : ℕ := (toInt (sizeSub used 1) + 1).toNat

/-- `kylin_strrchr`. -/
def strrchr (s : Kstr) (c : Byte) : Option (Option ℕ) :=
  lastLoop (fun i => (s.val.load i).map (· == c)) (looked s.used)

/-- `s->val[i] == acpt[j]`. -/
def hit (s : Kstr) (acpt : CString) (i j : ℕ) : Option Bool := do
  let x ← s.val.load i
  let y ← acpt.chars[j]?
  some (x == y)

/-- `kylin_strpbrk`. -/
def strpbrk (s : Kstr) (acpt : CString) : Option (Option ℕ) :=
  findLoop intLimit (fun i => anyLoop intLimit (s.hit acpt i) acpt.len 0) s.used 0

/-- The turn `j` of the inner loop of `kylin_strtok`, on the block of the duplicate. -/
def tokTurn (s : Kstr) (acpt : CString) (i j : ℕ) (val : Buffer Byte) : Option (Buffer Byte) := do
  if ← s.hit acpt i j then val.store i 0 else some val

/-- `kylin_strtok`, with memory. -/
def strtok (s : Kstr) (acpt : CString) : Option Kstr := do
  let dup ← s.strndup s.used
  let val ← forLoop intLimit
    (fun i val => forLoop intLimit (s.tokTurn acpt i) acpt.len 0 val) s.used 0 dup.val
  some { dup with val := val }

/-- The least place of a character that passes, or that it has none. -/
def FirstOf (s : Kstr) (p : Byte → Prop) : Option ℕ → Prop
  | some k => k < s.used ∧ p (s.val.get k) ∧ ∀ j, j < k → ¬ p (s.val.get j)
  | none => ∀ j, j < s.used → ¬ p (s.val.get j)

/-- The greatest place. -/
def LastOf (s : Kstr) (p : Byte → Prop) : Option ℕ → Prop
  | some k => k < s.used ∧ p (s.val.get k) ∧ ∀ j, k < j → j < s.used → ¬ p (s.val.get j)
  | none => ∀ j, j < s.used → ¬ p (s.val.get j)

/-- The bytes from `i` on up to a NUL byte among the next `left`. -/
def textFrom (b : Buffer Byte) : ℕ → ℕ → Option (List Byte)
  | 0, _ => none
  | left + 1, i => if b.get i = 0 then some [] else (textFrom b left (i + 1)).map (b.get i :: ·)

/-- **The C string at a place of a block**; `none` if it goes on behind the block. -/
def textAt (b : Buffer Byte) (i : ℕ) : Option (List Byte) := textFrom b (b.size - i) i

/-- The loops over a string and the delimiters do not count too far. -/
def Fits (s : Kstr) (acpt : CString) : Prop :=
  s.used < intLimit ∧ (s.used = 0 ∨ acpt.len < intLimit)

section Scan
variable {s : Kstr} {acpt : CString} {c : Byte} {p : Byte → Prop} {r : Option ℕ} {i j n : ℕ}

theorem intLimit_pos : 0 < intLimit := by decide

theorem Room.used_lt (Hs : s.Room) : s.used < 2 ^ 64 := Nat.lt_of_le_of_lt Hs.used_le Hs.cap_lt

theorem Room.load (Hs : s.Room) (hi : i < s.used) : s.val.load i = some (s.val.get i) := by
  have hused := Hs.used_le
  have hsize := Hs.size_eq
  exact Buffer.load_of_lt (by omega)

/-- The test of a character for another. -/
theorem Room.test (Hs : s.Room) (c : Byte) (hi : i < s.used) :
    (s.val.load i).map (· == c) = some (decide (s.val.get i = c)) := by
  rw [Hs.load hi, Option.map_some, beq_eq_decide]

theorem exists_firstOf (s : Kstr) (p : Byte → Prop) : ∃ r, s.FirstOf p r := by
  classical
  by_cases h : ∃ i, i < s.used ∧ p (s.val.get i)
  · refine ⟨some (Nat.find h), (Nat.find_spec h).1, (Nat.find_spec h).2, fun j hj hp => ?_⟩
    exact Nat.find_min h hj ⟨Nat.lt_trans hj (Nat.find_spec h).1, hp⟩
  · exact ⟨none, fun j hj hp => h ⟨j, hj, hp⟩⟩

/-- A loop over the characters that is left at the first that passes. -/
theorem findLoop_firstOf [DecidablePred p] {test : ℕ → Option Bool}
    (htest : ∀ i, i < s.used → test i = some (decide (p (s.val.get i)))) :
    findLoop intLimit test s.used 0 = some r ↔ s.FirstOf p r ∧ r.getD s.used < intLimit := by
  cases r with
  | none =>
      rw [findLoop_eq_none_iff intLimit_pos, Nat.zero_add, and_comm]
      refine and_congr_left fun _ => forall_congr' fun j => ?_
      constructor
      · intro h hj
        simpa [htest j hj] using h (Nat.zero_le j) hj
      · intro h _ hj
        simpa [htest j hj] using h hj
  | some k =>
      rw [findLoop_eq_some_iff intLimit_pos, Nat.zero_add, FirstOf]
      constructor
      · rintro ⟨-, hk, hlim, hpass, hall⟩
        refine ⟨⟨hk, by simpa [htest k hk] using hpass, fun j hj => ?_⟩, hlim⟩
        simpa [htest j (Nat.lt_trans hj hk)] using hall j (Nat.zero_le j) hj
      · rintro ⟨⟨hk, hpass, hall⟩, hlim⟩
        refine ⟨Nat.zero_le k, hk, hlim, by simpa [htest k hk] using hpass, fun j _ hj => ?_⟩
        simpa [htest j (Nat.lt_trans hj hk)] using hall j hj

/-- What `kylin_strchr` returns. -/
theorem strchr_eq_some_iff (Hs : s.Room) :
    s.strchr c = some r ↔ s.FirstOf (· = c) r ∧ r.getD s.used < intLimit :=
  findLoop_firstOf fun _ hi => Hs.test c hi

theorem looked_le (hn : n < 2 ^ 64) : looked n ≤ n := by
  rw [looked, toInt, sizeSub]
  split <;> omega

/-- A string of up to `2 ^ 31` characters is looked at as a whole. -/
theorem looked_of_le (hn : n ≤ 2 ^ 31) : looked n = n := by
  rw [looked, toInt, sizeSub]
  split <;> omega

/-- The last place is found if it is looked at. -/
theorem strrchr_spec (Hs : s.Room) (c : Byte) : ∃ r, s.strrchr c = some r ∧
    (s.LastOf (· = c) r ↔ ∀ i, i < s.used → s.val.get i = c → i < looked s.used) := by
  have hle := looked_le Hs.used_lt
  have htest : ∀ j, j < looked s.used →
      (s.val.load j).map (· == c) = some (decide (s.val.get j = c)) :=
    fun j hj => Hs.test c (Nat.lt_of_lt_of_le hj hle)
  obtain ⟨r, hr⟩ := exists_lastLoop htest
  refine ⟨r, hr, ?_⟩
  cases r with
  | none =>
      have hnone : ∀ j, j < looked s.used → s.val.get j ≠ c := by
        intro j hj
        simpa [htest j hj] using lastLoop_eq_none_iff.mp hr j hj
      constructor
      · intro h i hi hc
        exact absurd hc (h i hi)
      · intro h j hj hc
        exact hnone j (h j hj hc) hc
  | some k =>
      obtain ⟨hk, hpass, hall⟩ := lastLoop_eq_some_iff.mp hr
      have hck : s.val.get k = c := by simpa [htest k hk] using hpass
      have hbehind : ∀ j, k < j → j < looked s.used → s.val.get j ≠ c := by
        intro j hkj hj
        simpa [htest j hj] using hall j hkj hj
      constructor
      · rintro ⟨-, -, hlast⟩ i hi hc
        rcases Nat.lt_or_ge k i with hki | hik
        · exact absurd hc (hlast i hki hi)
        · exact Nat.lt_of_le_of_lt hik hk
      · intro h
        exact ⟨Nat.lt_of_lt_of_le hk hle, hck, fun j hkj hj hc => hbehind j hkj (h j hj hc) hc⟩

/-- **Which characters are found.**  `kylin_strchr` finds the first place unless it counts too far;
`kylin_strrchr` finds the last one if it looks at it. -/
theorem finds_char_iff (Hs : s.Room) (c : Byte) :
    ((∃ r, s.strchr c = some r) ↔
      s.used < intLimit ∨ ∃ i, i < intLimit ∧ i < s.used ∧ s.val.get i = c) ∧
    (∀ r, s.strchr c = some r → s.FirstOf (· = c) r) ∧
    ∃ r, s.strrchr c = some r ∧
      (s.LastOf (· = c) r ↔ ∀ i, i < s.used → s.val.get i = c → i < looked s.used) := by
  refine ⟨⟨?_, ?_⟩, fun r hr => ((strchr_eq_some_iff Hs).mp hr).1, strrchr_spec Hs c⟩
  · rintro ⟨r, hr⟩
    obtain ⟨hfirst, hlim⟩ := (strchr_eq_some_iff Hs).mp hr
    cases r with
    | none => exact .inl hlim
    | some k => exact .inr ⟨k, hlim, hfirst.1, hfirst.2.1⟩
  · intro h
    obtain ⟨r, hfirst⟩ := s.exists_firstOf (· = c)
    refine ⟨r, (strchr_eq_some_iff Hs).mpr ⟨hfirst, ?_⟩⟩
    cases r with
    | none =>
        rcases h with hused | ⟨i, -, hi, hc⟩
        · exact hused
        · exact absurd hc (hfirst i hi)
    | some k =>
        rcases h with hused | ⟨i, hlim, -, hc⟩
        · exact Nat.lt_trans hfirst.1 hused
        · refine Nat.lt_of_le_of_lt (Nat.not_lt.mp fun hik => ?_) hlim
          exact hfirst.2.2 i hik hc

/-! ## Delimiters -/

theorem Room.hit (Hs : s.Room) (hi : i < s.used) (hj : j < acpt.len) :
    s.hit acpt i j = some (decide (s.val.get i = acpt.chars.getD j 0)) := by
  have hget : acpt.chars[j]? = some (acpt.chars.getD j 0) := by
    rw [List.getD_eq_getElem?_getD, List.getElem?_eq_getElem hj, Option.getD_some]
  simp only [Kstr.hit, Hs.load hi, hget, Option.bind_eq_bind, Option.bind_some, beq_eq_decide]

theorem mem_chars_iff (acpt : CString) (c : Byte) :
    c ∈ acpt.chars ↔ ∃ j, j < acpt.len ∧ c = acpt.chars.getD j 0 := by
  rw [List.mem_iff_getElem]
  refine exists_congr fun j => ?_
  constructor
  · rintro ⟨hj, rfl⟩
    exact ⟨hj, (List.getD_eq_getElem _ _ hj).symm⟩
  · rintro ⟨hj, hc⟩
    exact ⟨hj, by rw [hc, List.getD_eq_getElem _ _ hj]⟩

/-- The inner loop of `kylin_strpbrk`. -/
theorem Room.anyLoop_hit (Hs : s.Room) (hi : i < s.used) (hlen : acpt.len < intLimit) :
    anyLoop intLimit (s.hit acpt i) acpt.len 0 = some (decide (s.val.get i ∈ acpt.chars)) := by
  have htest : ∀ j, 0 ≤ j → j < 0 + acpt.len →
      s.hit acpt i j = some (decide (s.val.get i = acpt.chars.getD j 0)) :=
    fun j _ hj => Hs.hit hi (by rwa [Nat.zero_add] at hj)
  by_cases hmem : s.val.get i ∈ acpt.chars
  · obtain ⟨j, hj, hget⟩ := (mem_chars_iff acpt _).mp hmem
    rw [decide_eq_true hmem, anyLoop_eq_true_iff htest intLimit_pos]
    exact ⟨j, Nat.zero_le j, by omega, Nat.lt_trans hj hlen, decide_eq_true hget⟩
  · rw [decide_eq_false hmem, anyLoop_eq_false_iff htest intLimit_pos]
    refine ⟨by omega, fun j _ hj => decide_eq_false fun hget => ?_⟩
    exact hmem ((mem_chars_iff acpt _).mpr ⟨j, by omega, hget⟩)

/-- What `kylin_strpbrk` returns. -/
theorem strpbrk_eq_some_iff (Hs : s.Room) (hlen : s.used = 0 ∨ acpt.len < intLimit) :
    s.strpbrk acpt = some r ↔ s.FirstOf (· ∈ acpt.chars) r ∧ r.getD s.used < intLimit :=
  findLoop_firstOf fun _ hi => Hs.anyLoop_hit hi (hlen.resolve_left (Nat.ne_zero_of_lt hi))

/-- A duplicate has the characters, and zeros behind them. -/
theorem Clean.strdup_spec (H : Clean s) : ∃ dup, s.strndup s.used = some dup ∧
    dup.opts = s.opts ∧ dup.used = s.used ∧ dup.val.size = s.val.size ∧
      ∀ i, dup.val.get i = s.val.get i := by
  have hused := H.used_le
  have hsize := H.size_eq
  obtain ⟨dup, hcreate, Hdup, ho, hzero⟩ := create_spec H.cap_lt
  have hdsize : dup.val.size = s.val.size := by rw [Hdup.size_eq, ho, hsize]
  have hread : s.val.read 0 s.used = some (slice s.val.get 0 s.used) :=
    Buffer.read_of_le (by omega)
  have hin : 0 + (slice s.val.get 0 s.used).length ≤ dup.val.size := by
    rw [length_slice]
    omega
  refine ⟨{ dup with
    val := { dup.val with get := overlay dup.val.get 0 (slice s.val.get 0 s.used) },
    used := s.used }, ?_, ho, rfl, hdsize, fun i => ?_⟩
  · simp only [strndup, hcreate, Nat.min_self, hread, Option.bind_eq_bind, Option.bind_some,
      put_of_le hin]
  · change overlay dup.val.get 0 (slice s.val.get 0 s.used) i = s.val.get i
    by_cases hi : i < s.used
    · have hlt : i - 0 < (slice s.val.get 0 s.used).length := by rwa [length_slice]
      rw [overlay_of_mem _ _ (Nat.zero_le i) hlt, getElem_slice, Nat.sub_zero, Nat.zero_add]
    · rw [overlay_of_ge _ _ (by rw [length_slice]; omega), H.zeros i (by omega)]
      exact Hdup.zeros i (by omega)

/-- The inner loop of `kylin_strtok`. -/
theorem Room.tokLoop_spec (Hs : s.Room) (hi : i < s.used) (hlen : acpt.len < intLimit)
    {val : Buffer Byte} (hsize : val.size = s.val.size) :
    ∃ v, forLoop intLimit (s.tokTurn acpt i) acpt.len 0 val = some v ∧ v.size = s.val.size ∧
      ∀ k, v.get k = if k = i ∧ s.val.get i ∈ acpt.chars then 0 else val.get k := by
  have hused := Hs.used_le
  have hcap := Hs.size_eq
  -- the delimiters that have been looked at
  let I : ℕ → Buffer Byte → Prop := fun j v => v.size = s.val.size ∧
    ∀ k, v.get k = if k = i ∧ s.val.get i ∈ acpt.chars.take j then 0 else val.get k
  have hturn : ∀ j v, 0 ≤ j → j < 0 + acpt.len → I j v →
      ∃ v', s.tokTurn acpt i j v = some v' ∧ I (j + 1) v' := by
    rintro j v - hj ⟨hvsize, hget⟩
    have hlt : j < acpt.chars.length := by rwa [Nat.zero_add] at hj
    have hmem : s.val.get i ∈ acpt.chars.take (j + 1) ↔
        s.val.get i ∈ acpt.chars.take j ∨ s.val.get i = acpt.chars.getD j 0 := by
      rw [List.take_add_one, List.getElem?_eq_getElem hlt, List.mem_append,
        List.getD_eq_getElem _ _ hlt, Option.toList_some, List.mem_singleton]
    rw [tokTurn, Hs.hit hi hlt, Option.bind_eq_bind, Option.bind_some]
    by_cases hhit : s.val.get i = acpt.chars.getD j 0
    · rw [decide_eq_true hhit, if_pos rfl, Buffer.store_of_lt (by omega)]
      refine ⟨_, rfl, hvsize, fun k => ?_⟩
      by_cases hk : k = i
      · subst hk
        rw [if_pos ⟨rfl, hmem.mpr (.inr hhit)⟩]
        exact Function.update_self ..
      · simp [hk, hget k]
    · rw [decide_eq_false hhit, if_neg (by decide)]
      exact ⟨v, rfl, hvsize, fun k => by rw [hget k]; simp only [hmem, hhit, or_false]⟩
  have hlim : 0 + acpt.len < intLimit := by rwa [Nat.zero_add]
  have hstart : I 0 val := ⟨hsize, by simp⟩
  obtain ⟨v, hv, hvsize, hget⟩ := forLoop_spec hlim hstart hturn
  refine ⟨v, hv, hvsize, fun k => ?_⟩
  rw [hget k, Nat.zero_add, CString.len, List.take_length]

theorem Clean.room (H : Clean s) : s.Room := by
  have hcap := H.cap_lt
  exact ⟨by omega, H.size_eq, H.used_le⟩

/-- A string without the delimiters. -/
theorem Clean.strtok_spec (H : Clean s) (hfits : s.Fits acpt) : ∃ d, s.strtok acpt = some d ∧
    d.opts = s.opts ∧ d.used = s.used ∧ d.val.size = s.val.size ∧
      ∀ k, d.val.get k = if s.val.get k ∈ acpt.chars then 0 else s.val.get k := by
  obtain ⟨dup, hdup, ho, hused, hsize, hget⟩ := H.strdup_spec
  -- the characters that have been looked at
  let I : ℕ → Buffer Byte → Prop := fun i v => v.size = s.val.size ∧
    ∀ k, v.get k = if k < i ∧ s.val.get k ∈ acpt.chars then 0 else s.val.get k
  have hturn : ∀ i v, 0 ≤ i → i < 0 + s.used → I i v →
      ∃ v', forLoop intLimit (s.tokTurn acpt i) acpt.len 0 v = some v' ∧ I (i + 1) v' := by
    rintro i v - hi ⟨hvsize, hvget⟩
    rw [Nat.zero_add] at hi
    obtain ⟨v', hv', hvsize', hvget'⟩ :=
      H.room.tokLoop_spec hi (hfits.2.resolve_left (Nat.ne_zero_of_lt hi)) hvsize
    refine ⟨v', hv', hvsize', fun k => ?_⟩
    rw [hvget' k, hvget k]
    by_cases hk : k = i
    · subst hk
      by_cases hmem : s.val.get k ∈ acpt.chars <;> simp [hmem]
    · have hlt : k < i + 1 ↔ k < i := by omega
      simp [hk, hlt]
  have hlim : 0 + s.used < intLimit := by
    rw [Nat.zero_add]
    exact hfits.1
  have hstart : I 0 dup.val := ⟨hsize, fun k => by simp [hget k]⟩
  obtain ⟨v, hv, hvsize, hvget⟩ := forLoop_spec hlim hstart hturn
  refine ⟨{ dup with val := v }, ?_, ho, hused, hvsize, fun k => ?_⟩
  · simp only [strtok, hdup, hv, Option.bind_eq_bind, Option.bind_some]
  · rw [hvget k, Nat.zero_add]
    by_cases hk : k < s.used
    · simp [hk]
    · have hzero := H.zeros k (by omega)
      simp [hk, hzero]

theorem Clean.strtok_eq_none (H : Clean s) (hfits : ¬ s.Fits acpt) : s.strtok acpt = none := by
  obtain ⟨dup, hdup, -⟩ := H.strdup_spec
  have hfault : forLoop intLimit (fun i val => forLoop intLimit (s.tokTurn acpt i) acpt.len 0 val)
      s.used 0 dup.val = none := by
    by_cases hused : s.used < intLimit
    · rw [Fits, not_and, not_or] at hfits
      obtain ⟨hne, hlen⟩ := hfits hused
      exact forLoop_eq_none (Nat.le_refl 0) (by omega) fun val =>
        forLoop_overflow intLimit_pos (by omega)
    · exact forLoop_overflow intLimit_pos (by omega)
  simp only [strtok, hdup, hfault, Option.bind_eq_bind, Option.bind_some, Option.bind_none]

/-- The C string at a place ends at the next delimiter, or behind the characters. -/
theorem Clean.textFrom_eq (H : Clean s) {b : Buffer Byte}
    (hget : ∀ k, b.get k = if s.val.get k ∈ acpt.chars then 0 else s.val.get k) {left : ℕ}
    (hi : i + n = s.used) (hleft : n < left) :
    textFrom b left i = some ((slice s.val.get i n).takeWhile (· ∉ acpt.chars)) := by
  induction n generalizing i left with
  | zero =>
      obtain ⟨left, rfl⟩ := Nat.exists_eq_succ_of_ne_zero (Nat.ne_zero_of_lt hleft)
      have hend : b.get i = 0 := by
        rw [hget i, H.zeros i (by omega), ite_self]
      rw [textFrom, if_pos hend]
      rfl
  | succ n ih =>
      obtain ⟨left, rfl⟩ := Nat.exists_eq_succ_of_ne_zero (Nat.ne_zero_of_lt hleft)
      rw [textFrom, slice_cons]
      by_cases hmem : s.val.get i ∈ acpt.chars
      · rw [if_pos (by rw [hget i, if_pos hmem]), List.takeWhile_cons_of_neg (by simpa using hmem)]
      · have hsame : b.get i = s.val.get i := by rw [hget i, if_neg hmem]
        rw [hsame, if_neg (H.nonzero i (by omega)), ih (by omega) (by omega), Option.map_some,
          List.takeWhile_cons_of_pos (by simpa using hmem)]

/-- **The tokens** of the strings of a run.  At each place of the duplicate stands the text up to
the next delimiter; and the duplicate is a string as it should be exactly if there is none. -/
theorem run_strtok {w : World} {tr : List (Step World Call Kerr)}
    (h : Run step (fun w c => c.Live w ∧ Behaves w c) [] tr w) (hs : s ∈ w) (acpt : CString) :
    ((∃ d, s.strtok acpt = some d) ↔ s.Fits acpt) ∧
      ∀ d, s.strtok acpt = some d → d.opts = s.opts ∧ d.used = s.used ∧
        (∀ i, i ≤ s.used →
          textAt d.val i = some ((s.content.drop i).takeWhile (· ∉ acpt.chars))) ∧
        (Right d ↔ s.strpbrk acpt = some none) := by
  have H := run_clean h s hs
  have hused := H.used_le
  by_cases hfits : s.Fits acpt
  · obtain ⟨d, hd, ho, hdused, hsize, hget⟩ := H.strtok_spec hfits
    refine ⟨⟨fun _ => hfits, fun _ => ⟨d, hd⟩⟩, fun d' hd' => ?_⟩
    obtain rfl := Option.some.inj (hd.symm.trans hd')
    refine ⟨ho, hdused, fun i hi => ?_, ?_⟩
    · rw [textAt, content, drop_slice _ _ _ hi, Nat.zero_add]
      refine H.textFrom_eq hget (by omega) ?_
      rw [hsize, H.size_eq]
      omega
    · rw [strpbrk_eq_some_iff H.room hfits.2]
      have hzero : d.val.get s.used = 0 := by
        rw [hget, H.zeros _ (Nat.le_refl _), ite_self]
      have hin : s.used < d.val.size := by
        rw [hsize, H.size_eq]
        omega
      constructor
      · intro hright
        refine ⟨fun j hj hmem => ?_, hfits.1⟩
        have hstrlen := hright.strlen_eq
        rw [hdused] at hstrlen
        refine (strlen_eq_some_iff.mp hstrlen).2.2 j hj ?_
        rw [hget, if_pos hmem]
      · rintro ⟨hnone, -⟩
        refine ⟨by rw [hdused, ho]; exact hused, ?_, ?_⟩
        · rw [hdused]
          exact load_eq_zero_iff.mpr ⟨hin, hzero⟩
        · rw [hdused]
          refine strlen_eq_some_iff.mpr ⟨hzero, hin, fun j hj => ?_⟩
          rw [hget, if_neg (hnone j hj)]
          exact H.nonzero j hj
  · have hnone := H.strtok_eq_none hfits
    rw [hnone]
    refine ⟨⟨?_, fun hfits' => absurd hfits' hfits⟩, ?_⟩
    · rintro ⟨d, hd⟩
      cases hd
    · intro d hd
      cases hd

end Scan

/-- A character that occurs twice. -/
theorem finds_char_iff_twice :
    (∃ r, (ofChars [97, 98, 97]).strchr 97 = some r ∧
      (ofChars [97, 98, 97]).FirstOf (· = 97) r) ∧
    ∃ r, (ofChars [97, 98, 97]).strrchr 97 = some r ∧
      (ofChars [97, 98, 97]).LastOf (· = 97) r := by
  have hlen : ([97, 98, 97] : List Byte).length < 2 ^ 64 := by decide
  obtain ⟨hfound, hfirst, r, hr, hlast⟩ := finds_char_iff (room_ofChars hlen) 97
  obtain ⟨r', hr'⟩ := hfound.mpr (.inl (by decide))
  refine ⟨⟨r', hr', hfirst r' hr'⟩, r, hr, hlast.mpr fun i hi _ => ?_⟩
  rwa [looked_of_le (by decide)]

/-- Two tokens, `"a"` and `"b"`. -/
theorem run_strtok_comma : ∃ (w : World) (tr : List (Step World Call Kerr)) (s d : Kstr),
    Run step (fun w c => c.Live w ∧ Behaves w c) [] tr w ∧ s ∈ w ∧
      s.strtok ⟨[44], by decide⟩ = some d ∧
      textAt d.val 0 = some [97] ∧ textAt d.val 2 = some [98] := by
  have hrun : Run step (fun w c => c.Live w ∧ Behaves w c) ([] : World) _ _ :=
    run_of_runList [.create ⟨4⟩ true, .on 0 (.strcpyRaw ⟨[97, 44, 98], by decide⟩)] rfl (by
      simp only [List.forall_mem_cons]
      refine ⟨?_, ?_, by simp⟩ <;>
        simp [Call.Live, Op.Live, Behaves, Op.Behaves, CString.len, sizeofKstr])
  have htok := run_strtok hrun (List.mem_singleton_self _) ⟨[44], by decide⟩
  obtain ⟨d, hd⟩ := htok.1.mpr ⟨by decide, .inr (by decide)⟩
  have htext := (htok.2 d hd).2.2.1
  exact ⟨_, _, _, d, hrun, List.mem_singleton_self _, hd, htext 0 (by decide), htext 2 (by decide)⟩

end Kylin.Kstr
