import Kylin.Arch.Word
import Kylin.Lib.Buffer
import Mathlib.Data.Nat.Find

/-!
# Hardware addresses

`kylin_addr_mac_addr_str2hex` (`include/utils/kylin_addr.h`) reads six groups of hexadecimal digits
that are separated by colons.  It goes from colon to colon, and by the parts of the text it is
`readParts`.  A character that is no digit is left out, an empty part at the end is not looked at,
and whether there are too many groups is only asked behind the one too many has been stored.

`kylin_strchr` with three arguments is not in the repository, and so it is a parameter.

## Main definitions

* `macAddrStr2hex` — the function.
* `FindsFirst` — what it needs of `kylin_strchr`.
* `IsMac` — the texts that are addresses.
* `Misread` — those of which it makes something else than `-EINVAL`.
* `Parses` — the texts are read as they should be.

## Main results

* `macAddrStr2hex_eq` — the function, by the parts of the text.
* `parses_iff` — the texts that are read as they should be.
-/

namespace Kylin.MacAddr

open Lib

/-- `EINVAL`. -/
def einval : ℤ := 22

/-- `KYLIN_ADDR_MAC_ADDR_HEX_LEN`. -/
def hexLen : ℕ := 6

/-- `':'`. -/
def colon : Byte := 0x3a

/-- The value of a digit; other characters fall through. -/
def digit (c : Byte) : Option Byte :=
  if 0x30 ≤ c ∧ c ≤ 0x39 then some (c - 0x30)
  else if 0x41 ≤ c ∧ c ≤ 0x46 then some (c - 0x41 + 10)
  else if 0x61 ≤ c ∧ c ≤ 0x66 then some (c - 0x61 + 10)
  else none

/-- `hex[pos] = v`, for the value of the digit `c` shifted by `k`. -/
def assign (hex : Buffer Byte) (pos : ℕ) (c k : Byte) : Option (Buffer Byte) :=
  match digit c with
  | some v => hex.store pos (v <<< k)
  | none => some hex

/-- `hex[pos] |= v`. -/
def assignOr (hex : Buffer Byte) (pos : ℕ) (c : Byte) : Option (Buffer Byte) :=
  match digit c with
  | some v => do
      let x ← hex.load pos
      hex.store pos (x ||| v)
  | none => some hex

/-- The end of the group at `start`: the next colon, or behind `stop` if this is the last group. -/
def groupEnd (stop pos : ℕ) (ch : Option ℕ) : Option ℕ :=
  match ch with
  | some ch => some ch
  | none => if pos ≠ hexLen - 1 then none else some (stop + 1)

/-- `while (start <= stop)`. -/
def scan (strchr : Buffer Byte → ℕ → ℕ → Byte → Option ℕ) (str : Buffer Byte)
    (stop hexlen start pos : ℕ) (hex : Buffer Byte) : Option (ℤ × Buffer Byte) :=
  if start ≤ stop then
    match groupEnd stop pos (strchr str start stop colon) with
    | none => some (-einval, hex)
    | some ch =>
        if h : ch = start + 2 ∨ ch = start + 1 then do
          let c ← str.load start
          let hex ←
            if ch = start + 2 then do
              let hex ← assign hex pos c 4
              let d ← str.load (start + 1)
              assignOr hex pos d
            else assign hex pos c 0
          let pos := pos + 1
          if pos > hexlen then some (-einval, hex)
          else scan strchr str stop hexlen (ch + 1) pos hex
        else some (-einval, hex)
  else some (0, hex)
termination_by stop + 1 - start

/-- `kylin_addr_mac_addr_str2hex`: the value returned and `hex`. -/
def macAddrStr2hex (strchr : Buffer Byte → ℕ → ℕ → Byte → Option ℕ) (str : Buffer Byte)
    (hexlen : ℕ) (hex : Buffer Byte) : Option (ℤ × Buffer Byte) := do
  let hex ← hex.write 0 (List.replicate hexlen 0)
  if str.size < hexLen * 2 - 1 then some (0, hex)
  else scan strchr str (str.size - 1) hexlen 0 0 hex

/-! ## Parts -/

/-- `kylin_strchr(start, stop, c)` is the first place of `c` from `start` to `stop`, or `NULL`. -/
def FindsFirst (strchr : Buffer Byte → ℕ → ℕ → Byte → Option ℕ) : Prop :=
  ∀ str start stop c k, strchr str start stop c = some k ↔
    start ≤ k ∧ k ≤ stop ∧ str.get k = c ∧ ∀ j, start ≤ j → j < k → str.get j ≠ c

/-- One group of one or two characters. -/
def readGroup (hex : Buffer Byte) (pos : ℕ) : List Byte → Option (Buffer Byte)
  | [c] => assign hex pos c 0
  | [c, d] => do
      let hex ← assign hex pos c 4
      assignOr hex pos d
  | _ => some hex

/-- A group of a length that is accepted. -/
def Fits (g : List Byte) : Prop := g.length = 1 ∨ g.length = 2

instance (g : List Byte) : Decidable (Fits g) := inferInstanceAs (Decidable (_ ∨ _))

/-- The parts from `pos` on. -/
def readParts (hexlen : ℕ) : ℕ → Buffer Byte → List (List Byte) → Option (ℤ × Buffer Byte)
  | _, hex, [] => some (0, hex)
  | pos, hex, g :: more =>
      if g = [] ∧ more = [] then some (0, hex)
      else if more = [] ∧ pos ≠ hexLen - 1 then some (-einval, hex)
      else if Fits g then do
        let hex ← readGroup hex pos g
        if pos + 1 > hexlen then some (-einval, hex)
        else readParts hexlen (pos + 1) hex more
      else some (-einval, hex)

/-- The text. -/
def text (str : Buffer Byte) : List Byte := slice str.get 0 str.size

section Parts
variable {strchr : Buffer Byte → ℕ → ℕ → Byte → Option ℕ} {str hex : Buffer Byte}
  {stop hexlen start pos ch : ℕ}

/-- A group, once its end is known. -/
theorem scan_group (hstart : start ≤ stop) (hstop : stop < str.size) (hch : start ≤ ch)
    (hle : ch ≤ stop + 1) (hend : groupEnd stop pos (strchr str start stop colon) = some ch) :
    scan strchr str stop hexlen start pos hex =
      if Fits (slice str.get start (ch - start)) then do
        let hex ← readGroup hex pos (slice str.get start (ch - start))
        if pos + 1 > hexlen then some (-einval, hex)
        else scan strchr str stop hexlen (ch + 1) (pos + 1) hex
      else some (-einval, hex) := by
  rw [scan, if_pos hstart, hend]
  simp only [Fits, length_slice]
  by_cases htwo : ch = start + 2
  · have hslice : slice str.get start 2 = [str.get start, str.get (start + 1)] := rfl
    simp only [htwo, Nat.add_sub_cancel_left, hslice, readGroup,
      Buffer.load_of_lt (by omega : start < str.size), true_or, or_true, if_true, dif_pos,
      Buffer.load_of_lt (by omega : start + 1 < str.size), Option.bind_eq_bind, Option.bind_some,
      Option.bind_assoc]
  · by_cases hone : ch = start + 1
    · have hslice : slice str.get start 1 = [str.get start] := rfl
      simp only [hone, Nat.add_sub_cancel_left, hslice, readGroup,
        Buffer.load_of_lt (by omega : start < str.size), or_true, true_or, if_true, dif_pos,
        Option.bind_eq_bind, Option.bind_some, Nat.add_right_inj, OfNat.one_ne_ofNat, if_false]
    · rw [dif_neg (by omega), if_neg (by omega)]

/-- **The loop reads the parts of the text.** -/
theorem scan_eq (hfirst : FindsFirst strchr) (hstop : stop + 1 = str.size)
    (hstart : start ≤ str.size) : scan strchr str stop hexlen start pos hex =
      readParts hexlen pos hex ((slice str.get start (str.size - start)).splitOn colon) := by
  induction hleft : str.size - start using Nat.strong_induction_on generalizing start pos hex with
  | _ left ih =>
    subst hleft
    by_cases hend : start ≤ stop
    · cases hch : strchr str start stop colon with
      | some ch =>
          rcases (hfirst _ _ _ _ _).mp hch with ⟨hle, hlt, hcolon, hbefore⟩
          have hparts : (slice str.get start (str.size - start)).splitOn colon =
              slice str.get start (ch - start) ::
                (slice str.get (ch + 1) (str.size - (ch + 1))).splitOn colon := by
            have hmem : colon ∉ slice str.get start (ch - start) := by
              rw [mem_slice]
              rintro ⟨i, hi, hget⟩
              exact hbefore _ (Nat.le_add_right start i) (by omega) hget
            rw [(by omega : str.size - start = ch - start + (str.size - (ch + 1) + 1)),
              slice_append, slice_cons, Nat.add_sub_cancel' hle, hcolon,
              List.splitOn_append_cons_self_of_not_mem hmem]
          have hmore : (slice str.get (ch + 1) (str.size - (ch + 1))).splitOn colon ≠ [] :=
            List.splitOn_ne_nil _ _
          rw [hparts, readParts, if_neg (fun h => hmore h.2), if_neg (fun h => hmore h.1),
            scan_group hend (by omega) hle (by omega) (by rw [hch]; rfl)]
          refine if_congr Iff.rfl (Option.bind_congr fun hex' _ => if_congr Iff.rfl rfl ?_) rfl
          exact ih _ (by omega) (by omega) rfl
      | none =>
          have hmem : colon ∉ slice str.get start (str.size - start) := by
            rw [mem_slice]
            intro h
            -- the first one would have been found
            rcases Nat.find_spec h with ⟨hi, hget⟩
            have hfound := (hfirst str start stop colon (start + Nat.find h)).mpr
              ⟨by omega, by omega, hget, fun j hj hlt hget' => Nat.find_min h
                (by omega : j - start < Nat.find h) ⟨by omega, by rwa [Nat.add_sub_cancel' hj]⟩⟩
            rw [hch] at hfound
            cases hfound
          have hne : slice str.get start (str.size - start) ≠ [] := by
            rw [ne_eq, ← List.length_eq_zero_iff, length_slice]
            omega
          rw [List.splitOn_eq_singleton hmem, readParts, if_neg (fun h => hne h.1)]
          by_cases hpos : pos = hexLen - 1
          · have hgroup : groupEnd stop pos (strchr str start stop colon) = some (stop + 1) := by
              rw [hch, groupEnd, if_neg (fun h => h hpos)]
            rw [if_neg (fun h => h.2 hpos),
              scan_group hend (by omega) (by omega) (Nat.le_refl _) hgroup, hstop]
            refine if_congr Iff.rfl (Option.bind_congr fun hex' _ => if_congr Iff.rfl rfl ?_) rfl
            rw [scan, if_neg (by omega), readParts]
          · rw [if_pos ⟨rfl, hpos⟩, scan, if_pos hend, hch, groupEnd, if_pos hpos]
    · rw [scan, if_neg hend, (by omega : str.size - start = 0), slice_zero, List.splitOn_nil,
        readParts, if_pos ⟨rfl, rfl⟩]

end Parts

/-! ## Values -/

/-- The value of a digit of either case. -/
def digitValue (c : Byte) : Option ℕ :=
  let lower := ['0', '1', '2', '3', '4', '5', '6', '7', '8', '9', 'a', 'b', 'c', 'd', 'e', 'f']
  let upper := ['0', '1', '2', '3', '4', '5', '6', '7', '8', '9', 'A', 'B', 'C', 'D', 'E', 'F']
  (lower.map Char.toUInt8).idxOf? c <|> (upper.map Char.toUInt8).idxOf? c

/-- The value of a hexadecimal number. -/
def hexValue (g : List Byte) : Option ℕ :=
  g.foldlM (fun n c => (digitValue c).map fun v => 16 * n + v) 0

section Values
variable {hex : Buffer Byte} {pos : ℕ} {c d : Byte} {g : List Byte}

/-- What the code takes for a digit is one, of that value. -/
theorem digit_spec (c : Byte) : digitValue c = (digit c).map UInt8.toNat ∧
    ∀ v, digit c = some v → v.toNat < 16 := by
  have hall : ∀ n, n < 256 → digitValue (UInt8.ofNat n) = (digit (UInt8.ofNat n)).map UInt8.toNat ∧
      (digit (UInt8.ofNat n)).all fun v => v.toNat < 16 := by decide +kernel
  rcases UInt8.ofNat_toNat (x := c) ▸ hall c.toNat c.toNat_lt with ⟨hvalue, hlt⟩
  refine ⟨hvalue, fun v hv => ?_⟩
  rw [hv] at hlt
  exact of_decide_eq_true hlt

/-- A number has a value if it is made of digits. -/
theorem hexValue_isSome_iff : (hexValue g).isSome = true ↔ ∀ c ∈ g, digit c ≠ none := by
  have hfold : ∀ n, (g.foldlM (fun n c => (digitValue c).map fun v => 16 * n + v) n).isSome = true ↔
      ∀ c ∈ g, digit c ≠ none := by
    induction g with
    | nil => simp
    | cons c g ih =>
        intro n
        rw [List.foldlM_cons, (digit_spec c).1, List.forall_mem_cons]
        cases digit c with
        | none => simp
        | some v => simpa using ih _
  exact hfold 0

theorem hexValue_one {n : ℕ} : hexValue [c] = some n ↔ ∃ v, digit c = some v ∧ n = v.toNat := by
  rw [hexValue, List.foldlM_cons, (digit_spec c).1]
  cases digit c <;> simp [eq_comm]

theorem hexValue_two {n : ℕ} : hexValue [c, d] = some n ↔
    ∃ v w, digit c = some v ∧ digit d = some w ∧ n = 16 * v.toNat + w.toNat := by
  rw [hexValue, List.foldlM_cons, (digit_spec c).1]
  cases digit c with
  | none => simp
  | some v =>
      simp only [Option.map_some, Option.bind_eq_bind, Option.bind_some, List.foldlM_cons,
        (digit_spec d).1]
      cases digit d <;> simp [eq_comm]

/-- Two digits in one byte. -/
theorem toNat_nibbles {v w : Byte} (hv : v.toNat < 16) (hw : w.toNat < 16) :
    (v <<< 4 ||| w).toNat = 16 * v.toNat + w.toNat := by
  have hall : ∀ m, m < 16 → ∀ n, n < 16 →
      (UInt8.ofNat m <<< 4 ||| UInt8.ofNat n).toNat = 16 * m + n := by decide +kernel
  have h := hall v.toNat hv w.toNat hw
  rwa [UInt8.ofNat_toNat, UInt8.ofNat_toNat] at h

/-- A turn that changes at most the byte at `pos`, and leaves `f` there if `c` is a digit. -/
def Puts (hex : Buffer Byte) (pos : ℕ) (c : Byte) (f : Byte → Byte)
    (r : Option (Buffer Byte)) : Prop :=
  ∃ hex', r = some hex' ∧ hex'.size = hex.size ∧ (∀ j, j ≠ pos → hex'.get j = hex.get j) ∧
    ∀ v, digit c = some v → hex'.get pos = f v

theorem puts_store {f : Byte → Byte} (hpos : pos < hex.size) :
    Puts hex pos c f (match digit c with
      | some v => hex.store pos (f v)
      | none => some hex) := by
  rcases hc : digit c with - | v
  · refine ⟨hex, rfl, rfl, fun j _ => rfl, fun v hv => ?_⟩
    rw [hc] at hv
    cases hv
  · refine ⟨_, Buffer.store_of_lt hpos (f v), rfl, fun j hj => Function.update_of_ne hj _ _,
      fun w hw => ?_⟩
    rw [hc] at hw
    cases hw
    exact Function.update_self _ _ _

theorem assign_spec (k : Byte) (hpos : pos < hex.size) :
    Puts hex pos c (· <<< k) (assign hex pos c k) := puts_store hpos

theorem assignOr_spec (hpos : pos < hex.size) :
    Puts hex pos c (hex.get pos ||| ·) (assignOr hex pos c) := by
  rw [assignOr, Buffer.load_of_lt hpos]
  exact puts_store hpos

/-- A group that is stored. -/
theorem readGroup_spec (hg : Fits g) (hpos : pos < hex.size) :
    ∃ hex', readGroup hex pos g = some hex' ∧ hex'.size = hex.size ∧
      (∀ j, j ≠ pos → hex'.get j = hex.get j) ∧
      ∀ v, hexValue g = some v → (hex'.get pos).toNat = v := by
  rcases hg with hg | hg
  · obtain ⟨c, rfl⟩ := List.length_eq_one_iff.mp hg
    rcases assign_spec 0 hpos with ⟨hex', hassign, hsize, hframe, hvalue⟩
    refine ⟨hex', hassign, hsize, hframe, fun n hn => ?_⟩
    obtain ⟨v, hv, rfl⟩ := hexValue_one.mp hn
    rw [hvalue v hv]
    exact congrArg UInt8.toNat UInt8.shiftLeft_zero
  · obtain ⟨c, d, rfl⟩ := List.length_eq_two.mp hg
    rcases assign_spec 4 hpos with ⟨hex₁, hassign, hsize₁, hframe₁, hvalue₁⟩
    have hor : Puts hex₁ pos d (hex₁.get pos ||| ·) (assignOr hex₁ pos d) :=
      assignOr_spec (by omega)
    rcases hor with ⟨hex₂, hassignOr, hsize₂, hframe₂, hvalue₂⟩
    refine ⟨hex₂, ?_, hsize₂.trans hsize₁, fun j hj => (hframe₂ j hj).trans (hframe₁ j hj),
      fun n hn => ?_⟩
    · rw [readGroup, hassign, Option.bind_eq_bind, Option.bind_some, hassignOr]
    · obtain ⟨v, w, hv, hw, rfl⟩ := hexValue_two.mp hn
      rw [hvalue₂ w hw, hvalue₁ v hv]
      exact toNat_nibbles ((digit_spec c).2 v hv) ((digit_spec d).2 w hw)

/-- A group behind the end faults unless nothing is stored. -/
theorem readGroup_overrun (hg : Fits g) (hpos : hex.size ≤ pos) :
    (∀ c ∈ g, digit c = none) ∧ readGroup hex pos g = some hex ∨
      (∃ c ∈ g, digit c ≠ none) ∧ readGroup hex pos g = none := by
  have hassign : ∀ c k, assign hex pos c k = if digit c = none then some hex else none := by
    intro c k
    rw [assign]
    cases digit c with
    | none => rfl
    | some v => exact if_neg (Nat.not_lt.mpr hpos)
  have hassignOr : ∀ d, assignOr hex pos d = if digit d = none then some hex else none := by
    intro d
    rw [assignOr, Buffer.load, if_neg (Nat.not_lt.mpr hpos)]
    cases digit d <;> rfl
  rcases hg with hg | hg
  · obtain ⟨c, rfl⟩ := List.length_eq_one_iff.mp hg
    rw [readGroup, hassign]
    by_cases hc : digit c = none <;> simp [hc]
  · obtain ⟨c, d, rfl⟩ := List.length_eq_two.mp hg
    rw [readGroup, hassign]
    by_cases hc : digit c = none <;> by_cases hd : digit d = none <;> simp [hc, hd, hassignOr]

end Values

/-! ## Outcomes -/

/-- From `pos` on, `0` is returned: six groups, or an empty part behind at most six. -/
def Accepted (pos : ℕ) (ps : List (List Byte)) : Prop :=
  ps.length + pos = hexLen ∧ (∀ g ∈ ps, Fits g) ∨
    ∃ gs, ps = gs ++ [[]] ∧ gs.length + pos ≤ hexLen ∧ ∀ g ∈ gs, Fits g

/-- From `pos` on, a digit is stored behind the end: there are a seventh group and a colon. -/
def Overrun (pos : ℕ) (ps : List (List Byte)) : Prop :=
  ∃ gs g more, ps = gs ++ g :: more ∧ gs.length + pos = hexLen ∧ more ≠ [] ∧
    (∀ x ∈ gs, Fits x) ∧ Fits g ∧ ∃ c ∈ g, digit c ≠ none

section Outcomes
variable {hex : Buffer Byte} {pos : ℕ} {g : List Byte} {ps more : List (List Byte)}

theorem accepted_cons : Accepted pos (g :: more) ↔
    g = [] ∧ more = [] ∧ pos ≤ hexLen ∨ Fits g ∧ Accepted (pos + 1) more := by
  constructor
  · rintro (⟨hlen, hfits⟩ | ⟨gs, heq, hlen, hfits⟩)
    · rw [List.forall_mem_cons] at hfits
      rw [List.length_cons] at hlen
      exact .inr ⟨hfits.1, .inl ⟨by omega, hfits.2⟩⟩
    · cases gs with
      | nil =>
          obtain ⟨rfl, rfl⟩ := List.cons.inj heq
          exact .inl ⟨rfl, rfl, by simpa using hlen⟩
      | cons x gs =>
          obtain ⟨rfl, rfl⟩ := List.cons.inj heq
          rw [List.forall_mem_cons] at hfits
          rw [List.length_cons] at hlen
          exact .inr ⟨hfits.1, .inr ⟨gs, rfl, by omega, hfits.2⟩⟩
  · rintro (⟨rfl, rfl, hpos⟩ | ⟨hg, ⟨hlen, hfits⟩ | ⟨gs, rfl, hlen, hfits⟩⟩)
    · exact .inr ⟨[], rfl, by simpa using hpos, by simp⟩
    · exact .inl ⟨by rw [List.length_cons]; omega, List.forall_mem_cons.mpr ⟨hg, hfits⟩⟩
    · exact .inr ⟨g :: gs, rfl, by rw [List.length_cons]; omega,
        List.forall_mem_cons.mpr ⟨hg, hfits⟩⟩

theorem overrun_cons : Overrun pos (g :: more) ↔ Fits g ∧
    (pos = hexLen ∧ more ≠ [] ∧ (∃ c ∈ g, digit c ≠ none) ∨ Overrun (pos + 1) more) := by
  constructor
  · rintro ⟨gs, x, rest, heq, hlen, hrest, hfits, hx, hdigit⟩
    cases gs with
    | nil =>
        obtain ⟨rfl, rfl⟩ := List.cons.inj heq
        exact ⟨hx, .inl ⟨by simpa using hlen, hrest, hdigit⟩⟩
    | cons y gs =>
        obtain ⟨rfl, rfl⟩ := List.cons.inj heq
        rw [List.forall_mem_cons] at hfits
        rw [List.length_cons] at hlen
        exact ⟨hfits.1, .inr ⟨gs, x, rest, rfl, by omega, hrest, hfits.2, hx, hdigit⟩⟩
  · rintro ⟨hg, ⟨rfl, hmore, hdigit⟩ | ⟨gs, x, rest, rfl, hlen, hrest, hfits, hx, hdigit⟩⟩
    · exact ⟨[], g, more, rfl, by simp, hmore, by simp, hg, hdigit⟩
    · exact ⟨g :: gs, x, rest, rfl, by rw [List.length_cons]; omega, hrest,
        List.forall_mem_cons.mpr ⟨hg, hfits⟩, hx, hdigit⟩

theorem not_accepted_of_lt (h : hexLen < pos) : ¬ Accepted pos ps := by
  rintro (⟨hlen, -⟩ | ⟨gs, -, hlen, -⟩) <;> omega

theorem not_overrun_of_lt (h : hexLen < pos) : ¬ Overrun pos ps := by
  rintro ⟨gs, x, rest, -, hlen, -⟩
  omega

theorem accepted_nil : Accepted pos [] ↔ pos = hexLen := by
  constructor
  · rintro (⟨hlen, -⟩ | ⟨gs, heq, -⟩)
    · rwa [List.length_nil, Nat.zero_add] at hlen
    · exact absurd heq.symm (by simp)
  · exact fun h => .inl ⟨by rw [List.length_nil, Nat.zero_add, h], by simp⟩

theorem not_overrun_nil : ¬ Overrun pos [] := by
  rintro ⟨gs, x, rest, heq, -⟩
  exact absurd heq.symm (by simp)

/-- **What comes of the parts from `pos` on.** -/
theorem readParts_cases (hsize : hex.size = hexLen) (hpos : pos ≤ hexLen)
    (hps : ps = [] → pos = hexLen) :
    Overrun pos ps ∧ readParts hexLen pos hex ps = none ∨
      ¬ Overrun pos ps ∧ ∃ r hex', readParts hexLen pos hex ps = some (r, hex') ∧
        hex'.size = hexLen ∧ (Accepted pos ps ∧ r = 0 ∨ ¬ Accepted pos ps ∧ r = -einval) := by
  have hsix : hexLen = 6 := rfl
  induction ps generalizing pos hex with
  | nil =>
      refine .inr ⟨not_overrun_nil, 0, hex, rfl, hsize, .inl ⟨accepted_nil.mpr (hps rfl), rfl⟩⟩
  | cons g more ih =>
      rw [accepted_cons, overrun_cons, readParts]
      by_cases hlast : g = [] ∧ more = []
      · rw [if_pos hlast]
        refine .inr ⟨fun h => ?_, 0, hex, rfl, hsize, .inl ⟨.inl ⟨hlast.1, hlast.2, hpos⟩, rfl⟩⟩
        rw [hlast.1] at h
        exact absurd h.1 (by decide)
      · have hnot : ¬ (g = [] ∧ more = [] ∧ pos ≤ hexLen) := fun h => hlast ⟨h.1, h.2.1⟩
        rw [if_neg hlast, or_iff_right hnot]
        by_cases hshort : more = [] ∧ pos ≠ hexLen - 1
        · rw [if_pos hshort, hshort.1]
          refine .inr ⟨?_, _, hex, rfl, hsize, .inr ⟨fun h => ?_, rfl⟩⟩
          · rintro ⟨-, ⟨-, hmore, -⟩ | h⟩
            · exact hmore rfl
            · exact not_overrun_nil h
          · have hend := accepted_nil.mp h.2
            have hne := hshort.2
            omega
        · rw [if_neg hshort]
          by_cases hg : Fits g
          · rw [if_pos hg]
            rcases Nat.lt_or_eq_of_le hpos with hlt | rfl
            · -- a group that is stored
              rcases readGroup_spec hg (hsize ▸ hlt) with ⟨hex₁, hread, hsize₁, -⟩
              have hmore : more = [] → pos + 1 = hexLen := by
                intro h
                have hp := not_and_not_right.mp hshort h
                omega
              have hcont := ih (hsize₁.trans hsize) hlt hmore
              simp only [hread, Option.bind_eq_bind, Option.bind_some,
                if_neg (by omega : ¬ pos + 1 > hexLen), hg, true_and, hlt.ne, false_and, false_or]
              exact hcont
            · -- the seventh group
              have hmore : more ≠ [] := by
                intro h
                have hp := not_and_not_right.mp hshort h
                omega
              obtain ⟨hdigits, hread⟩ | ⟨hdigit, hread⟩ := readGroup_overrun hg hsize.le
              · rw [hread, Option.bind_eq_bind, Option.bind_some,
                  if_pos (Nat.lt_succ_self hexLen)]
                refine .inr ⟨?_, _, hex, rfl, hsize,
                  .inr ⟨fun h => not_accepted_of_lt (Nat.lt_succ_self hexLen) h.2, rfl⟩⟩
                rintro ⟨-, ⟨-, -, c, hc, hdigit⟩ | h⟩
                · exact hdigit (hdigits c hc)
                · exact not_overrun_of_lt (Nat.lt_succ_self hexLen) h
              · rw [hread]
                exact .inl ⟨⟨hg, .inl ⟨rfl, hmore, hdigit⟩⟩, rfl⟩
          · rw [if_neg hg]
            exact .inr ⟨fun h => hg h.1, _, hex, rfl, hsize, .inr ⟨fun h => hg h.1, rfl⟩⟩

/-- **Six groups of digits are read.** -/
theorem readParts_of_hexValue (hsize : hex.size = hexLen) (hlen : ps.length + pos = hexLen)
    (hps : ∀ g ∈ ps, Fits g ∧ (hexValue g).isSome = true) :
    ∃ hex', readParts hexLen pos hex ps = some (0, hex') ∧
      (∀ j, j < pos → hex'.get j = hex.get j) ∧
      ∀ i, i < ps.length → (ps[i]?.bind hexValue) = some (hex'.get (pos + i)).toNat := by
  have hsix : hexLen = 6 := rfl
  induction ps generalizing pos hex with
  | nil => exact ⟨hex, rfl, fun _ _ => rfl, fun i hi => absurd hi (Nat.not_lt_zero i)⟩
  | cons g more ih =>
      rw [List.forall_mem_cons] at hps
      rw [List.length_cons] at hlen
      rcases readGroup_spec hps.1.1 (by omega : pos < hex.size) with
        ⟨hex₁, hread, hsize₁, hframe₁, hvalue₁⟩
      rcases ih (hsize₁.trans hsize) (by omega : more.length + (pos + 1) = hexLen) hps.2 with
        ⟨hex', hrest, hframe, hvalue⟩
      have hne : g ≠ [] := by
        rintro rfl
        exact absurd hps.1.1 (by decide)
      refine ⟨hex', ?_, fun j hj => ?_, fun i hi => ?_⟩
      · rw [readParts, if_neg (fun h => hne h.1), if_neg, if_pos hps.1.1, hread,
          Option.bind_eq_bind, Option.bind_some, if_neg (by omega), hrest]
        rintro ⟨rfl, hpos⟩
        rw [List.length_nil] at hlen
        omega
      · rw [hframe j (by omega), hframe₁ j (by omega)]
      · cases i with
        | zero =>
            obtain ⟨n, hn⟩ := Option.isSome_iff_exists.mp hps.1.2
            rw [List.getElem?_cons_zero, Option.bind_some, hn, Nat.add_zero,
              hframe pos (Nat.lt_succ_self pos), hvalue₁ n hn]
        | succ i =>
            rw [List.getElem?_cons_succ, hvalue i (by simpa using hi), Nat.add_right_comm,
              Nat.add_assoc]

end Outcomes

/-! ## Texts -/

/-- The text is six groups `gs` of one or two digits, separated by colons. -/
def IsMac (gs : List (List Byte)) (str : Buffer Byte) : Prop :=
  gs.length = 6 ∧ text str = [colon].intercalate gs ∧
    ∀ g ∈ gs, Fits g ∧ (hexValue g).isSome = true

/-- **The text is read as it should be**: nothing is stored behind `hex`, an address is stored, and
another text that is not too short is rejected. -/
def Parses (strchr : Buffer Byte → ℕ → ℕ → Byte → Option ℕ) (str hex : Buffer Byte) : Prop :=
  ∃ r hex', macAddrStr2hex strchr str 6 hex = some (r, hex') ∧
    (∀ gs, IsMac gs str →
      r = 0 ∧ ∀ i, i < 6 → (gs[i]?.bind hexValue) = some (hex'.get i).toNat) ∧
    ((¬ ∃ gs, IsMac gs str) → 11 ≤ str.size → r = -einval)

/-- The parts of a text that is not an address, but is not rejected either: a character is no digit,
the last of at most seven parts is empty, or a seventh group is stored. -/
def Misread (ps : List (List Byte)) : Prop :=
  (ps.length = 6 ∧ (∀ g ∈ ps, Fits g) ∧ ∃ g ∈ ps, ∃ c ∈ g, digit c = none) ∨
    (∃ gs, ps = gs ++ [[]] ∧ gs.length ≤ 6 ∧ ∀ g ∈ gs, Fits g) ∨
    ∃ gs g more, ps = gs ++ g :: more ∧ gs.length = 6 ∧ more ≠ [] ∧
      (∀ x ∈ gs, Fits x) ∧ Fits g ∧ ∃ c ∈ g, digit c ≠ none

section Texts
variable {strchr : Buffer Byte → ℕ → ℕ → Byte → Option ℕ} {str hex : Buffer Byte}
  {gs ps : List (List Byte)}

/-- The groups of an address are the parts of the text. -/
theorem isMac_iff : IsMac gs str ↔ (text str).splitOn colon = gs ∧ gs.length = 6 ∧
    ∀ g ∈ gs, Fits g ∧ (hexValue g).isSome = true := by
  constructor
  · rintro ⟨hlen, htext, hgs⟩
    have hcolon : ∀ g ∈ gs, colon ∉ g := by
      intro g hg hmem
      exact hexValue_isSome_iff.mp (hgs g hg).2 colon hmem (by decide)
    have hne : gs ≠ [] := by
      rintro rfl
      cases hlen
    exact ⟨htext ▸ List.splitOn_intercalate colon hcolon hne, hlen, hgs⟩
  · rintro ⟨rfl, hlen, hgs⟩
    exact ⟨hlen, (List.intercalate_splitOn colon).symm, hgs⟩

/-- An address has at least eleven characters. -/
theorem IsMac.le_size (h : IsMac gs str) : 11 ≤ str.size := by
  obtain ⟨hlen, htext, hgs⟩ := h
  have hsize : str.size = ([colon].intercalate gs).length := by rw [← htext, text, length_slice]
  have hpos : ∀ g ∈ gs, 1 ≤ g.length := by
    intro g hg
    rcases (hgs g hg).1 with h | h <;> omega
  rcases gs with - | ⟨g₁, - | ⟨g₂, - | ⟨g₃, - | ⟨g₄, - | ⟨g₅, - | ⟨g₆, - | ⟨g₇, gs⟩⟩⟩⟩⟩⟩⟩
  case cons.cons.cons.cons.cons.cons.nil =>
    simp only [List.forall_mem_cons] at hpos
    rw [hsize]
    simp [List.intercalate_cons_cons]
    omega
  all_goals simp at hlen

theorem accepted_zero_iff : Accepted 0 ps ↔ ps.length = 6 ∧ (∀ g ∈ ps, Fits g) ∨
    ∃ gs, ps = gs ++ [[]] ∧ gs.length ≤ 6 ∧ ∀ g ∈ gs, Fits g := by
  simp only [Accepted, Nat.add_zero, hexLen]

/-- What is misread: what is accepted and is no address, and what is stored behind the end. -/
theorem misread_iff : Misread ps ↔ (Accepted 0 ps ∧
    ¬ (ps.length = 6 ∧ ∀ g ∈ ps, Fits g ∧ (hexValue g).isSome = true)) ∨ Overrun 0 ps := by
  rw [accepted_zero_iff]
  constructor
  · rintro (⟨hlen, hfits, g, hg, c, hc, hdigit⟩ | ⟨gs, rfl, hlen, hfits⟩ | hover)
    · exact .inl ⟨.inl ⟨hlen, hfits⟩, fun h => hexValue_isSome_iff.mp (h.2 g hg).2 c hc hdigit⟩
    · refine .inl ⟨.inr ⟨gs, rfl, hlen, hfits⟩, fun h => ?_⟩
      exact absurd (h.2 [] (by simp)).1 (by decide)
    · exact .inr hover
  · rintro (⟨⟨hlen, hfits⟩ | hempty, hnot⟩ | hover)
    · refine .inl ⟨hlen, hfits, ?_⟩
      by_contra hall
      refine hnot ⟨hlen, fun g hg => ⟨hfits g hg, hexValue_isSome_iff.mpr fun c hc hdigit => ?_⟩⟩
      exact hall ⟨g, hg, c, hc, hdigit⟩
    · exact .inr (.inl hempty)
    · exact .inr (.inr hover)

/-- `memset(hex, 0, hexlen)`. -/
def zeros (hex : Buffer Byte) : Buffer Byte :=
  { hex with get := overlay hex.get 0 (List.replicate 6 0) }

/-- **The function, by the parts of the text.** -/
theorem macAddrStr2hex_eq (hfirst : FindsFirst strchr) (hsize : hex.size = 6) :
    macAddrStr2hex strchr str 6 hex = if str.size < 11 then some (0, zeros hex)
      else readParts hexLen 0 (zeros hex) ((text str).splitOn colon) := by
  have hwrite : hex.write 0 (List.replicate 6 0) = some (zeros hex) :=
    Buffer.write_of_le (by rw [List.length_replicate]; omega)
  rw [macAddrStr2hex, hwrite, Option.bind_eq_bind, Option.bind_some]
  by_cases hshort : str.size < 11
  · rw [if_pos hshort]
    exact if_pos hshort
  · rw [if_neg hshort]
    exact (if_neg hshort).trans (scan_eq hfirst (by omega) (Nat.zero_le _))

/-- **Which texts are read as they should be**: those too short, and those that are not misread. -/
theorem parses_iff (hfirst : FindsFirst strchr) (hsize : hex.size = 6) :
    Parses strchr str hex ↔ str.size < 11 ∨ ¬ Misread ((text str).splitOn colon) := by
  have hmac : (∃ gs, IsMac gs str) ↔ ((text str).splitOn colon).length = 6 ∧
      ∀ g ∈ (text str).splitOn colon, Fits g ∧ (hexValue g).isSome = true := by
    simp only [isMac_iff, exists_eq_left']
  have hzeros : (zeros hex).size = hexLen := hsize
  rw [Parses, macAddrStr2hex_eq hfirst hsize]
  by_cases hshort : str.size < 11
  · rw [if_pos hshort]
    refine iff_of_true ⟨0, zeros hex, rfl, fun gs h => ?_, fun _ h => ?_⟩ (.inl hshort)
    · exact absurd h.le_size (by omega)
    · omega
  · rw [if_neg hshort, or_iff_right hshort, misread_iff, ← hmac]
    have hne : (text str).splitOn colon = [] → 0 = hexLen :=
      fun h => absurd h (List.splitOn_ne_nil _ _)
    rcases readParts_cases hzeros (Nat.zero_le _) hne with
      ⟨hover, hrun⟩ | ⟨hover, r, hex', hrun, -, hr⟩
    · rw [hrun]
      refine iff_of_false ?_ fun h => h (.inr hover)
      rintro ⟨r, hex', heq, -⟩
      cases heq
    · rw [or_iff_left hover]
      constructor
      · rintro ⟨r', hex'', heq', -, hreject⟩ ⟨haccept, hnot⟩
        rw [hrun] at heq'
        cases heq'
        -- an accepted text that is no address
        have hinval := hreject hnot (by omega)
        rcases hr with ⟨-, hr⟩ | ⟨hno, -⟩
        · rw [hr] at hinval
          exact absurd hinval (by decide)
        · exact hno haccept
      · intro hread
        by_cases haddr : ∃ gs, IsMac gs str
        · obtain ⟨hlen, hgs⟩ := hmac.mp haddr
          have hsix : ((text str).splitOn colon).length + 0 = hexLen := hlen
          obtain ⟨hex₁, hrun₁, -, hvalue⟩ := readParts_of_hexValue hzeros hsix hgs
          refine ⟨0, hex₁, hrun₁, fun gs h => ⟨rfl, fun i hi => ?_⟩, fun h => absurd haddr h⟩
          rw [← (isMac_iff.mp h).1, hvalue i (by omega), Nat.zero_add]
        · refine ⟨r, hex', hrun, fun gs h => absurd ⟨gs, h⟩ haddr, fun _ _ => ?_⟩
          rcases hr with ⟨haccept, -⟩ | ⟨-, hr⟩
          · exact absurd ⟨haccept, haddr⟩ hread
          · exact hr

end Texts

/-! ## Examples -/

/-- A `kylin_strchr` that does what is needed of it. -/
def firstIn (str : Buffer Byte) (start stop : ℕ) (c : Byte) : Option ℕ :=
  ((List.range (stop + 1 - start)).find? fun i => str.get (start + i) = c).map (start + ·)

theorem findsFirst_firstIn : FindsFirst firstIn := by
  intro str start stop c k
  rw [firstIn, Option.map_eq_some_iff]
  constructor
  · rintro ⟨i, hi, rfl⟩
    rw [List.find?_range_eq_some] at hi
    obtain ⟨hget, hmem, hbefore⟩ := hi
    rw [List.mem_range] at hmem
    refine ⟨by omega, by omega, of_decide_eq_true hget, fun j hj hlt heq => ?_⟩
    have hnot := hbefore (j - start) (by omega)
    rw [Nat.add_sub_cancel' hj, heq] at hnot
    simp at hnot
  · rintro ⟨hle, hstop, hget, hbefore⟩
    refine ⟨k - start, ?_, by omega⟩
    rw [List.find?_range_eq_some]
    refine ⟨by rw [Nat.add_sub_cancel' hle]; exact decide_eq_true hget, by
      rw [List.mem_range]; omega, fun j hj => ?_⟩
    simpa using hbefore (start + j) (by omega) (by omega)

def ofChars (cs : List Char) : Buffer Byte :=
  ⟨cs.length, fun i => (cs.map Char.toUInt8).getD i 0⟩

/-- Six bytes. -/
def blank : Buffer Byte := ⟨6, fun _ => 0xff⟩

/-- `1:2:3:4:5:6`. -/
def sixGroups : Buffer Byte := ofChars ['1', ':', '2', ':', '3', ':', '4', ':', '5', ':', '6']

theorem parses_sixGroups : Parses firstIn sixGroups blank := by
  refine (parses_iff findsFirst_firstIn rfl).mpr (.inr ?_)
  have hparts : (text sixGroups).splitOn colon = [[0x31], [0x32], [0x33], [0x34], [0x35], [0x36]] :=
    by decide
  rw [hparts]
  rintro (⟨-, -, hdigit⟩ | ⟨gs, heq, -⟩ | ⟨gs, g, more, heq, hlen, -⟩)
  · revert hdigit
    decide
  · have hlast := congrArg List.getLast? heq
    simp at hlast
  · have hlength := congrArg List.length heq
    rw [List.length_append, List.length_cons, hlen] at hlength
    simp at hlength

/-- `zz:zz:zz:zz:zz:zz`. -/
def noDigits : Buffer Byte := ofChars
  ['z', 'z', ':', 'z', 'z', ':', 'z', 'z', ':', 'z', 'z', ':', 'z', 'z', ':', 'z', 'z']

/-- `0:0:0:0:0:0:0:`. -/
def sevenGroups : Buffer Byte := ofChars
  ['0', ':', '0', ':', '0', ':', '0', ':', '0', ':', '0', ':', '0', ':']

/-- The first is accepted, and for the second a seventh byte is stored. -/
theorem not_parses_noDigits_sevenGroups :
    (macAddrStr2hex firstIn noDigits 6 blank).map Prod.fst = some 0 ∧
      ¬ Parses firstIn noDigits blank ∧
      macAddrStr2hex firstIn sevenGroups 6 blank = none ∧
      ¬ Parses firstIn sevenGroups blank := by
  have haccept : (macAddrStr2hex firstIn noDigits 6 blank).map Prod.fst = some 0 := by
    rw [macAddrStr2hex_eq findsFirst_firstIn rfl]
    decide
  have hfault : macAddrStr2hex firstIn sevenGroups 6 blank = none := by
    rw [macAddrStr2hex_eq findsFirst_firstIn rfl]
    rfl
  refine ⟨haccept, ?_, hfault, ?_⟩
  · rintro ⟨r, hex', hrun, -, hreject⟩
    rw [hrun, Option.map_some, hreject ?_ (by decide)] at haccept
    · exact absurd (Option.some.inj haccept) (by decide : -einval ≠ 0)
    · rintro ⟨gs, hgs⟩
      obtain ⟨rfl, -, hdigits⟩ := isMac_iff.mp hgs
      revert hdigits
      decide
  · rintro ⟨r, hex', hrun, -⟩
    rw [hfault] at hrun
    cases hrun

end Kylin.MacAddr
