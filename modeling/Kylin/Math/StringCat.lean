import Kylin.Math.String

/-!
# Appending to a string

`kylin_strncat` and `kylin_strncat_raw` (`lib/core/math/kylin_string.c`) refuse what is longer
than their source or the free space, and otherwise copy behind the characters in use, which
they do not count.  The raw form checks `n` and copies the whole source.

## Main definitions

* `Kstr.Room` — a string with its block.
* `Kstr.content` — the characters in use.
* `Source` — what can be appended.
* `Appends`, `Composes` — what appending is for.

## Main results

* `Source.strncat_refused`, `Source.strncat_accepted` — the two outcomes of a call.
* `appends_iff` — the arguments for which a call appends, and two calls compose.
-/

namespace Kylin

open Lib

namespace Kstr

/-- A block of `cap + 1` characters, of which no more than `cap` are in use. -/
structure Room (s : Kstr) : Prop where
  cap_lt : s.opts.cap < 2 ^ 64
  size_eq : s.val.size = s.opts.cap + 1
  used_le : s.used ≤ s.opts.cap

/-- The characters in use. -/
def content (s : Kstr) : List Byte := slice s.val.get 0 s.used

@[simp] theorem length_content (s : Kstr) : s.content.length = s.used := length_slice _ _ _

/-- The characters that are copied from a string, or compared. -/
theorem Room.read {s : Kstr} (H : s.Room) {n : ℕ} (hn : n ≤ s.used) :
    s.val.read 0 n = some (s.content.take n) := by
  have hused := H.used_le
  have hsize := H.size_eq
  rw [Buffer.read_of_le (by omega)]
  exact congrArg some (take_slice s.val.get 0 s.used hn).symm

end Kstr

/-- What can be appended to a string. -/
inductive Source
  | kstr (s : Kstr)
  | raw (s : CString)

namespace Source

/-- The characters of a source. -/
def chars : Source → List Byte
  | .kstr s => s.content
  | .raw s => s.chars

/-- `src->used`, or `strlen(src)`. -/
def len : Source → ℕ
  | .kstr s => s.used
  | .raw s => s.len

/-- `kylin_strncat`, or `kylin_strncat_raw`. -/
def strncat (dest : Kstr) (n : ℕ) : Source → Option (Kerr × Kstr)
  | .kstr s => dest.strncat s n
  | .raw s => dest.strncatRaw s n

/-- `kylin_strcat`, or `kylin_strcat_raw`. -/
def strcat (dest : Kstr) : Source → Option (Kerr × Kstr)
  | .kstr s => dest.strcat s
  | .raw s => dest.strcatRaw s

/-- A source in its block. -/
def Room : Source → Prop
  | .kstr s => s.Room
  | .raw _ => True

/-- The characters that a call with `n` copies. -/
def copied (n : ℕ) : Source → List Byte
  | .kstr s => s.content.take n
  | .raw s => s.chars

@[simp] theorem length_chars (src : Source) : src.chars.length = src.len := by
  cases src with
  | kstr s => exact s.length_content
  | raw s => rfl

theorem strcat_eq (dest : Kstr) (src : Source) : src.strcat dest = src.strncat dest src.len := by
  cases src <;> rfl

theorem copied_len (src : Source) : src.copied src.len = src.chars := by
  cases src with
  | kstr s => exact List.take_of_length_le (Nat.le_of_eq s.length_content)
  | raw s => rfl

end Source

/-- **What appending is for**: a call that is not refused leaves the old characters followed
by the first `n` of the source, and counts them. -/
structure Appends (dest : Kstr) (src : Source) (n : ℕ) : Prop where
  refused : src.len < n ∨ dest.opts.cap - dest.used < n →
    src.strncat dest n = some (.inval, dest)
  appended : n ≤ src.len → n ≤ dest.opts.cap - dest.used →
    ∃ s, src.strncat dest n = some (.ok, s) ∧ s.opts = dest.opts ∧ s.val.size = dest.val.size ∧
      s.used = dest.used + n ∧ s.content = dest.content ++ src.chars.take n
  whole : src.strcat dest = src.strncat dest src.len

/-- What a caller sees of a call: the string, or `NULL`. -/
def outcome : Kerr × Kstr → Option (List Byte)
  | (.ok, s) => some s.content
  | _ => none

/-- Append one source and then another, until a call returns `NULL`. -/
def strcatBoth (dest : Kstr) (src1 src2 : Source) : Option (Kerr × Kstr) := do
  let (err, s) ← src1.strcat dest
  if err = .ok then src2.strcat s else some (err, s)

/-- Appending `src1` and then `src2` is appending `both`. -/
def Composes (dest : Kstr) (src1 src2 both : Source) : Prop :=
  ∃ r r', strcatBoth dest src1 src2 = some r ∧ both.strcat dest = some r' ∧
    outcome r = outcome r'

section Append
variable {dest : Kstr} {src : Source} {n : ℕ}

/-- A call that asks for too much is refused, -/
theorem Source.strncat_refused (H : dest.Room)
    (h : src.len < n ∨ dest.opts.cap - dest.used < n) :
    src.strncat dest n = some (.inval, dest) := by
  have hroom := sizeSub_of_le H.used_le H.cap_lt
  cases src with
  | kstr s => exact Kstr.copy_refused (by rwa [hroom])
  | raw s => exact Kstr.copy_refused (by rwa [hroom])

/-- and any other is a copy behind the characters in use. -/
theorem Source.strncat_accepted (H : dest.Room) (hsrc : src.Room) (hlen : n ≤ src.len)
    (hfree : n ≤ dest.opts.cap - dest.used) :
    src.strncat dest n =
      (dest.put dest.used (src.copied n) dest.used).map fun s => (.ok, s) := by
  have hroom := sizeSub_of_le H.used_le H.cap_lt
  have hok : ¬ (src.len < n ∨ sizeSub dest.opts.cap dest.used < n) := by
    rw [hroom]
    omega
  cases src with
  | kstr s =>
      have hread : s.val.read 0 n = some (s.content.take n) := Kstr.Room.read hsrc hlen
      exact Kstr.copy_accepted hok hread
  | raw s => exact Kstr.copy_accepted hok rfl

/-- What is copied there is not counted. -/
theorem Kstr.put_behind {buf : List Byte} (h : dest.used + buf.length ≤ dest.val.size) :
    ∃ s, dest.put dest.used buf dest.used = some s ∧ s.opts = dest.opts ∧
      s.val.size = dest.val.size ∧ s.used = dest.used ∧ s.content = dest.content := by
  refine ⟨_, Kstr.put_of_le h, rfl, rfl, rfl, ?_⟩
  apply slice_congr
  intro i hi
  have hlt : 0 + i < dest.used := by rwa [Nat.zero_add]
  exact overlay_of_lt _ _ hlt

/-- A call with the length of the source. -/
theorem Source.strcat_accepted (H : dest.Room) (hsrc : src.Room)
    (hfree : src.len ≤ dest.opts.cap - dest.used) :
    ∃ s, src.strcat dest = some (.ok, s) ∧ s.opts = dest.opts ∧ s.val.size = dest.val.size ∧
      s.used = dest.used ∧ s.content = dest.content := by
  have hused := H.used_le
  have hsize := H.size_eq
  have hin : dest.used + (src.copied src.len).length ≤ dest.val.size := by
    rw [src.copied_len, src.length_chars]
    omega
  rcases Kstr.put_behind hin with ⟨s, hput, hs⟩
  refine ⟨s, ?_, hs⟩
  rw [src.strcat_eq, Source.strncat_accepted H hsrc le_rfl hfree, hput]
  rfl

/-- The arguments with which a call appends what it should: it is refused, or has nothing to
append.  In that case the raw form must have room for the source, which it copies. -/
def Idle (dest : Kstr) (src : Source) (n : ℕ) : Prop :=
  src.len < n ∨ dest.opts.cap - dest.used < n ∨
    n = 0 ∧ dest.used + (src.copied 0).length ≤ dest.opts.cap + 1

theorem appends_iff_idle (H : dest.Room) (hsrc : src.Room) :
    Appends dest src n ↔ Idle dest src n := by
  by_cases hfit : n ≤ src.len ∧ n ≤ dest.opts.cap - dest.used
  · have hrun := Source.strncat_accepted H hsrc hfit.1 hfit.2
    rw [Idle, or_iff_right (by omega), or_iff_right (by omega)]
    constructor
    · intro h
      rcases h.appended hfit.1 hfit.2 with ⟨s, hs, -, -, hused, -⟩
      rw [hrun, Option.map_eq_some_iff] at hs
      rcases hs with ⟨s', hput, hs⟩
      cases hs
      rw [Kstr.put, Option.map_eq_some_iff] at hput
      rcases hput with ⟨val, hwrite, rfl⟩
      have hn : n = 0 := by
        change dest.used = dest.used + n at hused
        omega
      subst hn
      refine ⟨rfl, ?_⟩
      by_contra hout
      rw [Buffer.write, if_neg (by rwa [H.size_eq])] at hwrite
      cases hwrite
    · rintro ⟨rfl, hin⟩
      rw [← H.size_eq] at hin
      rcases Kstr.put_behind hin with ⟨s, hput, ho, hs, hused, hcontent⟩
      refine ⟨fun h => ?_, fun _ _ => ⟨s, ?_, ho, hs, hused, ?_⟩, src.strcat_eq dest⟩
      · exact absurd h (by omega)
      · rw [hrun, hput]
        rfl
      · rw [hcontent, List.take_zero, List.append_nil]
  · have hout : src.len < n ∨ dest.opts.cap - dest.used < n := by omega
    refine iff_of_true ⟨fun h => Source.strncat_refused H h, fun h1 h2 => ?_,
      src.strcat_eq dest⟩ (or_assoc.mp (Or.inl hout))
    exact absurd ⟨h1, h2⟩ hfit

/-- Two sources that fit one by one, because the first is not counted, and not together. -/
theorem composes_iff {src1 src2 both : Source} (H : dest.Room) (h1 : src1.Room) (h2 : src2.Room)
    (hb : both.Room) (hboth : both.chars = src1.chars ++ src2.chars) :
    Composes dest src1 src2 both ↔ ¬ (src1.len ≤ dest.opts.cap - dest.used ∧
      src2.len ≤ dest.opts.cap - dest.used ∧
      dest.opts.cap - dest.used < src1.len + src2.len) := by
  have hlen : both.len = src1.len + src2.len := by
    rw [← both.length_chars, hboth, List.length_append, src1.length_chars, src2.length_chars]
  have hrefused : ∀ src : Source, dest.opts.cap - dest.used < src.len →
      src.strcat dest = some (.inval, dest) := by
    intro src h
    rw [src.strcat_eq]
    exact Source.strncat_refused H (Or.inr h)
  by_cases hfit1 : src1.len ≤ dest.opts.cap - dest.used
  · rcases Source.strcat_accepted H h1 hfit1 with ⟨s, hrun1, ho, hs, hused, hcontent⟩
    have Hs : s.Room := by
      refine ⟨ho ▸ H.cap_lt, ?_, ?_⟩
      · rw [hs, ho, H.size_eq]
      · rw [hused, ho]
        exact H.used_le
    have hfree : s.opts.cap - s.used = dest.opts.cap - dest.used := by rw [ho, hused]
    have hseq : strcatBoth dest src1 src2 = src2.strcat s := by
      rw [strcatBoth, hrun1]
      rfl
    rw [Composes, hseq, and_iff_right hfit1]
    by_cases hfit2 : src2.len ≤ dest.opts.cap - dest.used
    · rcases Source.strcat_accepted Hs h2 (hfree ▸ hfit2) with ⟨s2, hrun2, -, -, -, hcontent2⟩
      rw [hrun2, and_iff_right hfit2]
      by_cases hfitb : both.len ≤ dest.opts.cap - dest.used
      · rcases Source.strcat_accepted H hb hfitb with ⟨sb, hrunb, -, -, -, hcontentb⟩
        refine iff_of_true ⟨_, _, rfl, hrunb, ?_⟩ (by omega)
        simp only [outcome, hcontent2, hcontent, hcontentb]
      · refine iff_of_false ?_ (by omega)
        rintro ⟨r, r', hr, hr', hout⟩
        rw [hrefused both (by omega)] at hr'
        cases hr
        cases hr'
        cases hout
    · refine iff_of_true ?_ (by omega)
      refine ⟨(.inval, s), (.inval, dest), ?_, hrefused both (by omega), rfl⟩
      rw [src2.strcat_eq]
      exact Source.strncat_refused Hs (Or.inr (by omega))
  · refine iff_of_true ⟨(.inval, dest), (.inval, dest), ?_, hrefused both (by omega), rfl⟩
      (by omega)
    rw [strcatBoth, hrefused src1 (by omega)]
    rfl

end Append

/-- **When appending appends**: a call with any source and any `n`, and two calls in place of
one. -/
theorem appends_iff {dest : Kstr} {src src1 src2 both : Source} (n : ℕ) (H : dest.Room)
    (hsrc : src.Room) (h1 : src1.Room) (h2 : src2.Room) (hb : both.Room)
    (hboth : both.chars = src1.chars ++ src2.chars) :
    Appends dest src n ∧ Composes dest src1 src2 both ↔
      Idle dest src n ∧ ¬ (src1.len ≤ dest.opts.cap - dest.used ∧
        src2.len ≤ dest.opts.cap - dest.used ∧
        dest.opts.cap - dest.used < src1.len + src2.len) :=
  and_congr (appends_iff_idle H hsrc) (composes_iff H h1 h2 hb hboth)

/-- A string with room for three characters, none of them in use. -/
def Kstr.three : Kstr := ⟨⟨3⟩, 0, ⟨4, fun _ => 0⟩⟩

theorem Kstr.room_three : Kstr.three.Room := ⟨by decide, rfl, by decide⟩

/-- A call that asks for more than its source has, and two sources that fit. -/
theorem appends_iff_three :
    Appends .three (.raw (Kstr.letters 2)) 3 ∧
      Composes .three (.raw (Kstr.letters 1)) (.raw (Kstr.letters 2))
        (.raw (Kstr.letters 3)) := by
  have hroom : ∀ s, (Source.raw s).Room := fun _ => trivial
  have hmore : (Source.raw (Kstr.letters 2)).len < 3 := by decide
  exact (appends_iff 3 Kstr.room_three (hroom _) (hroom _) (hroom _) (hroom _) rfl).mpr
    ⟨Or.inl hmore, by decide⟩

/-- One character appended is not counted, so that two characters are found to fit behind two
others in a string of three. -/
theorem not_appends_three :
    (∃ s, Kstr.three.strcatRaw (Kstr.letters 1) = some (.ok, s) ∧ s.used = 0) ∧
      ¬ Appends .three (.raw (Kstr.letters 1)) 1 ∧
      ¬ Composes .three (.raw (Kstr.letters 2)) (.raw (Kstr.letters 2))
        (.raw (Kstr.letters 4)) := by
  refine ⟨⟨_, rfl, rfl⟩, fun h => ?_, ?_⟩
  · rcases h.appended (by decide) (by decide) with ⟨s, hs, -, -, hused, -⟩
    have hrun : (Kstr.three.strncatRaw (Kstr.letters 1) 1).map (fun r => r.2.used) = some 0 := rfl
    rw [show Kstr.three.strncatRaw (Kstr.letters 1) 1 = some (.ok, s) from hs, Option.map_some,
      hused] at hrun
    cases hrun
  · rintro ⟨r, r', hr, hr', hout⟩
    cases hr
    cases hr'
    cases hout

end Kylin
