import Kylin.Lib.Run
import Kylin.Lib.Buffer
import Kylin.Arch.Word
import Kylin.Math.Val

/-!
# Strings with a capacity

`kstr_t` (`lib/core/math/kylin_string.c`) is a block of `cap + 1` characters with the
number `used` of those in use, which a NUL byte is meant to follow, so that `strlen` of
`kylin_string_val` is `kylin_strlen`.

The copying functions store no NUL byte: a copy that is shorter than what the string held
leaves the rest of it behind.  The appending functions do not count what they append, and
`kylin_strncat_raw` copies the whole of its source whatever `n` is.  `Behaves` excludes
these calls, and along runs of the other calls all strings are as they should be,
`run_right_strings`.

## Main definitions

* `Kstr`, `create`, `zero`, `strndup` and the copying and appending functions.
* `strlen` — the library function, on a block.
* `Kstr.Right` — what holds of a string; `Kstr.Clean` is the invariant behind it.
* `Behaves` — the side condition on one call.

## Main results

* `callRight_iff_behaves` — which calls keep the strings right.
* `run_right_strings` — the strings of a run of such calls.
-/

namespace Kylin

open Lib

/-- `kstr_opts_t`, less the name and the allocator. -/
structure KstrOpts where
  cap : ℕ
  deriving DecidableEq, Repr

/-- `kstr_t`. -/
structure Kstr where
  opts : KstrOpts
  used : ℕ
  val : Buffer Byte

/-- The characters of a `const char *`, before its NUL byte. -/
structure CString where
  chars : List Byte
  nonzero : 0 ∉ chars

/-- `strlen` of a C string. -/
def CString.len (src : CString) : ℕ := src.chars.length

namespace Kstr

/-- `sizeof(kstr_t)`. -/
def sizeofKstr : ℕ := 40

/-- `strlen` of a block: the first NUL byte in it; `none` if the scan leaves the block. -/
def strlen (b : Buffer Byte) : Option ℕ := (List.range b.size).find? fun i => b.get i == 0

/-- `kylin_string_create`, with memory; `none` when the size of the block has wrapped, so
that `memcpy` or `memset` writes behind it. -/
def create (opts : KstrOpts) : Option Kstr :=
  let chars := sizeAdd opts.cap 1
  let size := sizeAdd sizeofKstr chars
  if size < sizeofKstr + chars then none else some ⟨opts, 0, ⟨chars, fun _ => 0⟩⟩

/-- Copy `buf` to `val + off` and set `used`. -/
def put (dest : Kstr) (off : ℕ) (buf : List Byte) (used : ℕ) : Option Kstr :=
  (dest.val.write off buf).map fun val => { dest with val := val, used := used }

/-- `kylin_string_zero`. -/
def zero (s : Kstr) : Option Kstr := s.put 0 (List.replicate s.used 0) 0

/-- `kylin_strndup`, with memory. -/
def strndup (s : Kstr) (n : ℕ) : Option Kstr := do
  let dup ← create s.opts
  let buf ← s.val.read 0 (min s.used n)
  dup.put 0 buf (min s.used n)

/-- The common body of the copying and appending functions: refuse with
`KYLIN_ERROR_INVAL`, or copy the source to `val + off` and set `used`. -/
def copy (dest : Kstr) (refused : Prop) [Decidable refused] (src : Option (List Byte))
    (off used : ℕ) : Option (Kerr × Kstr) :=
  if refused then some (.inval, dest)
  else do
    let buf ← src
    let s ← dest.put off buf used
    some (.ok, s)

/-- `kylin_strcpy`. -/
def strcpy (dest src : Kstr) : Option (Kerr × Kstr) :=
  dest.copy (dest.opts.cap < src.used) (src.val.read 0 src.used) 0 src.used

/-- `kylin_strcpy_raw`. -/
def strcpyRaw (dest : Kstr) (src : CString) : Option (Kerr × Kstr) :=
  dest.copy (dest.opts.cap < src.len) (some src.chars) 0 src.len

/-- `kylin_strncpy`. -/
def strncpy (dest src : Kstr) (n : ℕ) : Option (Kerr × Kstr) :=
  dest.copy (src.used < n ∨ dest.opts.cap < n) (src.val.read 0 n) 0 n

/-- `kylin_strncpy_raw`. -/
def strncpyRaw (dest : Kstr) (src : CString) (n : ℕ) : Option (Kerr × Kstr) :=
  dest.copy (src.len < n ∨ dest.opts.cap < n) (some (src.chars.take n)) 0 n

/-- `kylin_strncat`: `used` stays as it is. -/
def strncat (dest src : Kstr) (n : ℕ) : Option (Kerr × Kstr) :=
  dest.copy (src.used < n ∨ sizeSub dest.opts.cap dest.used < n) (src.val.read 0 n)
    dest.used dest.used

/-- `kylin_strncat_raw`: `used` stays as it is, and all of `src` is copied. -/
def strncatRaw (dest : Kstr) (src : CString) (n : ℕ) : Option (Kerr × Kstr) :=
  dest.copy (src.len < n ∨ sizeSub dest.opts.cap dest.used < n) (some src.chars)
    dest.used dest.used

/-- `kylin_strcat`. -/
def strcat (dest src : Kstr) : Option (Kerr × Kstr) := dest.strncat src src.used

/-- `kylin_strcat_raw`. -/
def strcatRaw (dest : Kstr) (src : CString) : Option (Kerr × Kstr) := dest.strncatRaw src src.len

/-! ## Runs -/

/-- The strings created so far; a call names them by their place. -/
abbrev World := List Kstr

/-- The calls on one string. -/
inductive Op
  | zero
  | strcpy (src : ℕ)
  | strcpyRaw (src : CString)
  | strncpy (src n : ℕ)
  | strncpyRaw (src : CString) (n : ℕ)
  | strcat (src : ℕ)
  | strcatRaw (src : CString)
  | strncat (src n : ℕ)
  | strncatRaw (src : CString) (n : ℕ)

/-- The calls; `mem` says whether the allocation succeeds. -/
inductive Call
  | create (opts : KstrOpts) (mem : Bool)
  | strndup (s n : ℕ) (mem : Bool)
  | on (dest : ℕ) (op : Op)

/-- A call on the string `dest`. -/
def Op.run (w : World) (dest : Kstr) : Op → Option (Kerr × Kstr)
  | .zero => dest.zero.map fun s => (.ok, s)
  | .strcpy src => w[src]? >>= fun s => dest.strcpy s
  | .strcpyRaw src => dest.strcpyRaw src
  | .strncpy src n => w[src]? >>= fun s => dest.strncpy s n
  | .strncpyRaw src n => dest.strncpyRaw src n
  | .strcat src => w[src]? >>= fun s => dest.strcat s
  | .strcatRaw src => dest.strcatRaw src
  | .strncat src n => w[src]? >>= fun s => dest.strncat s n
  | .strncatRaw src n => dest.strncatRaw src n

/-- One call. -/
def step (w : World) : Call → Option (Kerr × World)
  | .create _ false | .strndup _ _ false => some (.nomem, w)
  | .create opts true => (create opts).map fun s => (.ok, w ++ [s])
  | .strndup s n true => do
      let dup ← (← w[s]?).strndup n
      some (.ok, w ++ [dup])
  | .on dest op => do
      let (err, s) ← op.run w (← w[dest]?)
      some (err, w.set dest s)

/-- **What holds of a string**: its length is within the capacity, and it is where `strlen`
finds the NUL byte. -/
structure Right (s : Kstr) : Prop where
  used_le : s.used ≤ s.opts.cap
  nul : s.val.load s.used = some 0
  strlen_eq : strlen s.val = some s.used

/-- A call returns, without an access outside a block, and all strings are right after it. -/
def CallRight (w : World) (c : Call) : Prop :=
  ∃ err w', step w c = some (err, w') ∧ ∀ s ∈ w', Right s

/-- The strings that a call names exist. -/
def Op.Live (w : World) : Op → Prop
  | .strcpy src | .strncpy src _ | .strcat src | .strncat src _ => src < w.length
  | _ => True

@[inherit_doc Op.Live]
def Call.Live (w : World) : Call → Prop
  | .create opts _ => opts.cap < 2 ^ 64
  | .strndup s _ _ => s < w.length
  | .on dest op => dest < w.length ∧ op.Live w

/-- A copy of `n` characters, when it is not refused, is not shorter than what `dest` holds;
an appending call, when it is not refused, has nothing to append. -/
def Op.Behaves (w : World) (dest : Kstr) : Op → Prop
  | .zero => True
  | .strcpy src => ∀ s, w[src]? = some s → s.used ≤ dest.opts.cap → dest.used ≤ s.used
  | .strcpyRaw src => src.len ≤ dest.opts.cap → dest.used ≤ src.len
  | .strncpy src n =>
      ∀ s, w[src]? = some s → n ≤ s.used → n ≤ dest.opts.cap → dest.used ≤ n
  | .strncpyRaw src n => n ≤ src.len → n ≤ dest.opts.cap → dest.used ≤ n
  | .strcat src => ∀ s, w[src]? = some s → s.used ≤ dest.opts.cap - dest.used → s.used = 0
  | .strcatRaw src => src.len ≤ dest.opts.cap - dest.used → src.len = 0
  | .strncat src n =>
      ∀ s, w[src]? = some s → n ≤ s.used → n ≤ dest.opts.cap - dest.used → n = 0
  -- the whole source is copied, also when `n` is zero
  | .strncatRaw src n => n ≤ src.len → n ≤ dest.opts.cap - dest.used → src.len = 0

/-- The calls that keep the strings right, by the state they are made in. -/
def Behaves (w : World) : Call → Prop
  | .create opts mem => mem = true → sizeofKstr + (opts.cap + 1) < 2 ^ 64
  | .strndup _ _ _ => True
  | .on dest op => ∀ s, w[dest]? = some s → op.Behaves w s

/-! ## The invariant -/

/-- A string whose block holds the characters in use and nothing else. -/
structure Clean (s : Kstr) : Prop where
  cap_lt : sizeofKstr + (s.opts.cap + 1) < 2 ^ 64
  size_eq : s.val.size = s.opts.cap + 1
  used_le : s.used ≤ s.opts.cap
  nonzero : ∀ i, i < s.used → s.val.get i ≠ 0
  zeros : ∀ i, s.used ≤ i → s.val.get i = 0

theorem load_eq_zero_iff {b : Buffer Byte} {i : ℕ} :
    b.load i = some 0 ↔ i < b.size ∧ b.get i = 0 := by
  rw [Buffer.load]
  split <;> simp [*]

theorem strlen_eq_some_iff {b : Buffer Byte} {n : ℕ} :
    strlen b = some n ↔ b.get n = 0 ∧ n < b.size ∧ ∀ i, i < n → b.get i ≠ 0 := by
  rw [strlen, List.find?_range_eq_some]
  simp

theorem Clean.right {s : Kstr} (H : Clean s) : Right s := by
  have hin : s.used < s.val.size := by
    rw [H.size_eq]
    exact Nat.lt_succ_of_le H.used_le
  have hnul := H.zeros s.used (Nat.le_refl _)
  exact ⟨H.used_le, load_eq_zero_iff.mpr ⟨hin, hnul⟩, strlen_eq_some_iff.mpr ⟨hnul, hin, H.nonzero⟩⟩

/-! ## One call -/

/-- A new string, when its size does not wrap. -/
theorem create_spec {opts : KstrOpts} (h : sizeofKstr + (opts.cap + 1) < 2 ^ 64) :
    ∃ s, create opts = some s ∧ Clean s ∧ s.opts = opts ∧ s.used = 0 := by
  have hchars : sizeAdd opts.cap 1 = opts.cap + 1 := sizeAdd_of_lt (by omega)
  refine ⟨⟨opts, 0, ⟨opts.cap + 1, fun _ => 0⟩⟩, ?_, ?_, rfl, rfl⟩
  · rw [create]
    simp only [hchars, sizeAdd_of_lt h, if_neg (Nat.lt_irrefl _)]
  · refine ⟨h, rfl, Nat.zero_le _, ?_, fun _ _ => rfl⟩
    intro i hi
    exact absurd hi (Nat.not_lt_zero i)

/-- A string whose size has wrapped has no room for the NUL byte. -/
theorem not_right_create {opts : KstrOpts} (hcap : opts.cap < 2 ^ 64)
    (h : 2 ^ 64 ≤ sizeofKstr + (opts.cap + 1)) {s : Kstr} (hs : create opts = some s) :
    ¬ Right s := by
  intro hright
  rw [create] at hs
  split at hs
  · cases hs
  · next hsize =>
      obtain rfl := Option.some.inj hs
      have hin : 0 < sizeAdd opts.cap 1 := (load_eq_zero_iff.mp hright.nul).1
      simp only [sizeAdd, sizeofKstr] at hsize hin h
      omega

section Put
variable {dest : Kstr} {buf : List Byte}

theorem put_of_le {off used : ℕ} (h : off + buf.length ≤ dest.val.size) :
    dest.put off buf used =
      some { dest with
        val := { dest.val with get := overlay dest.val.get off buf }, used := used } := by
  rw [put, Buffer.write_of_le h, Option.map_some]

/-- A copy over the start of a string that is at least as long as what was there. -/
theorem Clean.put_over (H : Clean dest) (hbuf : 0 ∉ buf) (hcap : buf.length ≤ dest.opts.cap)
    (hlen : dest.used ≤ buf.length) :
    ∃ s, dest.put 0 buf buf.length = some s ∧ Clean s := by
  have hin : 0 + buf.length ≤ dest.val.size := by
    rw [H.size_eq]
    omega
  refine ⟨_, put_of_le hin, H.cap_lt, H.size_eq, hcap, ?_, ?_⟩
  · intro i hi
    change overlay dest.val.get 0 buf i ≠ 0
    rw [overlay_of_mem _ _ (Nat.zero_le i) hi]
    exact ne_of_mem_of_not_mem (List.getElem_mem _) hbuf
  · intro i hi
    change overlay dest.val.get 0 buf i = 0
    rw [overlay_of_ge _ _ (by rwa [Nat.zero_add])]
    exact H.zeros i (Nat.le_trans hlen hi)

/-- A shorter copy leaves a character where the NUL byte should be. -/
theorem Clean.put_over_short (H : Clean dest) (hlen : buf.length < dest.used) {s : Kstr}
    (hs : dest.put 0 buf buf.length = some s) : ¬ Right s := by
  have hused := H.used_le
  have hin : 0 + buf.length ≤ dest.val.size := by
    rw [H.size_eq]
    omega
  rw [put_of_le hin] at hs
  obtain rfl := Option.some.inj hs
  intro hright
  have hnul : overlay dest.val.get 0 buf buf.length = 0 := (load_eq_zero_iff.mp hright.nul).2
  rw [overlay_of_ge _ _ (by rw [Nat.zero_add])] at hnul
  exact H.nonzero _ hlen hnul

/-- Characters stored behind those in use, without counting them, take the place of the NUL
byte. -/
theorem put_behind_not_right (hbuf : 0 ∉ buf) (hne : buf ≠ []) {s : Kstr}
    (hs : dest.put dest.used buf dest.used = some s) : ¬ Right s := by
  rw [put, Option.map_eq_some_iff] at hs
  obtain ⟨val, hwrite, rfl⟩ := hs
  rw [Buffer.write] at hwrite
  split at hwrite
  · obtain rfl := Option.some.inj hwrite
    intro hright
    have hnul : overlay dest.val.get dest.used buf dest.used = 0 :=
      (load_eq_zero_iff.mp hright.nul).2
    have hlt : dest.used - dest.used < buf.length := by
      rw [Nat.sub_self]
      exact List.length_pos_iff.mpr hne
    rw [overlay_of_mem _ _ (Nat.le_refl _) hlt] at hnul
    exact hbuf (hnul ▸ List.getElem_mem _)
  · cases hwrite

theorem Clean.put_nil (H : Clean dest) : dest.put dest.used [] dest.used = some dest := by
  have hin : dest.used + ([] : List Byte).length ≤ dest.val.size := by
    rw [H.size_eq, List.length_nil]
    exact Nat.le_succ_of_le H.used_le
  rw [put_of_le hin, overlay_nil]

end Put

/-- Clearing a string. -/
theorem Clean.zero_spec {s : Kstr} (H : Clean s) : ∃ s', s.zero = some s' ∧ Clean s' := by
  have hin : 0 + (List.replicate s.used (0 : Byte)).length ≤ s.val.size := by
    rw [H.size_eq, List.length_replicate]
    have := H.used_le
    omega
  refine ⟨_, put_of_le hin, H.cap_lt, H.size_eq, Nat.zero_le _, ?_, ?_⟩
  · intro i hi
    exact absurd hi (Nat.not_lt_zero i)
  · intro i _
    change overlay s.val.get 0 (List.replicate s.used 0) i = 0
    rcases Nat.lt_or_ge i s.used with hlt | hge
    · rw [overlay_of_mem _ _ (Nat.zero_le i) (by simpa using hlt), List.getElem_replicate]
    · rw [overlay_of_ge _ _ (by simpa using hge)]
      exact H.zeros i hge

/-- The characters of a string that are copied from it. -/
theorem Clean.read_spec {s : Kstr} (H : Clean s) {n : ℕ} (hn : n ≤ s.used) :
    ∃ buf, s.val.read 0 n = some buf ∧ buf.length = n ∧ 0 ∉ buf := by
  have hin : 0 + n ≤ s.val.size := by
    rw [H.size_eq]
    have := H.used_le
    omega
  refine ⟨_, Buffer.read_of_le hin, length_slice _ _ _, ?_⟩
  intro hmem
  obtain ⟨i, hi, hget⟩ := List.getElem_of_mem hmem
  rw [getElem_slice, Nat.zero_add] at hget
  rw [length_slice] at hi
  exact H.nonzero i (Nat.lt_of_lt_of_le hi hn) hget

/-- A duplicate. -/
theorem Clean.strndup_spec {s : Kstr} (H : Clean s) (n : ℕ) :
    ∃ dup, s.strndup n = some dup ∧ Clean dup := by
  obtain ⟨dup, hcreate, Hdup, ho, hused⟩ := create_spec H.cap_lt
  obtain ⟨buf, hread, hlen, hbuf⟩ := H.read_spec (Nat.min_le_left s.used n)
  have hcap : buf.length ≤ dup.opts.cap := by
    rw [ho, hlen]
    exact Nat.le_trans (Nat.min_le_left _ _) H.used_le
  obtain ⟨dup', hput, Hdup'⟩ := Hdup.put_over hbuf hcap (hused ▸ Nat.zero_le _)
  refine ⟨dup', ?_, Hdup'⟩
  rw [strndup, hcreate, hread, ← hlen]
  exact hput

section Copy
variable {dest : Kstr} {refused : Prop} [Decidable refused] {src : Option (List Byte)}
  {buf : List Byte} {off used : ℕ}

theorem copy_refused (h : refused) : dest.copy refused src off used = some (.inval, dest) :=
  if_pos h

theorem copy_accepted (h : ¬ refused) (hsrc : src = some buf) :
    dest.copy refused src off used = (dest.put off buf used).map fun s => (.ok, s) := by
  rw [copy, if_neg h, hsrc, Option.map_eq_bind]
  rfl

theorem copy_congr {refused' : Prop} [Decidable refused'] (h : refused ↔ refused') :
    dest.copy refused src off used = dest.copy refused' src off used :=
  if_congr h rfl rfl

end Copy

/-- What a call on one string can do: nothing to worry about, a copy over the start, or a
copy behind the characters in use. -/
inductive Effect (w : World) (dest : Kstr) (op : Op) : Prop
  | harmless {err : Kerr} {s : Kstr} (run_eq : op.run w dest = some (err, s)) (clean : Clean s)
      (behaves : op.Behaves w dest)
  | front {buf : List Byte} (nonzero : 0 ∉ buf) (fits : buf.length ≤ dest.opts.cap)
      (run_eq : op.run w dest = (dest.put 0 buf buf.length).map fun s => (.ok, s))
      (behaves_iff : op.Behaves w dest ↔ dest.used ≤ buf.length)
  | behind {buf : List Byte} (nonzero : 0 ∉ buf)
      (run_eq : op.run w dest = (dest.put dest.used buf dest.used).map fun s => (.ok, s))
      (behaves_iff : op.Behaves w dest ↔ buf.length = 0)

section Ops
variable {w : World} {dest : Kstr}

theorem effect_strncpy (Hw : ∀ s ∈ w, Clean s) (H : Clean dest) {src : ℕ} (hlive : src < w.length)
    (n : ℕ) : Effect w dest (.strncpy src n) := by
  have hsrc := List.getElem?_eq_getElem hlive
  have Hsrc := Hw _ (List.getElem_mem hlive)
  by_cases hfit : n ≤ w[src].used ∧ n ≤ dest.opts.cap
  · obtain ⟨buf, hread, hlen, hbuf⟩ := Hsrc.read_spec hfit.1
    refine .front hbuf (hlen ▸ hfit.2) ?_ ?_
    · rw [Op.run, hsrc]
      change dest.strncpy w[src] n = _
      rw [strncpy, copy_accepted (by omega) hread, hlen]
    · simp [Op.Behaves, hsrc, hfit, hlen]
  · have hrefused : (Op.strncpy src n).run w dest = some (.inval, dest) := by
      rw [Op.run, hsrc]
      exact copy_refused (by omega)
    apply Effect.harmless hrefused H
    simp only [Op.Behaves, hsrc, Option.some.injEq]
    rintro s rfl h1 h2
    exact absurd ⟨h1, h2⟩ hfit

theorem effect_strncpyRaw (H : Clean dest) (src : CString) (n : ℕ) :
    Effect w dest (.strncpyRaw src n) := by
  by_cases hfit : n ≤ src.len ∧ n ≤ dest.opts.cap
  · have hlen : (src.chars.take n).length = n := List.length_take_of_le hfit.1
    refine .front (fun h => src.nonzero (List.mem_of_mem_take h)) (hlen.symm ▸ hfit.2) ?_ ?_
    · rw [Op.run, strncpyRaw, copy_accepted (by omega) rfl, hlen]
    · simp [Op.Behaves, hfit, hlen]
  · refine .harmless (copy_refused (by omega)) H ?_
    intro h1 h2
    exact absurd ⟨h1, h2⟩ hfit

theorem effect_strncat (Hw : ∀ s ∈ w, Clean s) (H : Clean dest) {src : ℕ} (hlive : src < w.length)
    (n : ℕ) : Effect w dest (.strncat src n) := by
  have hsrc := List.getElem?_eq_getElem hlive
  have Hsrc := Hw _ (List.getElem_mem hlive)
  have hroom : sizeSub dest.opts.cap dest.used = dest.opts.cap - dest.used :=
    sizeSub_of_le H.used_le (by have := H.cap_lt; omega)
  by_cases hfit : n ≤ w[src].used ∧ n ≤ dest.opts.cap - dest.used
  · obtain ⟨buf, hread, hlen, hbuf⟩ := Hsrc.read_spec hfit.1
    refine .behind hbuf ?_ ?_
    · rw [Op.run, hsrc]
      change dest.strncat w[src] n = _
      rw [strncat, copy_accepted (by omega) hread]
    · simp [Op.Behaves, hsrc, hfit, hlen]
  · have hrefused : (Op.strncat src n).run w dest = some (.inval, dest) := by
      rw [Op.run, hsrc]
      exact copy_refused (by omega)
    apply Effect.harmless hrefused H
    simp only [Op.Behaves, hsrc, Option.some.injEq]
    rintro s rfl h1 h2
    exact absurd ⟨h1, h2⟩ hfit

theorem effect_strncatRaw (H : Clean dest) (src : CString) (n : ℕ) :
    Effect w dest (.strncatRaw src n) := by
  have hroom : sizeSub dest.opts.cap dest.used = dest.opts.cap - dest.used :=
    sizeSub_of_le H.used_le (by have := H.cap_lt; omega)
  by_cases hfit : n ≤ src.len ∧ n ≤ dest.opts.cap - dest.used
  · refine .behind src.nonzero ?_ ?_
    · rw [Op.run, strncatRaw, copy_accepted (by omega) rfl]
    · change (n ≤ src.len → n ≤ dest.opts.cap - dest.used → src.len = 0) ↔ src.len = 0
      simp [hfit]
  · refine .harmless (copy_refused (by omega)) H ?_
    intro h1 h2
    exact absurd ⟨h1, h2⟩ hfit

/-- The functions without a length are those with one, at the length of the source. -/
theorem Effect.of_run_eq {op op' : Op} (h : Effect w dest op)
    (hrun : op'.run w dest = op.run w dest) (hb : op'.Behaves w dest ↔ op.Behaves w dest) :
    Effect w dest op' := by
  cases h with
  | harmless he hclean hbe => exact .harmless (hrun.trans he) hclean (hb.mpr hbe)
  | front hbuf hfit he hbe => exact .front hbuf hfit (hrun.trans he) (hb.trans hbe)
  | behind hbuf he hbe => exact .behind hbuf (hrun.trans he) (hb.trans hbe)

/-- **What a call on one string does.** -/
theorem effect (Hw : ∀ s ∈ w, Clean s) (H : Clean dest) (op : Op) (hlive : op.Live w) :
    Effect w dest op := by
  cases op with
  | zero =>
      obtain ⟨s, hs, Hs⟩ := H.zero_spec
      exact .harmless (s := s) (by rw [Op.run, hs, Option.map_some]) Hs trivial
  | strcpy src =>
      have hsrc := List.getElem?_eq_getElem hlive
      refine (effect_strncpy Hw H hlive w[src].used).of_run_eq ?_ ?_
      · rw [Op.run, Op.run, hsrc]
        exact copy_congr (by omega)
      · simp [Op.Behaves, hsrc]
  | strcpyRaw src =>
      refine (effect_strncpyRaw H src src.len).of_run_eq ?_ ?_
      · have hall : src.chars.take src.len = src.chars := List.take_length
        rw [Op.run, Op.run, strcpyRaw, strncpyRaw, hall]
        exact copy_congr (by omega)
      · simp [Op.Behaves]
  | strncpy src n => exact effect_strncpy Hw H hlive n
  | strncpyRaw src n => exact effect_strncpyRaw H src n
  | strcat src =>
      have hsrc := List.getElem?_eq_getElem hlive
      refine (effect_strncat Hw H hlive w[src].used).of_run_eq ?_ ?_
      · rw [Op.run, Op.run, hsrc]
        rfl
      · simp [Op.Behaves, hsrc]
  | strcatRaw src =>
      refine (effect_strncatRaw H src src.len).of_run_eq rfl ?_
      simp [Op.Behaves]
  | strncat src n => exact effect_strncat Hw H hlive n
  | strncatRaw src n => exact effect_strncatRaw H src n

/-- A call on one string that behaves keeps it clean. -/
theorem Op.run_spec (Hw : ∀ s ∈ w, Clean s) (H : Clean dest) {op : Op} (hlive : op.Live w)
    (hb : op.Behaves w dest) : ∃ err s, op.run w dest = some (err, s) ∧ Clean s := by
  cases effect Hw H op hlive with
  | harmless he hclean _ => exact ⟨_, _, he, hclean⟩
  | front hbuf hfit he hbe =>
      obtain ⟨s, hs, Hs⟩ := H.put_over hbuf hfit (hbe.mp hb)
      exact ⟨.ok, s, by rw [he, hs, Option.map_some], Hs⟩
  | behind _ he hbe =>
      obtain rfl := List.length_eq_zero_iff.mp (hbe.mp hb)
      exact ⟨.ok, dest, by rw [he, H.put_nil, Option.map_some], H⟩

/-- Any other call makes it wrong, or leaves its block. -/
theorem Op.not_right_of_not_behaves (Hw : ∀ s ∈ w, Clean s) (H : Clean dest) {op : Op}
    (hlive : op.Live w) (hb : ¬ op.Behaves w dest) {err : Kerr} {s : Kstr}
    (hs : op.run w dest = some (err, s)) : ¬ Right s := by
  cases effect Hw H op hlive with
  | harmless _ _ hbe => exact absurd hbe hb
  | front _ _ he hbe =>
      rw [he, Option.map_eq_some_iff] at hs
      obtain ⟨s', hput, he'⟩ := hs
      obtain rfl := (Prod.mk.inj he').2
      exact H.put_over_short (Nat.not_le.mp (mt hbe.mpr hb)) hput
  | behind hbuf he hbe =>
      rw [he, Option.map_eq_some_iff] at hs
      obtain ⟨s', hput, he'⟩ := hs
      obtain rfl := (Prod.mk.inj he').2
      exact put_behind_not_right hbuf (mt List.length_eq_zero_iff.mpr (mt hbe.mpr hb)) hput

end Ops

/-! ## Whole runs -/

section Runs
variable {w : World}

/-- One call that behaves keeps all strings clean. -/
theorem step_spec (Hw : ∀ s ∈ w, Clean s) {c : Call} (hlive : c.Live w) (hb : Behaves w c) :
    ∃ err w', step w c = some (err, w') ∧ ∀ s ∈ w', Clean s := by
  have happend : ∀ s, Clean s → ∀ t ∈ w ++ [s], Clean t := by
    intro s Hs t ht
    rcases List.mem_append.mp ht with ht | ht
    · exact Hw t ht
    · rwa [List.mem_singleton.mp ht]
  cases c with
  | create opts mem =>
      cases mem with
      | false => exact ⟨.nomem, w, rfl, Hw⟩
      | true =>
          obtain ⟨s, hs, Hs, -⟩ := create_spec (hb rfl)
          exact ⟨.ok, w ++ [s], by rw [step, hs, Option.map_some], happend s Hs⟩
  | strndup i n mem =>
      cases mem with
      | false => exact ⟨.nomem, w, rfl, Hw⟩
      | true =>
          obtain ⟨dup, hdup, Hdup⟩ := (Hw _ (List.getElem_mem hlive)).strndup_spec n
          refine ⟨.ok, w ++ [dup], ?_, happend dup Hdup⟩
          simp [step, List.getElem?_eq_getElem hlive, hdup]
  | on i op =>
      have hi := List.getElem?_eq_getElem hlive.1
      obtain ⟨err, s, hs, Hs⟩ :=
        Op.run_spec Hw (Hw _ (List.getElem_mem hlive.1)) hlive.2 (hb _ hi)
      refine ⟨err, w.set i s, by simp [step, hi, hs], ?_⟩
      intro t ht
      rcases List.mem_or_eq_of_mem_set ht with ht | rfl
      · exact Hw t ht
      · exact Hs

/-- **Which calls keep the strings right.** -/
theorem callRight_iff_behaves (Hw : ∀ s ∈ w, Clean s) {c : Call} (hlive : c.Live w) :
    CallRight w c ↔ Behaves w c := by
  constructor
  · rintro ⟨err, w', hs, hright⟩
    cases c with
    | create opts mem =>
        rintro rfl
        by_contra hwrap
        rw [step, Option.map_eq_some_iff] at hs
        obtain ⟨s, hcreate, he⟩ := hs
        obtain rfl := (Prod.mk.inj he).2
        exact not_right_create hlive (Nat.not_lt.mp hwrap) hcreate (hright s (by simp))
    | strndup i n mem => trivial
    | on i op =>
        intro s hi
        by_contra hnot
        simp only [step, hi, Option.bind_eq_bind, Option.bind_some, Option.bind_eq_some_iff,
          Option.some.injEq, Prod.mk.injEq] at hs
        obtain ⟨⟨err', s'⟩, hrun, -, rfl⟩ := hs
        have hmem : s' ∈ w.set i s' := List.mem_set hlive.1 s'
        exact Op.not_right_of_not_behaves Hw (Hw s (List.mem_of_getElem? hi)) hlive.2 hnot hrun
          (hright s' hmem)
  · intro hb
    obtain ⟨err, w', hs, Hw'⟩ := step_spec Hw hlive hb
    exact ⟨err, w', hs, fun s hs => (Hw' s hs).right⟩

/-- What a run of calls that behave maintains. -/
theorem run_clean {tr : List (Step World Call Kerr)}
    (h : Run step (fun w c => c.Live w ∧ Behaves w c) [] tr w) : ∀ s ∈ w, Clean s := by
  refine h.invariant (I := fun w => ∀ s ∈ w, Clean s) (by simp) ?_
  intro w c err w' Hw ⟨hlive, hb⟩ hs
  obtain ⟨err', w'', hs', Hw'⟩ := step_spec Hw hlive hb
  rw [hs] at hs'
  rwa [(Prod.mk.inj (Option.some.inj hs')).2]

/-- **The representation of strings** along every run of calls that behave: all strings are
right, and the calls that keep them so next are those that behave. -/
theorem run_right_strings {tr : List (Step World Call Kerr)}
    (h : Run step (fun w c => c.Live w ∧ Behaves w c) [] tr w) :
    (∀ e ∈ tr, ∀ s ∈ e.after, Right s) ∧ (∀ s ∈ w, Right s) ∧
      ∀ c : Call, c.Live w → (CallRight w c ↔ Behaves w c) := by
  refine ⟨?_, fun s hs => (run_clean h s hs).right, fun c hc =>
    callRight_iff_behaves (run_clean h) hc⟩
  refine h.forall_mem (Q := fun e => ∀ s ∈ e.after, Right s) ?_
  intro tr w c err w' hrun hok hstep s hs
  exact (run_clean (hrun.snoc hok hstep) s hs).right

end Runs

/-- The C string `"a"`, and longer ones. -/
def letters (n : ℕ) : CString := ⟨List.replicate n 97, by simp⟩

/-- Two strings, with copies, a refused copy and appended nothing. -/
theorem run_right_strings_two :
    ∃ (w : World) (tr : List (Step World Call Kerr)),
      tr.map Step.result = [.ok, .ok, .ok, .ok, .inval, .ok, .ok] ∧
      Run step (fun w c => c.Live w ∧ Behaves w c) [] tr w ∧ w.map used = [0, 2, 2] ∧
      ∀ s ∈ w, Right s := by
  have hrun : Run step (fun w c => c.Live w ∧ Behaves w c) ([] : World) _ _ :=
    run_of_runList [.create ⟨4⟩ true, .create ⟨2⟩ true, .on 0 (.strcpyRaw (letters 2)),
      .on 1 (.strcpy 0), .on 1 (.strcatRaw (letters 3)), .strndup 1 5 true, .on 0 .zero] rfl (by
        simp only [List.forall_mem_cons]
        refine ⟨?_, ?_, ?_, ?_, ?_, ?_, ?_, by simp⟩ <;>
          simp [Call.Live, Op.Live, Behaves, Op.Behaves, letters, CString.len, sizeofKstr])
  exact ⟨_, _, rfl, hrun, rfl, (run_right_strings hrun).2.1⟩

/-- A short copy over a longer one: the string has one character, and `strlen` finds three. -/
theorem not_right_short_copy :
    ∃ (w : World) (tr : List (Step World Call Kerr)) (s : Kstr),
      Run step (fun w c => c.Live w) [] tr w ∧ w = [s] ∧ s.used = 1 ∧ strlen s.val = some 3 ∧
        ¬ Right s := by
  refine ⟨_, _, _, run_of_runList [.create ⟨8⟩ true, .on 0 (.strcpyRaw (letters 3)),
    .on 0 (.strcpyRaw (letters 1))] rfl ?_, rfl, rfl, rfl, ?_⟩
  · simp only [List.forall_mem_cons]
    refine ⟨?_, ?_, ?_, by simp⟩ <;> simp [Call.Live, Op.Live]
  · intro hright
    exact absurd hright.strlen_eq (by decide)

end Kstr

end Kylin
