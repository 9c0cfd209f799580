import Kylin.Lib.Run
import Kylin.Lib.Buffer
import Kylin.Arch.Word

/-!
# The byte stack

`klifo_t` (`lib/core/math/kylin_lifo.c`) keeps a stack of bytes in a block of `cap` bytes,
of which it uses all but one.  All lengths are `size_t`, and the three tests are made in
this type.

The difference that `kylin_lifo_pop` and `kylin_lifo_top` compare with zero is unsigned, so
they refuse nothing and read in front of the block when asked for more than there is.  The
sum of `kylin_lifo_push` may wrap, and a length whose low 32 bits are ones is returned as
`-1`.  `Behaves` excludes these calls, and along runs of the other calls the block is a
stack, `run_isByteStack`.

## Main definitions

* `Klifo` and `create`, `push`, `pop`, `peekTop`.
* `Klifo.Holds` — the bytes of a stack.
* `stack` — what a run has pushed and not popped; `IsByteStack` compares a run with it.
* `Behaves` — the side condition on one call.

## Main results

* `callRight_iff` — which calls are right.
* `run_isByteStack` — runs of such calls are those of a stack.
-/

namespace Kylin

open Lib

/-- `klifo_opts_t`. -/
structure KlifoOpts where
  cap : ℕ

/-- `klifo_t`. -/
structure Klifo where
  opts : KlifoOpts
  top : ℕ
  buf : Buffer Byte

namespace Klifo

/-- `sizeof(klifo_t)`. -/
def sizeofKlifo : ℕ := 40

/-- `kylin_lifo_create`, with memory; `none` when the size of the block has wrapped, so that
`memcpy` writes behind it. -/
def create (opts : KlifoOpts) : Option Klifo :=
  let size := sizeAdd sizeofKlifo opts.cap
  if size < sizeofKlifo then none else some ⟨opts, 0, ⟨size - sizeofKlifo, fun _ => 0⟩⟩

/-- `kylin_lifo_push` of the bytes `buf`, with `len` their number. -/
def push (lifo : Klifo) (buf : List Byte) : Option (ℤ × Klifo) :=
  let len := buf.length
  if sizeSub lifo.opts.cap 1 < sizeAdd lifo.top len then some (-1, lifo)
  else do
    let block ← lifo.buf.write lifo.top buf
    some (toInt len, { lifo with buf := block, top := sizeAdd lifo.top len })

/-- `kylin_lifo_pop`: the result, the bytes copied to the caller and the stack. -/
def pop (lifo : Klifo) (len : ℕ) : Option (ℤ × List Byte × Klifo) :=
  if (sizeSub lifo.top len : ℤ) < 0 then some (-1, [], lifo)
  else do
    let buf ← lifo.buf.read (sizeSub lifo.top len) len
    some (toInt len, buf, { lifo with top := sizeSub lifo.top len })

/-- `kylin_lifo_top`. -/
def peekTop (lifo : Klifo) (len : ℕ) : Option (ℤ × List Byte) :=
  if (sizeSub lifo.top len : ℤ) < 0 then some (-1, [])
  else do
    let buf ← lifo.buf.read (sizeSub lifo.top len) len
    some (toInt len, buf)

/-! ## Runs -/

/-- The calls on a stack. -/
inductive Call
  | push (buf : List Byte)
  | pop (len : ℕ)
  | top (len : ℕ)

/-- The length of a call. -/
def Call.len : Call → ℕ
  | .push buf => buf.length
  | .pop len | .top len => len

/-- What the caller sees: `none` for the result `-1`, else the bytes it was given. -/
def outcome (ret : ℤ) (buf : List Byte) : Option (List Byte) := if ret = -1 then none else some buf

/-- One call on a stack. -/
def step (lifo : Klifo) : Call → Option (Option (List Byte) × Klifo)
  | .push buf => (lifo.push buf).map fun (ret, l) => (outcome ret [], l)
  | .pop len => (lifo.pop len).map fun (ret, buf, l) => (outcome ret buf, l)
  | .top len => (lifo.peekTop len).map fun (ret, buf) => (outcome ret buf, lifo)

/-- What one call does to the bytes on a stack. -/
def track (q : List Byte) (e : Step Klifo Call (Option (List Byte))) : List Byte :=
  match e.call, e.result with
  | .push buf, some _ => q ++ buf
  | .pop len, some _ => q.take (q.length - len)
  | _, _ => q

/-- The bytes that a run has pushed and not popped, first pushed first. -/
def stack (tr : List (Step Klifo Call (Option (List Byte)))) : List Byte := tr.foldl track []

/-- **What a stack with the bytes `q` promises about a call**: it has room, a failed call
changes nothing, and a `pop` or `top` succeeds if there are enough bytes, with the last of
them. -/
structure StepRight (q : List Byte) (e : Step Klifo Call (Option (List Byte))) : Prop where
  bound : e.after.top ≤ e.after.opts.cap
  unchanged : e.result = none → e.after.top = e.before.top ∧ e.after.buf = e.before.buf
  available : ∀ len, e.call = .pop len ∨ e.call = .top len → (e.result.isSome ↔ len ≤ q.length)
  last : ∀ len buf, e.call = .pop len ∨ e.call = .top len → e.result = some buf →
    buf = q.drop (q.length - len)

/-- A call returns, and is right. -/
def CallRight (q : List Byte) (lifo : Klifo) (c : Call) : Prop :=
  ∃ r lifo', lifo.step c = some (r, lifo') ∧ StepRight q ⟨lifo, c, r, lifo'⟩

/-- **A run of a stack**: every call was right. -/
def IsByteStack (tr : List (Step Klifo Call (Option (List Byte)))) : Prop :=
  ∀ pre e post, tr = pre ++ e :: post → StepRight (stack pre) e

/-- The calls that are treated rightly, by the state they are made in. -/
def Behaves (lifo : Klifo) : Call → Prop
  | .push buf =>
      -- a sum that wraps is not taken for one that fits
      (2 ^ 64 ≤ lifo.top + buf.length →
        lifo.opts.cap - 1 < (lifo.top + buf.length) % 2 ^ 64) ∧
      -- a length that fits is not returned as `-1`
      (lifo.top + buf.length ≤ lifo.opts.cap - 1 → buf.length % 2 ^ 32 ≠ 2 ^ 32 - 1)
  | .pop len | .top len => len ≤ lifo.top ∧ len % 2 ^ 32 ≠ 2 ^ 32 - 1

/-- A stack that holds the bytes `q`. -/
structure Holds (lifo : Klifo) (q : List Byte) : Prop where
  cap_pos : 0 < lifo.opts.cap
  cap_lt : lifo.opts.cap < 2 ^ 64
  size_eq : lifo.buf.size = lifo.opts.cap
  top_eq : lifo.top = q.length
  top_lt : lifo.top < lifo.opts.cap
  bytes : slice lifo.buf.get 0 q.length = q

theorem holds_create {opts : KlifoOpts} (hpos : 0 < opts.cap) (hlt : opts.cap < 2 ^ 64)
    {lifo : Klifo} (h : create opts = some lifo) : Holds lifo [] ∧ lifo.opts = opts := by
  simp only [create] at h
  split at h
  · cases h
  · next hsize =>
      obtain rfl := Option.some.inj h
      have hnowrap : sizeofKlifo + opts.cap < 2 ^ 64 := by
        rw [sizeAdd, sizeofKlifo] at hsize
        rw [sizeofKlifo]
        omega
      refine ⟨⟨hpos, hlt, ?_, rfl, hpos, rfl⟩, rfl⟩
      change sizeAdd sizeofKlifo opts.cap - sizeofKlifo = opts.cap
      rw [sizeAdd_of_lt hnowrap, Nat.add_sub_cancel_left]

/-! ## One call -/

namespace Holds
variable {lifo : Klifo} {q : List Byte}

/-- A push that fits is stored on top, and no other is. -/
theorem push_eq (H : Holds lifo q) {buf : List Byte}
    (hwrap : 2 ^ 64 ≤ lifo.top + buf.length →
      lifo.opts.cap - 1 < (lifo.top + buf.length) % 2 ^ 64) :
    lifo.push buf =
      if lifo.top + buf.length ≤ lifo.opts.cap - 1 then
        some (toInt buf.length, { lifo with
          buf := { lifo.buf with get := overlay lifo.buf.get lifo.top buf }
          top := lifo.top + buf.length })
      else some (-1, lifo) := by
  have hpos := H.cap_pos
  have hlt := H.cap_lt
  have hlast : sizeSub lifo.opts.cap 1 = lifo.opts.cap - 1 := sizeSub_of_le hpos hlt
  unfold push
  rw [hlast]
  by_cases hfit : lifo.top + buf.length ≤ lifo.opts.cap - 1
  · have hsum : sizeAdd lifo.top buf.length = lifo.top + buf.length := sizeAdd_of_lt (by omega)
    have hin : lifo.top + buf.length ≤ lifo.buf.size := by
      rw [H.size_eq]
      omega
    simp only [hsum, if_neg (Nat.not_lt.mpr hfit), if_pos hfit, Buffer.write_of_le hin,
      Option.bind_eq_bind, Option.bind_some]
  · have hrefused : lifo.opts.cap - 1 < sizeAdd lifo.top buf.length := by
      rw [sizeAdd]
      omega
    simp only [if_pos hrefused, if_neg hfit]

/-- A sum that wraps and is taken for one that fits is a write behind the block. -/
theorem push_wrapped (H : Holds lifo q) {buf : List Byte}
    (hwrap : 2 ^ 64 ≤ lifo.top + buf.length)
    (hle : (lifo.top + buf.length) % 2 ^ 64 ≤ lifo.opts.cap - 1) : lifo.push buf = none := by
  have hlast : sizeSub lifo.opts.cap 1 = lifo.opts.cap - 1 := sizeSub_of_le H.cap_pos H.cap_lt
  have hout : ¬ lifo.top + buf.length ≤ lifo.buf.size := by
    have := H.cap_lt
    rw [H.size_eq]
    omega
  have hpassed : ¬ lifo.opts.cap - 1 < sizeAdd lifo.top buf.length := Nat.not_lt.mpr hle
  unfold push
  rw [hlast]
  simp only [if_neg hpassed, Buffer.write, if_neg hout, Option.bind_eq_bind, Option.bind_none]

/-- The bytes under the top. -/
theorem read_last (H : Holds lifo q) {len : ℕ} (hlen : len ≤ lifo.top) :
    lifo.buf.read (sizeSub lifo.top len) len = some (q.drop (q.length - len)) := by
  have htop := H.top_lt
  have hcap := H.cap_lt
  have hq := H.top_eq
  have hin : q.length - len + len ≤ lifo.buf.size := by
    rw [H.size_eq]
    omega
  have hdrop := drop_slice lifo.buf.get 0 q.length (Nat.sub_le q.length len)
  rw [H.bytes, Nat.zero_add, Nat.sub_sub_self (hq ▸ hlen)] at hdrop
  rw [sizeSub_of_le hlen (by omega), hq, Buffer.read_of_le hin, hdrop]

/-- The tests of `kylin_lifo_pop` and `kylin_lifo_top` let every length through, and a read
of more than there is starts in front of the block. -/
theorem read_missing (H : Holds lifo q) {len : ℕ} (hlen : lifo.top < len) (hlt : len < 2 ^ 64) :
    lifo.buf.read (sizeSub lifo.top len) len = none := by
  have htop := H.top_lt
  have hcap := H.cap_lt
  rw [Buffer.read, if_neg]
  rw [H.size_eq, sizeSub]
  omega

/-- The bytes left under the ones that are popped. -/
theorem pop (H : Holds lifo q) (len : ℕ) :
    Holds { lifo with top := lifo.top - len } (q.take (q.length - len)) := by
  have htop := H.top_eq
  have hlt := H.top_lt
  refine ⟨H.cap_pos, H.cap_lt, H.size_eq, ?_, ?_, ?_⟩
  · rw [List.length_take]
    change lifo.top - len = _
    omega
  · change lifo.top - len < lifo.opts.cap
    omega
  · rw [List.length_take, Nat.min_eq_left (Nat.sub_le _ _)]
    change slice lifo.buf.get 0 (q.length - len) = _
    rw [← take_slice lifo.buf.get 0 q.length (Nat.sub_le _ _), H.bytes]

/-- The bytes under the ones that are pushed. -/
theorem push (H : Holds lifo q) {buf : List Byte}
    (hfit : lifo.top + buf.length ≤ lifo.opts.cap - 1) :
    Holds { lifo with
      buf := { lifo.buf with get := overlay lifo.buf.get lifo.top buf }
      top := lifo.top + buf.length } (q ++ buf) := by
  have hpos := H.cap_pos
  refine ⟨H.cap_pos, H.cap_lt, H.size_eq, ?_, ?_, ?_⟩
  · change lifo.top + buf.length = _
    rw [List.length_append, H.top_eq]
  · change lifo.top + buf.length < lifo.opts.cap
    omega
  · change slice (overlay lifo.buf.get lifo.top buf) 0 (q ++ buf).length = q ++ buf
    rw [List.length_append, slice_append, Nat.zero_add, H.top_eq, slice_overlay_self]
    congr 1
    rw [← H.bytes, length_slice]
    apply slice_congr
    intro i hi
    apply overlay_of_lt
    rwa [Nat.zero_add]

end Holds

/-- An unsigned difference is never below zero. -/
theorem pop_eq_read (lifo : Klifo) (len : ℕ) :
    lifo.pop len = (lifo.buf.read (sizeSub lifo.top len) len).map fun buf =>
      (toInt len, buf, { lifo with top := sizeSub lifo.top len }) := by
  rw [Klifo.pop, if_neg (Int.not_lt.mpr (Int.natCast_nonneg _)), Option.map_eq_bind]
  rfl

theorem peekTop_eq_read (lifo : Klifo) (len : ℕ) :
    lifo.peekTop len = (lifo.buf.read (sizeSub lifo.top len) len).map fun buf =>
      (toInt len, buf) := by
  rw [peekTop, if_neg (Int.not_lt.mpr (Int.natCast_nonneg _)), Option.map_eq_bind]
  rfl

theorem outcome_of_ne {len : ℕ} (h : len % 2 ^ 32 ≠ 2 ^ 32 - 1) (buf : List Byte) :
    outcome (toInt len) buf = some buf := if_neg (mt (toInt_eq_neg_one_iff len).mp h)

theorem outcome_of_eq {len : ℕ} (h : len % 2 ^ 32 = 2 ^ 32 - 1) (buf : List Byte) :
    outcome (toInt len) buf = none := if_pos ((toInt_eq_neg_one_iff len).mpr h)

namespace Holds
variable {lifo : Klifo} {q : List Byte}

/-- A call that gives the last `len` bytes, which are there, is right. -/
theorem stepRight_read (H : Holds lifo q) {c : Call} {len : ℕ} (hc : c = .pop len ∨ c = .top len)
    (hlen : len ≤ lifo.top) {lifo' : Klifo} (htop : lifo'.top ≤ lifo.top)
    (hopts : lifo'.opts = lifo.opts) :
    StepRight q ⟨lifo, c, some (q.drop (q.length - len)), lifo'⟩ where
  bound := by
    change lifo'.top ≤ lifo'.opts.cap
    rw [hopts]
    exact Nat.le_trans htop (Nat.le_of_lt H.top_lt)
  unchanged := by simp
  available n hn := by
    have hlen' : len = n := by rcases hc with rfl | rfl <;> simpa using hn
    simpa [← hlen', ← H.top_eq] using hlen
  last n buf hn hbuf := by
    have hlen' : len = n := by rcases hc with rfl | rfl <;> simpa using hn
    rw [← hlen']
    exact (Option.some.inj hbuf).symm

/-- A push that a stack refuses, or carries out, is right. -/
theorem stepRight_push {buf : List Byte} {r : Option (List Byte)} {lifo' : Klifo}
    (hbound : lifo'.top ≤ lifo'.opts.cap) (hkeep : r = none → lifo' = lifo) :
    StepRight q ⟨lifo, .push buf, r, lifo'⟩ where
  bound := hbound
  unchanged h := by
    obtain rfl := hkeep h
    exact ⟨rfl, rfl⟩
  available n hn := by simp at hn
  last n b hn := by simp at hn

/-- **One call that behaves** returns, is right, and leaves the bytes of `track`. -/
theorem step_spec (H : Holds lifo q) {c : Call} (hb : Behaves lifo c) :
    ∃ r lifo', lifo.step c = some (r, lifo') ∧ StepRight q ⟨lifo, c, r, lifo'⟩ ∧
      lifo'.opts = lifo.opts ∧ Holds lifo' (track q ⟨lifo, c, r, lifo'⟩) := by
  have htop := H.top_lt
  have hcap := H.cap_lt
  cases c with
  | push buf =>
      have hpush := H.push_eq hb.1
      by_cases hfit : lifo.top + buf.length ≤ lifo.opts.cap - 1
      · rw [if_pos hfit] at hpush
        have H' := H.push hfit
        refine ⟨some [], _, ?_, stepRight_push (Nat.le_of_lt H'.top_lt) (by simp), rfl, H'⟩
        simp only [step, hpush, Option.map_some, outcome_of_ne (hb.2 hfit)]
      · rw [if_neg hfit] at hpush
        refine ⟨none, lifo, ?_, stepRight_push (Nat.le_of_lt htop) (fun _ => rfl), rfl, H⟩
        rw [step, hpush]
        rfl
  | pop len =>
      obtain ⟨hlen, hret⟩ := hb
      refine ⟨_, { lifo with top := lifo.top - len }, ?_,
        H.stepRight_read (.inl rfl) hlen (Nat.sub_le _ _) rfl, rfl, H.pop len⟩
      rw [step, pop_eq_read, H.read_last hlen, sizeSub_of_le hlen (by omega)]
      simp [outcome_of_ne hret]
  | top len =>
      obtain ⟨hlen, hret⟩ := hb
      refine ⟨_, lifo, ?_, H.stepRight_read (.inr rfl) hlen (Nat.le_refl _) rfl, rfl, H⟩
      rw [step, peekTop_eq_read, H.read_last hlen]
      simp [outcome_of_ne hret]

/-- A length whose low 32 bits are ones is reported as a failure, even where there are
bytes enough. -/
theorem not_callRight_of_ret {len : ℕ} {c : Call} (H : Holds lifo q)
    (hc : c = .pop len ∨ c = .top len) (hlen : len ≤ lifo.top)
    (hret : len % 2 ^ 32 = 2 ^ 32 - 1) : ¬ CallRight q lifo c := by
  intro ⟨r, lifo', hs, hright⟩
  have hnone : r = none := by
    rcases hc with rfl | rfl
    · rw [step, pop_eq_read, H.read_last hlen] at hs
      simp only [Option.map_some, outcome_of_eq hret, Option.some.injEq, Prod.mk.injEq] at hs
      exact hs.1.symm
    · rw [step, peekTop_eq_read, H.read_last hlen] at hs
      simp only [Option.map_some, outcome_of_eq hret, Option.some.injEq, Prod.mk.injEq] at hs
      exact hs.1.symm
  have hsome : r.isSome := (hright.available len hc).mpr (H.top_eq ▸ hlen)
  simp [hnone] at hsome

/-- **Which calls are right.** -/
theorem callRight_iff (H : Holds lifo q) {c : Call} (hc : c.len < 2 ^ 64) :
    CallRight q lifo c ↔ Behaves lifo c := by
  refine ⟨fun hright => ?_, fun hb => ?_⟩
  · cases c with
    | push buf =>
        have hwrap : 2 ^ 64 ≤ lifo.top + buf.length →
            lifo.opts.cap - 1 < (lifo.top + buf.length) % 2 ^ 64 := by
          intro hwrap
          by_contra hle
          obtain ⟨r, lifo', hs, -⟩ := hright
          rw [step, H.push_wrapped hwrap (Nat.not_lt.mp hle)] at hs
          cases hs
        refine ⟨hwrap, fun hfit hret => ?_⟩
        obtain ⟨r, lifo', hs, hright⟩ := hright
        simp only [step, H.push_eq hwrap, if_pos hfit, Option.map_some, outcome_of_eq hret] at hs
        obtain ⟨rfl, rfl⟩ := Prod.mk.inj (Option.some.inj hs)
        have hsame : lifo.top + buf.length = lifo.top := (hright.unchanged rfl).1
        omega
    | pop len =>
        have hlen : len ≤ lifo.top := by
          by_contra hmore
          obtain ⟨r, lifo', hs, -⟩ := hright
          rw [step, pop_eq_read, H.read_missing (Nat.not_le.mp hmore) hc] at hs
          cases hs
        exact ⟨hlen, fun hret => H.not_callRight_of_ret (.inl rfl) hlen hret hright⟩
    | top len =>
        have hlen : len ≤ lifo.top := by
          by_contra hmore
          obtain ⟨r, lifo', hs, -⟩ := hright
          rw [step, peekTop_eq_read, H.read_missing (Nat.not_le.mp hmore) hc] at hs
          cases hs
        exact ⟨hlen, fun hret => H.not_callRight_of_ret (.inr rfl) hlen hret hright⟩
  · obtain ⟨r, lifo', hs, hright, -⟩ := H.step_spec hb
    exact ⟨r, lifo', hs, hright⟩

end Holds

/-! ## Whole runs -/

/-- What a run of calls that behave maintains. -/
private theorem run_holds_stack {opts : KlifoOpts} (hpos : 0 < opts.cap) (hlt : opts.cap < 2 ^ 64)
    {lifo₀ lifo : Klifo} (h0 : create opts = some lifo₀)
    {tr : List (Step Klifo Call (Option (List Byte)))} (h : Run step Behaves lifo₀ tr lifo) :
    Holds lifo (stack tr) ∧ lifo.opts = opts := by
  refine h.induct (P := fun tr lifo => Holds lifo (stack tr) ∧ lifo.opts = opts)
    (holds_create hpos hlt h0) ?_
  intro tr lifo c r lifo' _ ⟨H, ho⟩ hb hs
  obtain ⟨r', lifo'', hs', -, ho', H'⟩ := H.step_spec hb
  rw [hs] at hs'
  obtain ⟨rfl, rfl⟩ := Prod.mk.inj (Option.some.inj hs')
  refine ⟨?_, ho'.trans ho⟩
  rw [stack, List.foldl_append]
  exact H'

/-- **A byte stack refines a stack of bytes** along every run of calls that behave: every
call made was right, and the calls that are right next are those that behave. -/
theorem run_isByteStack {opts : KlifoOpts} (hpos : 0 < opts.cap) (hlt : opts.cap < 2 ^ 64)
    {lifo₀ lifo : Klifo} (h0 : create opts = some lifo₀)
    {tr : List (Step Klifo Call (Option (List Byte)))} (h : Run step Behaves lifo₀ tr lifo) :
    IsByteStack tr ∧ lifo.top ≤ opts.cap ∧
      ∀ c : Call, c.len < 2 ^ 64 → (CallRight (stack tr) lifo c ↔ Behaves lifo c) := by
  obtain ⟨H, ho⟩ := run_holds_stack hpos hlt h0 h
  refine ⟨?_, ho ▸ Nat.le_of_lt H.top_lt, fun c hc => H.callRight_iff hc⟩
  intro pre e post htr
  obtain ⟨hpre, hb, hs⟩ := h.split htr
  obtain ⟨r, lifo', hs', hright, -⟩ := (run_holds_stack hpos hlt h0 hpre).1.step_spec hb
  rw [hs] at hs'
  obtain ⟨hr, hl⟩ := Prod.mk.inj (Option.some.inj hs')
  rwa [← hr, ← hl] at hright

/-- Six bytes of capacity: two pushes, one that is refused, and both kinds of reads. -/
theorem run_isByteStack_six :
    ∃ (lifo₀ lifo : Klifo) (tr : List (Step Klifo Call (Option (List Byte)))),
      create ⟨6⟩ = some lifo₀ ∧
      tr.map Step.result = [some [], some [], none, some [2, 3], some [2, 3], some [1]] ∧
      Run step Behaves lifo₀ tr lifo ∧ IsByteStack tr := by
  have hrun : Run step Behaves (⟨⟨6⟩, 0, ⟨6, fun _ => 0⟩⟩ : Klifo) _ _ :=
    run_of_runList [.push [1, 2], .push [3], .push [4, 5, 6], .top 2, .pop 2, .pop 1] rfl (by
      simp only [List.forall_mem_cons]
      refine ⟨?_, ?_, ?_, ?_, ?_, ?_, by simp⟩ <;> simp [Behaves] <;> decide)
  have hpos : 0 < (⟨6⟩ : KlifoOpts).cap := by decide
  have hlt : (⟨6⟩ : KlifoOpts).cap < 2 ^ 64 := by decide
  exact ⟨_, _, _, rfl, rfl, hrun, (run_isByteStack hpos hlt rfl hrun).1⟩

/-- One byte asked of an empty stack is not refused: it is read in front of the block. -/
theorem not_callRight_pop_empty :
    ∃ lifo₀ : Klifo, create ⟨6⟩ = some lifo₀ ∧ lifo₀.pop 1 = none ∧
      ¬ CallRight [] lifo₀ (.pop 1) := by
  refine ⟨_, rfl, rfl, ?_⟩
  rintro ⟨r, lifo', hs, -⟩
  cases hs

end Klifo

end Kylin
