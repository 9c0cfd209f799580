import Kylin.Event.Event
import Mathlib.Data.List.Nodup

/-!
# The `select` plugin

The plugin (`lib/core/event/plugin/kylin_select.c`) keeps, for each kind of event, a bit
set that `select` is called with and a set of the descriptors in it.  Each of `kselect_add`,
`kselect_del` and `kselect_mod` goes through the three kinds in turn, changes a bit and
then the set, and returns at the first failure.

There is no event with such a state.  `kselect_create` clears the bit sets through the
pointers of a record that was filled with zeros, so it faults as soon as there is memory for
all it needs: `agrees_iff`.

What the callbacks do is stated for an event whose bit sets exist.  There bits, sets and the
registry agree after a call, with two exceptions.  A descriptor that is added again gets a
second entry, as sets keep equal elements; and a bit is set before the set, of capacity 64,
refuses the descriptor.  `Fits` excludes these calls, and `run_agree` shows that all runs of
other calls agree.

## Main definitions

* `Slot`, `KeventSelect`, `reg` — the state of the plugin and its callbacks.
* `kselectCreate`, `kylinEventCreate` — the creation of an event.
* `Agree` — bits, sets and entries say the same.
* `Fits` — the side condition on one call.

## Main results

* `agrees_iff` — when a creation and the calls after it do what they should.
* `step_agree_iff` — which calls keep the agreement.
* `run_agree` — runs of such calls agree.
-/

namespace Kylin.Kselect

open Lib Event

/-- `FD_SETSIZE`. -/
def fdSetsize : ℕ := 1024

/-- A descriptor in memory. -/
def fdCell (fd : ℕ) : Cell Unit := .int (BitVec.ofNat 64 fd)

/-- `__fd_compare`. -/
def fdCompare : Cell Unit → Cell Unit → ℤ
  | .int a, .int b =>
      let fd1 := (a.setWidth 32).toInt
      let fd2 := (b.setWidth 32).toInt
      if fd2 < fd1 then 1 else if fd1 < fd2 then -1 else 0
  | _, _ => 0

/-- The options of the sets of descriptors; they do not ask for an ordered set. -/
def fdsetOpts : KsetOpts Unit where
  isOrder := false
  cap := 64
  valType := .int32
  compare := some fdCompare
  ctor := true

/-- What the plugin keeps for one kind of event: a bit set and a set of descriptors. -/
structure Slot where
  bits : ℕ → Bool
  fds : Kset Unit

namespace Slot

/-- `FD_SET` and `kylin_set_insert`. -/
def set (s : Slot) (fd : ℕ) : Option (Kerr × Slot) :=
  if fdSetsize ≤ fd then none
  else (s.fds.insert (.user (fdCell fd))).map fun (ret, fds) =>
    (ret, ⟨Function.update s.bits fd true, fds⟩)

/-- `FD_CLR` and `kylin_set_remove`. -/
def clear (s : Slot) (fd : ℕ) : Option (Kerr × Slot) :=
  if fdSetsize ≤ fd then none
  else (s.fds.remove (.user (fdCell fd))).map fun (ret, fds) =>
    (ret, ⟨Function.update s.bits fd false, fds⟩)

/-- One kind in `kselect_mod`. -/
def mod (s : Slot) (fd : ℕ) (flags : Flags) (k : Kind) : Option (Kerr × Slot) :=
  if fdSetsize ≤ fd then none
  else if has (~~~flags) k then
    if s.bits fd then s.clear fd else some (.ok, s)
  else if !s.bits fd then s.set fd
  else some (.ok, s)

/-- The descriptors in the set. -/
def listed (s : Slot) : List ℕ :=
  s.fds.stored.filterMap fun
    | .int w => some w.toNat
    | .obj _ => none

end Slot

/-- `kevent_select_t`. -/
abbrev KeventSelect : Type := Kind → Slot

/-- The state with cleared bit sets and empty sets. -/
def cleared : KeventSelect := fun _ => ⟨fun _ => false, .create fdsetOpts⟩

/-- Do one thing for one kind. -/
def forKind (f : Kind → Slot → Option (Kerr × Slot)) (s : KeventSelect) (k : Kind) :
    Option (Kerr × KeventSelect) :=
  (f k (s k)).map fun (ret, t) => (ret, Function.update s k t)

/-- Do one thing for every kind, up to the first failure. -/
def forKinds (f : Kind → Slot → Option (Kerr × Slot)) (s : KeventSelect) :
    Option (Kerr × KeventSelect) := do
  let (ret, s) ← forKind f s .read
  if ret ≠ .ok then some (ret, s)
  else do
    let (ret, s) ← forKind f s .write
    if ret ≠ .ok then some (ret, s) else forKind f s .error

/-- `kselect_add`. -/
def add (guard : Guard KeventSelect) (fd : ℕ) (flags : Flags) :
    Option (Kerr × KeventSelect) :=
  forKinds (fun k s => if has flags k then s.set fd else some (.ok, s)) guard.priv

/-- `kselect_del`. -/
def del (guard : Guard KeventSelect) (fd : ℕ) (flags : Flags) :
    Option (Kerr × KeventSelect) :=
  forKinds (fun k s => if has flags k then s.clear fd else some (.ok, s)) guard.priv

/-- `kselect_mod`. -/
def mod (guard : Guard KeventSelect) (fd : ℕ) (flags : Flags) :
    Option (Kerr × KeventSelect) :=
  forKinds (fun k s => s.mod fd flags k) guard.priv

/-- The callbacks of the plugin. -/
def reg : Reg KeventSelect := ⟨some add, some del, some mod⟩

/-- An event with that state. -/
def init : Guard KeventSelect := .create cleared

/-- **Bits, sets and entries agree**: a descriptor has at most one entry, and for every
kind it is in the set at most once, and it is there if and only if its bit is set, and if
and only if its entry has the flag. -/
def Agree (guard : Guard KeventSelect) : Prop :=
  ∀ fd, guard.entries.countP (fun e => e.efd = fd) ≤ 1 ∧
    ∀ k, (guard.priv k).listed.count fd ≤ 1 ∧
      ((guard.priv k).bits fd = true ↔ (guard.priv k).listed.count fd = 1) ∧
      ((guard.priv k).bits fd = true ↔ ∃ e ∈ guard.entries, e.efd = fd ∧ has e.flags k = true)

/-- There is room in the set of a kind. -/
def Room (guard : Guard KeventSelect) (k : Kind) : Prop :=
  (guard.priv k).listed.length < fdsetOpts.cap

instance (guard : Guard KeventSelect) (k : Kind) : Decidable (Room guard k) :=
  inferInstanceAs (Decidable (_ < _))

/-- Adding is refused by the registry, or is for a descriptor without an entry and finds
room in all sets; changing flags finds room in the sets of the kinds that are new. -/
def Fits (guard : Guard KeventSelect) : Guard.Call → Prop
  | .add fd flags => guard.entries.length = eventsOpts.cap ∨
      (∀ e ∈ guard.entries, e.efd ≠ fd) ∧ ∀ k, has flags k = true → Room guard k
  | .del fd flags => ∀ e ∈ guard.entries, e.efd = fd → e.flags = flags ∨
      ∀ k, has flags k = true → has e.flags k = false → Room guard k

/-! ## One kind -/

section Cells
variable {a b : ℕ}

theorem toNat_fd (ha : a < fdSetsize) : ((BitVec.ofNat 64 a).setWidth 32).toNat = a := by
  rw [fdSetsize] at ha
  rw [BitVec.toNat_setWidth, BitVec.toNat_ofNat]
  omega

theorem toInt_fd (ha : a < fdSetsize) : ((BitVec.ofNat 64 a).setWidth 32).toInt = a := by
  have hlt := ha
  rw [fdSetsize] at hlt
  rw [BitVec.toInt_eq_toNat_of_lt (by rw [toNat_fd ha]; omega), toNat_fd ha]

/-- A descriptor is stored as it is. -/
theorem signExtend_fd (ha : a < fdSetsize) :
    ((BitVec.ofNat 64 a).setWidth 32).signExtend 64 = BitVec.ofNat 64 a := by
  apply BitVec.eq_of_toInt_eq
  have hlt := ha
  rw [fdSetsize] at hlt
  rw [BitVec.toInt_signExtend_of_le (by decide), toInt_fd ha, BitVec.toInt_eq_toNat_of_lt,
    BitVec.toNat_ofNat]
  · omega
  · rw [BitVec.toNat_ofNat]
    omega

theorem fdCompare_eq_zero (ha : a < fdSetsize) (hb : b < fdSetsize) :
    fdCompare (fdCell a) (fdCell b) = 0 ↔ a = b := by
  simp only [fdCompare, fdCell, toInt_fd ha, toInt_fd hb]
  split
  · omega
  · split <;> omega

theorem eraseP_fd (ha : a < fdSetsize) {l : List ℕ} (hl : ∀ fd ∈ l, fd < fdSetsize) :
    (l.map fdCell).eraseP (fun c => fdCompare (fdCell a) c = 0) = (l.erase a).map fdCell := by
  induction l with
  | nil => rfl
  | cons b l ih =>
      have hb := fdCompare_eq_zero ha (hl b List.mem_cons_self)
      rw [List.map_cons, List.eraseP_cons, List.erase_cons]
      by_cases hab : a = b
      · subst hab
        simp [hb.mpr rfl]
      · have hne : ¬ b = a := Ne.symm hab
        simp [mt hb.mp hab, hne, ih fun fd hfd => hl fd (List.mem_cons_of_mem _ hfd)]

end Cells

/-- The set of a kind has these descriptors, in the order in which they were added. -/
structure Slot.Stores (s : Slot) (l : List ℕ) : Prop where
  opts : s.fds.opts = fdsetOpts
  fds : s.fds.Holds (l.map fdCell)
  bound : ∀ fd ∈ l, fd < fdSetsize

namespace Slot.Stores
variable {s : Slot} {l : List ℕ} {fd : ℕ}

theorem listed_eq (h : s.Stores l) : s.listed = l := by
  rw [listed, h.fds.stored_eq, List.filterMap_map]
  have hsome : ∀ fd ∈ l, ((fun | .int w => some w.toNat | .obj _ => none : Cell Unit → Option ℕ) ∘
      fdCell) fd = some fd := by
    intro fd hfd
    have hlt : fd < 2 ^ 64 := Nat.lt_trans (h.bound fd hfd) (by decide)
    change some (BitVec.ofNat 64 fd).toNat = some fd
    rw [BitVec.toNat_ofNat, Nat.mod_eq_of_lt hlt]
  rw [List.filterMap_congr hsome]
  exact List.filterMap_some

theorem compare_eq (h : s.Stores l) : s.fds.opts.compare = some fdCompare := by
  rw [h.opts]
  rfl

/-- A descriptor is added behind the others. -/
theorem set (h : s.Stores l) (hfd : fd < fdSetsize) (hroom : l.length ≠ fdsetOpts.cap) :
    ∃ s', s.set fd = some (.ok, s') ∧ s'.Stores (l ++ [fd]) ∧
      s'.bits = Function.update s.bits fd true := by
  have hctor : kmathValCtor (.user (fdCell fd)) s.fds.opts.valType s.fds.opts.ctor =
      some (.word (BitVec.ofNat 64 fd)) := by
    rw [h.opts]
    change some (KmathVal.word (((BitVec.ofNat 64 fd).setWidth 32).signExtend 64)) = _
    rw [signExtend_fd hfd]
  have hget : Kset.contents s.fds.opts (.word (BitVec.ofNat 64 fd)) = some (fdCell fd) := by
    rw [h.opts]
    rfl
  have hlen : (l.map fdCell).length ≠ s.fds.opts.cap := by
    rw [List.length_map, h.opts]
    exact hroom
  obtain ⟨fds, hins, hopts, hholds⟩ := h.fds.insert hlen (by rw [h.opts]; rfl) hctor hget
  refine ⟨⟨Function.update s.bits fd true, fds⟩, ?_, ⟨hopts.trans h.opts, ?_, ?_⟩, rfl⟩
  · rw [Slot.set, if_neg (Nat.not_le.mpr hfd), hins]
    rfl
  · rw [List.map_append]
    exact hholds
  · intro x hx
    rcases List.mem_append.mp hx with hx | hx
    · exact h.bound x hx
    · rw [List.mem_singleton.mp hx]
      exact hfd

/-- A full set refuses the descriptor, and its bit is set. -/
theorem set_full (h : s.Stores l) (hfd : fd < fdSetsize) (hfull : l.length = fdsetOpts.cap) :
    s.set fd = some (.inval, ⟨Function.update s.bits fd true, s.fds⟩) := by
  have hused : s.fds.used = s.fds.opts.cap := by
    rw [h.fds.used_eq, List.length_map, h.opts, hfull]
  rw [Slot.set, if_neg (Nat.not_le.mpr hfd), Kset.insert_full hused]
  rfl

/-- The first of the entries for a descriptor is removed. -/
theorem clear (h : s.Stores l) (hmem : fd ∈ l) :
    ∃ s', s.clear fd = some (.ok, s') ∧ s'.Stores (l.erase fd) ∧
      s'.bits = Function.update s.bits fd false := by
  have hfd := h.bound fd hmem
  have hex : ∃ c ∈ l.map fdCell, fdCompare (fdCell fd) c = 0 :=
    ⟨fdCell fd, List.mem_map_of_mem hmem, (fdCompare_eq_zero hfd hfd).mpr rfl⟩
  obtain ⟨fds, hrem, hopts, hholds⟩ := h.fds.remove h.compare_eq (KPtr.deref_user _) hex
  refine ⟨⟨Function.update s.bits fd false, fds⟩, ?_, ⟨hopts.trans h.opts, ?_, ?_⟩, rfl⟩
  · rw [Slot.clear, if_neg (Nat.not_le.mpr hfd), hrem]
    rfl
  · rw [← eraseP_fd hfd h.bound]
    exact hholds
  · exact fun x hx => h.bound x (List.mem_of_mem_erase hx)

/-- A descriptor that is not in the set is not removed, and its bit is cleared. -/
theorem clear_none (h : s.Stores l) (hfd : fd < fdSetsize) (hnot : fd ∉ l) :
    s.clear fd = some (.noent, ⟨Function.update s.bits fd false, s.fds⟩) := by
  have hno : ∀ c ∈ l.map fdCell, fdCompare (fdCell fd) c ≠ 0 := by
    intro c hc hcmp
    obtain ⟨x, hx, rfl⟩ := List.mem_map.mp hc
    rw [fdCompare_eq_zero hfd (h.bound x hx)] at hcmp
    exact hnot (hcmp ▸ hx)
  rw [Slot.clear, if_neg (Nat.not_le.mpr hfd),
    h.fds.remove_none h.compare_eq (KPtr.deref_user _) hno]
  rfl

end Slot.Stores

/-- The bits and the set of a kind are those of a list of descriptors. -/
structure Slot.Holds (s : Slot) (l : List ℕ) : Prop where
  opts : s.fds.opts = fdsetOpts
  fds : s.fds.Holds (l.map fdCell)
  room : l.length ≤ fdsetOpts.cap
  bound : ∀ fd ∈ l, fd < fdSetsize
  nodup : l.Nodup
  bits : ∀ fd, s.bits fd = true ↔ fd ∈ l

namespace Slot.Holds
variable {s : Slot} {l : List ℕ} {fd : ℕ}

theorem stores (h : s.Holds l) : s.Stores l := ⟨h.opts, h.fds, h.bound⟩

theorem listed_eq (h : s.Holds l) : s.listed = l := h.stores.listed_eq

theorem set (h : s.Holds l) (hfd : fd < fdSetsize) (hnot : fd ∉ l)
    (hroom : l.length < fdsetOpts.cap) :
    ∃ s', s.set fd = some (.ok, s') ∧ s'.Holds (l ++ [fd]) := by
  obtain ⟨s', hset, h', hbits⟩ := h.stores.set hfd (Nat.ne_of_lt hroom)
  refine ⟨s', hset, h'.opts, h'.fds, ?_, h'.bound, ?_, ?_⟩
  · rw [List.length_append]
    exact hroom
  · rw [List.nodup_append]
    refine ⟨h.nodup, by simp, ?_⟩
    intro x hx y hy hxy
    rw [hxy, List.mem_singleton.mp hy] at hx
    exact hnot hx
  · intro x
    rw [hbits]
    simp only [Function.update_apply, List.mem_append, List.mem_singleton]
    by_cases hx : x = fd
    · simp [hx]
    · simp [hx, h.bits x]

theorem clear (h : s.Holds l) (hmem : fd ∈ l) :
    ∃ s', s.clear fd = some (.ok, s') ∧ s'.Holds (l.erase fd) := by
  obtain ⟨s', hclear, h', hbits⟩ := h.stores.clear hmem
  refine ⟨s', hclear, h'.opts, h'.fds, Nat.le_trans List.length_erase_le h.room, h'.bound,
    h.nodup.erase fd, ?_⟩
  intro x
  rw [hbits]
  simp only [Function.update_apply, h.nodup.mem_erase_iff]
  by_cases hx : x = fd
  · simp [hx]
  · simp [hx, h.bits x]

end Slot.Holds

/-- After a change for `fd`: it is registered if and only if `p`, and nothing else has
changed. -/
def Slot.Becomes (s : Slot) (l : List ℕ) (fd : ℕ) (p : Prop) : Prop :=
  ∃ l', s.Holds l' ∧ ∀ x, x ∈ l' ↔ if x = fd then p else x ∈ l

section Slots
variable {s : Slot} {l : List ℕ} {fd : ℕ} {flags : Flags} {k : Kind}

theorem Slot.Holds.keep (h : s.Holds l) {p : Prop} (hp : fd ∈ l ↔ p) : s.Becomes l fd p := by
  refine ⟨l, h, ?_⟩
  intro x
  split
  · next hx => rw [hx, hp]
  · rfl

theorem Slot.Holds.set_becomes (h : s.Holds l) (hfd : fd < fdSetsize) (hnot : fd ∉ l)
    (hroom : l.length < fdsetOpts.cap) {p : Prop} (hp : p) :
    ∃ s', s.set fd = some (.ok, s') ∧ s'.Becomes l fd p := by
  obtain ⟨s', hset, h'⟩ := h.set hfd hnot hroom
  refine ⟨s', hset, l ++ [fd], h', ?_⟩
  intro x
  by_cases hx : x = fd
  · simp [hx, hp]
  · simp [hx]

theorem Slot.Holds.clear_becomes (h : s.Holds l) (hmem : fd ∈ l) {p : Prop} (hp : ¬ p) :
    ∃ s', s.clear fd = some (.ok, s') ∧ s'.Becomes l fd p := by
  obtain ⟨s', hclear, h'⟩ := h.clear hmem
  refine ⟨s', hclear, l.erase fd, h', ?_⟩
  intro x
  rw [h.nodup.mem_erase_iff]
  by_cases hx : x = fd
  · simp [hx, hp]
  · simp [hx]

/-- A kind that is new in `kselect_mod`. -/
theorem Slot.Holds.mod_eq_set (h : s.Holds l) (hfd : fd < fdSetsize) (hhas : has flags k = true)
    (hnot : fd ∉ l) : s.mod fd flags k = s.set fd := by
  have hbit : s.bits fd = false := Bool.eq_false_iff.mpr (mt (h.bits fd).mp hnot)
  simp [Slot.mod, Nat.not_le.mpr hfd, has_not, hhas, hbit]

/-- One kind in `kselect_mod`, with room if it is needed. -/
theorem Slot.Holds.mod_becomes (h : s.Holds l) (hfd : fd < fdSetsize)
    (hroom : has flags k = true → fd ∉ l → l.length < fdsetOpts.cap) :
    ∃ s', s.mod fd flags k = some (.ok, s') ∧ s'.Becomes l fd (has flags k = true) := by
  have hfd' : ¬ fdSetsize ≤ fd := Nat.not_le.mpr hfd
  by_cases hmem : fd ∈ l
  · have hbit : s.bits fd = true := (h.bits fd).mpr hmem
    cases hhas : has flags k with
    | false =>
        have hmod : s.mod fd flags k = s.clear fd := by
          simp [Slot.mod, hfd', has_not, hhas, hbit]
        rw [hmod]
        exact h.clear_becomes hmem Bool.false_ne_true
    | true =>
        have hmod : s.mod fd flags k = some (.ok, s) := by
          simp [Slot.mod, hfd', has_not, hhas, hbit]
        exact ⟨s, hmod, h.keep (iff_of_true hmem rfl)⟩
  · have hbit : s.bits fd = false := Bool.eq_false_iff.mpr (mt (h.bits fd).mp hmem)
    cases hhas : has flags k with
    | false =>
        have hmod : s.mod fd flags k = some (.ok, s) := by
          simp [Slot.mod, hfd', has_not, hhas, hbit]
        exact ⟨s, hmod, h.keep (iff_of_false hmem Bool.false_ne_true)⟩
    | true =>
        rw [h.mod_eq_set hfd hhas hmem]
        exact h.set_becomes hfd hmem (hroom hhas hmem) rfl

end Slots

/-! ## All kinds -/

section Kinds
variable {f : Kind → Slot → Option (Kerr × Slot)} {s t : KeventSelect} {r : Kind → Kerr}

theorem forKind_eq {k : Kind} {ret : Kerr} {x : Slot} (h : f k (s k) = some (ret, x)) :
    forKind f s k = some (ret, Function.update s k x) := by
  rw [forKind, h]
  rfl

/-- The kinds before do not change what a kind works on. -/
theorem forKinds_eq (h : ∀ k, f k (s k) = some (r k, t k)) : forKinds f s = some
    (if r .read ≠ .ok then (r .read, Function.update s .read (t .read))
    else if r .write ≠ .ok then
      (r .write, Function.update (Function.update s .read (t .read)) .write (t .write))
    else (r .error, t)) := by
  have hread := forKind_eq (h .read)
  have hwrite := forKind_eq (f := f) (k := .write) (s := Function.update s .read (t .read))
    (h .write)
  have herror := forKind_eq (f := f) (k := .error)
    (s := Function.update (Function.update s .read (t .read)) .write (t .write)) (h .error)
  have ht : Function.update (Function.update (Function.update s .read (t .read)) .write (t .write))
      .error (t .error) = t := by
    ext1 k
    cases k <;> rfl
  simp only [forKinds, hread, hwrite, herror, ht, Option.bind_eq_bind, Option.bind_some]
  split
  · rfl
  · split <;> rfl

theorem forKinds_ok (h : ∀ k, f k (s k) = some (.ok, t k)) : forKinds f s = some (.ok, t) :=
  forKinds_eq h

/-- A call that returns has succeeded for every kind, or has failed for one of them. -/
theorem forKinds_cases {ret : Kerr} (h : forKinds f s = some (ret, t)) :
    ret = .ok ∧ (∀ k, f k (s k) = some (.ok, t k)) ∨
      ret ≠ .ok ∧ ∃ k x, f k (s k) = some (ret, x) := by
  have hkind : ∀ {s s' : KeventSelect} {k : Kind} {ret : Kerr},
      forKind f s k = some (ret, s') → ∃ x, f k (s k) = some (ret, x) ∧
        s' = Function.update s k x := by
    intro s s' k ret h
    obtain ⟨⟨ret', x⟩, hf, heq⟩ := Option.map_eq_some_iff.mp h
    obtain ⟨rfl, rfl⟩ := Prod.mk.inj heq
    exact ⟨x, hf, rfl⟩
  simp only [forKinds, Option.bind_eq_bind, Option.bind_eq_some_iff] at h
  obtain ⟨⟨ret₁, s₁⟩, hread, h⟩ := h
  obtain ⟨x, hx, rfl⟩ := hkind hread
  by_cases hok₁ : ret₁ = .ok
  · simp only [hok₁, ne_eq, not_true, if_false, Option.bind_eq_some_iff] at h hx
    obtain ⟨⟨ret₂, s₂⟩, hwrite, h⟩ := h
    obtain ⟨y, hy, rfl⟩ := hkind hwrite
    by_cases hok₂ : ret₂ = .ok
    · simp only [hok₂, not_true, if_false] at h hy
      obtain ⟨z, hz, rfl⟩ := hkind h
      by_cases hok : ret = .ok
      · subst hok
        refine .inl ⟨rfl, ?_⟩
        intro k
        cases k
        · exact hx
        · exact hy
        · exact hz
      · exact .inr ⟨hok, .error, z, hz⟩
    · rw [if_pos hok₂] at h
      cases h
      exact .inr ⟨hok₂, .write, y, hy⟩
  · rw [if_pos hok₁] at h
    cases h
    exact .inr ⟨hok₁, .read, x, hx⟩

/-- The first kind that fails ends the call, with the change for this kind made. -/
theorem forKinds_fail (h : ∀ k, f k (s k) = some (r k, t k)) (hfail : ∃ k, r k ≠ .ok) :
    ∃ k s', r k ≠ .ok ∧ forKinds f s = some (r k, s') ∧ s' k = t k := by
  rw [forKinds_eq h]
  by_cases hr : r .read = .ok
  · rw [if_neg (not_not_intro hr)]
    by_cases hw : r .write = .ok
    · rw [if_neg (not_not_intro hw)]
      refine ⟨.error, t, ?_, rfl, rfl⟩
      obtain ⟨k, hk⟩ := hfail
      cases k
      · exact absurd hr hk
      · exact absurd hw hk
      · exact hk
    · rw [if_pos hw]
      exact ⟨.write, _, hw, rfl, Function.update_self _ _ _⟩
  · rw [if_pos hr]
    exact ⟨.read, _, hr, rfl, Function.update_self _ _ _⟩

end Kinds

/-! ## The registry and the plugin -/

/-- The invariant: the event has entries `es`, one for each descriptor, and the kinds have
the descriptors `ls` with their flag. -/
structure Inv (guard : Guard KeventSelect) (es : List KeventEvent) (ls : Kind → List ℕ) :
    Prop where
  lists : guard.Lists es
  nodup : (es.map KeventEvent.efd).Nodup
  slots : ∀ k, (guard.priv k).Holds (ls k)
  mem_iff : ∀ k fd, fd ∈ ls k ↔ ∃ flags, Guard.lookup es fd = some flags ∧ has flags k = true

theorem inv_init : Inv init [] fun _ => [] where
  lists := Guard.lists_create cleared
  nodup := List.nodup_nil
  slots := fun _ =>
    { opts := rfl
      fds := Kset.holds_create fdsetOpts
      room := Nat.zero_le _
      bound := fun _ h => by cases h
      nodup := List.nodup_nil
      bits := fun _ => by simp [init, Guard.create, cleared] }
  mem_iff := fun _ _ => by simp [Guard.lookup]

namespace Inv
variable {guard guard' : Guard KeventSelect} {es es' : List KeventEvent} {ls : Kind → List ℕ}
  {fd : ℕ} {flags : Flags}

theorem agree (h : Inv guard es ls) : Agree guard := by
  intro x
  rw [h.lists.entries_eq]
  constructor
  · have hcount := List.nodup_iff_count_le_one.mp h.nodup x
    rw [List.count, List.countP_map] at hcount
    exact hcount
  · intro k
    have hslot := h.slots k
    have hcount := List.nodup_iff_count_le_one.mp hslot.nodup x
    rw [hslot.listed_eq, hslot.bits x]
    refine ⟨hcount, ?_, ?_⟩
    · rw [← List.count_pos_iff]
      omega
    · rw [h.mem_iff]
      simp only [Guard.lookup_eq_some_iff h.nodup]
      constructor
      · rintro ⟨flags, hmem, hhas⟩
        exact ⟨_, hmem, rfl, hhas⟩
      · rintro ⟨e, hmem, rfl, hhas⟩
        exact ⟨e.flags, hmem, hhas⟩

/-- A change of the entry and of the registrations of one descriptor. -/
theorem update (h : Inv guard es ls) {m : Option Flags} (hlists : guard'.Lists es')
    (hnodup : (es'.map KeventEvent.efd).Nodup)
    (hlookup : Guard.lookup es' = Function.update (Guard.lookup es) fd m)
    (hslots : ∀ k, (guard'.priv k).Becomes (ls k) fd
      (∃ flags, m = some flags ∧ has flags k = true)) : ∃ ls', Inv guard' es' ls' := by
  choose ls' hls' hmem using hslots
  refine ⟨ls', hlists, hnodup, hls', ?_⟩
  intro k x
  rw [hmem, hlookup, Function.update_apply]
  by_cases hx : x = fd
  · rw [if_pos hx, if_pos hx]
  · rw [if_neg hx, if_neg hx, h.mem_iff]

/-- What the set of a kind has says whether the descriptor has an entry with the flag. -/
theorem not_mem (h : Inv guard es ls) (hnone : Guard.lookup es fd = none) (k : Kind) :
    fd ∉ ls k := by
  rw [h.mem_iff, hnone]
  rintro ⟨flags, hcon, -⟩
  cases hcon

theorem mem_iff_has (h : Inv guard es ls) {f : Flags} (hsome : Guard.lookup es fd = some f)
    (k : Kind) : fd ∈ ls k ↔ has f k = true := by
  rw [h.mem_iff, hsome]
  simp

theorem room_iff (h : Inv guard es ls) (k : Kind) :
    Room guard k ↔ (ls k).length < fdsetOpts.cap := by
  rw [Room, (h.slots k).listed_eq]

theorem full_of_not_room (h : Inv guard es ls) {k : Kind} (hk : ¬ Room guard k) :
    (ls k).length = fdsetOpts.cap := by
  rw [h.room_iff] at hk
  exact Nat.le_antisymm (h.slots k).room (Nat.not_lt.mp hk)

/-- One kind of `kselect_add` for a new descriptor: it succeeds, or its set is full. -/
theorem add_cases (h : Inv guard es ls) (hfd : fd < fdSetsize)
    (hnone : Guard.lookup es fd = none) (k : Kind) :
    (∃ t, (if has flags k then (guard.priv k).set fd else some (.ok, guard.priv k)) =
      some (.ok, t)) ∨ fd ∉ ls k ∧ (ls k).length = fdsetOpts.cap ∧
      (if has flags k then (guard.priv k).set fd else some (.ok, guard.priv k)) =
        (guard.priv k).set fd := by
  have hnot := h.not_mem hnone k
  cases hhas : has flags k with
  | false => exact .inl ⟨_, rfl⟩
  | true =>
      by_cases hroom : (ls k).length < fdsetOpts.cap
      · obtain ⟨t, ht, -⟩ := (h.slots k).set hfd hnot hroom
        exact .inl ⟨t, ht⟩
      · exact .inr ⟨hnot, Nat.le_antisymm (h.slots k).room (Nat.not_lt.mp hroom), rfl⟩

/-- One kind of `kselect_mod`: it succeeds, or its set is full. -/
theorem mod_cases (h : Inv guard es ls) (hfd : fd < fdSetsize) (k : Kind) :
    (∃ t, (guard.priv k).mod fd flags k = some (.ok, t)) ∨
      fd ∉ ls k ∧ (ls k).length = fdsetOpts.cap ∧
        (guard.priv k).mod fd flags k = (guard.priv k).set fd := by
  by_cases hroom : has flags k = true → fd ∉ ls k → (ls k).length < fdsetOpts.cap
  · obtain ⟨t, ht, -⟩ := (h.slots k).mod_becomes hfd hroom
    exact .inl ⟨t, ht⟩
  · obtain ⟨hhas, hnot, hlen⟩ : has flags k = true ∧ fd ∉ ls k ∧
        ¬ (ls k).length < fdsetOpts.cap := by
      simpa only [Classical.not_imp] using hroom
    exact .inr ⟨hnot, Nat.le_antisymm (h.slots k).room (Nat.not_lt.mp hlen),
      (h.slots k).mod_eq_set hfd hhas hnot⟩

/-- A new descriptor, with room in all sets. -/
theorem add_new (h : Inv guard es ls) (hfd : fd < fdSetsize)
    (hnone : Guard.lookup es fd = none) (hlen : es.length < eventsOpts.cap)
    (hroom : ∀ k, has flags k = true → (ls k).length < fdsetOpts.cap) :
    ∃ guard' ls', guard.add reg fd flags = some (.ok, guard') ∧
      Inv guard' (es ++ [⟨fd, flags⟩]) ls' := by
  obtain ⟨guard₁, hlists, hpriv, hadd⟩ := h.lists.add hlen reg fd flags
  have hslot : ∀ k, ∃ t, (if has flags k then (guard.priv k).set fd else some (.ok, guard.priv k)) =
      some (.ok, t) ∧ t.Becomes (ls k) fd (has flags k = true) := by
    intro k
    have hnot := h.not_mem hnone k
    cases hhas : has flags k with
    | false => exact ⟨_, rfl, (h.slots k).keep (iff_of_false hnot Bool.false_ne_true)⟩
    | true => exact (h.slots k).set_becomes hfd hnot (hroom k hhas) rfl
  choose t ht hbecomes using hslot
  have hcall : guard₁.call reg.add fd flags = some (.ok, { guard₁ with priv := t }) := by
    apply Guard.call_some
    rw [add, hpriv, forKinds_ok ht]
  have hlists' : Guard.Lists { guard₁ with priv := t } _ := hlists.of_events rfl
  obtain ⟨ls', h'⟩ := h.update hlists' (Guard.nodup_append h.nodup hnone flags)
    (Guard.lookup_append hnone flags) (by simpa using hbecomes)
  exact ⟨_, ls', hadd.trans hcall, h'⟩

/-- Deleting an entry. -/
theorem del_equal (h : Inv guard es ls) (hsome : Guard.lookup es fd = some flags) :
    ∃ guard' es' ls', guard.del reg fd flags = some (.ok, guard') ∧ Inv guard' es' ls' := by
  obtain ⟨i, e, hfirst, hflags⟩ := Guard.exists_first hsome
  have hslot : ∀ k, ∃ t, (if has flags k then (guard.priv k).clear fd
      else some (.ok, guard.priv k)) = some (.ok, t) ∧ t.Becomes (ls k) fd False := by
    intro k
    have hmem := h.mem_iff_has hsome k
    cases hhas : has flags k with
    | false =>
        rw [hhas] at hmem
        exact ⟨_, rfl, (h.slots k).keep (iff_of_false (mt hmem.mp Bool.false_ne_true) id)⟩
    | true => exact (h.slots k).clear_becomes (hmem.mpr hhas) id
  choose t ht hbecomes using hslot
  have hcall : guard.call reg.del fd flags = some (.ok, { guard with priv := t }) := by
    apply Guard.call_some
    rw [del, forKinds_ok ht]
  obtain ⟨guard', hdel, hpriv, hlists⟩ := h.lists.del_equal hfirst hflags hcall
  obtain ⟨ls', h'⟩ := h.update hlists (Guard.nodup_eraseP h.nodup fd)
    (Guard.lookup_eraseP h.nodup) (by simpa [hpriv] using hbecomes)
  exact ⟨guard', _, ls', hdel, h'⟩

/-- Changing the flags of an entry, with room where it is needed. -/
theorem del_other (h : Inv guard es ls) (hfd : fd < fdSetsize) {f : Flags}
    (hsome : Guard.lookup es fd = some f) (hne : f ≠ flags)
    (hroom : ∀ k, has flags k = true → has f k = false → (ls k).length < fdsetOpts.cap) :
    ∃ guard' es' ls', guard.del reg fd flags = some (.ok, guard') ∧ Inv guard' es' ls' := by
  obtain ⟨i, e, hfirst, rfl⟩ := Guard.exists_first hsome
  have hslot : ∀ k, ∃ t, (guard.priv k).mod fd flags k = some (.ok, t) ∧
      t.Becomes (ls k) fd (has flags k = true) := by
    intro k
    refine (h.slots k).mod_becomes hfd ?_
    intro hhas hnot
    exact hroom k hhas (Bool.eq_false_iff.mpr (mt (h.mem_iff_has hsome k).mpr hnot))
  choose t ht hbecomes using hslot
  have hcall : guard.call reg.mod fd flags = some (.ok, { guard with priv := t }) := by
    apply Guard.call_some
    rw [mod, forKinds_ok ht]
  obtain ⟨guard', hdel, hpriv, hlists⟩ := h.lists.del_other hfirst hne hcall
  obtain ⟨ls', h'⟩ := h.update hlists (hfirst.nodup_set h.nodup flags)
    (Guard.lookup_set hfirst flags) (by simpa [hpriv] using hbecomes)
  exact ⟨guard', _, ls', hdel, h'⟩

/-- A call that fits. -/
theorem step (h : Inv guard es ls) {c : Guard.Call} (hfd : c.fd < fdSetsize)
    (hfits : Fits guard c) : ∃ r guard' es' ls', guard.step reg c = some (r, guard') ∧
      Inv guard' es' ls' := by
  cases c with
  | add fd flags =>
      rw [Fits, h.lists.entries_eq] at hfits
      by_cases hfull : es.length = eventsOpts.cap
      · exact ⟨.inval, guard, es, ls, h.lists.add_full hfull, h⟩
      · obtain ⟨hnew, hroom⟩ := hfits.resolve_left hfull
        obtain ⟨guard', ls', hadd, h'⟩ := h.add_new hfd
          (Guard.lookup_eq_none_iff.mpr hnew) (Nat.lt_of_le_of_ne h.lists.room hfull)
          (fun k hk => (h.room_iff k).mp (hroom k hk))
        exact ⟨.ok, guard', _, ls', hadd, h'⟩
  | del fd flags =>
      rw [Fits, h.lists.entries_eq] at hfits
      cases hlookup : Guard.lookup es fd with
      | none =>
          exact ⟨.noent, guard, es, ls, h.lists.del_none (Guard.lookup_eq_none_iff.mp hlookup), h⟩
      | some f =>
          by_cases hf : f = flags
          · rw [hf] at hlookup
            obtain ⟨guard', es', ls', hdel, h'⟩ := h.del_equal hlookup
            exact ⟨.ok, guard', es', ls', hdel, h'⟩
          · have hmem := (Guard.lookup_eq_some_iff h.nodup).mp hlookup
            have hroom := (hfits _ hmem rfl).resolve_left hf
            obtain ⟨guard', es', ls', hdel, h'⟩ := h.del_other hfd hlookup hf
              (fun k hk hk' => (h.room_iff k).mp (hroom k hk hk'))
            exact ⟨.ok, guard', es', ls', hdel, h'⟩

/-- A call on all kinds that fails leaves a bit without a descriptor. -/
theorem not_agree_of_fail (h : Inv guard es ls) (hfd : fd < fdSetsize)
    {f : Kind → Slot → Option (Kerr × Slot)}
    (hf : ∀ k, (∃ t, f k (guard.priv k) = some (.ok, t)) ∨
      fd ∉ ls k ∧ (ls k).length = fdsetOpts.cap ∧ f k (guard.priv k) = (guard.priv k).set fd)
    (hfail : ∃ k, fd ∉ ls k ∧ (ls k).length = fdsetOpts.cap ∧
      f k (guard.priv k) = (guard.priv k).set fd) :
    ∃ r s', r ≠ .ok ∧ forKinds f guard.priv = some (r, s') ∧
      ∀ events, ¬ Agree { events := events, priv := s' } := by
  have hslot : ∀ k, ∃ ret t, f k (guard.priv k) = some (ret, t) ∧
      (ret ≠ .ok → t.bits fd = true ∧ fd ∉ t.listed) := by
    intro k
    rcases hf k with ⟨t, ht⟩ | ⟨hnot, hfull, heq⟩
    · exact ⟨.ok, t, ht, fun hne => absurd rfl hne⟩
    · refine ⟨.inval, _, heq.trans ((h.slots k).stores.set_full hfd hfull), ?_⟩
      intro _
      refine ⟨Function.update_self _ _ _, ?_⟩
      have hlisted : (guard.priv k).listed = ls k := (h.slots k).listed_eq
      rw [← hlisted] at hnot
      exact hnot
  choose r t ht hbad using hslot
  have hne : ∃ k, r k ≠ .ok := by
    obtain ⟨k, -, hfull, heq⟩ := hfail
    have hr := (ht k).symm.trans (heq.trans ((h.slots k).stores.set_full hfd hfull))
    refine ⟨k, ?_⟩
    rw [(Prod.mk.inj (Option.some.inj hr)).1]
    exact fun hcon => by cases hcon
  obtain ⟨k, s', hk, hrun, hs'⟩ := forKinds_fail ht hne
  refine ⟨r k, s', hk, hrun, ?_⟩
  intro events hagree
  obtain ⟨hbit, hnot⟩ := hbad k hk
  rw [← hs'] at hbit hnot
  have hcount := ((hagree fd).2 k).2.1.mp hbit
  rw [List.count_eq_zero.mpr hnot] at hcount
  cases hcount

/-- A new descriptor for which a set has no room. -/
theorem not_agree_add_full (h : Inv guard es ls) (hfd : fd < fdSetsize)
    (hlen : es.length < eventsOpts.cap) (hnone : Guard.lookup es fd = none)
    (hfull : ∃ k, has flags k = true ∧ ¬ Room guard k) {r : Kerr}
    (hstep : guard.add reg fd flags = some (r, guard')) : ¬ Agree guard' := by
  obtain ⟨k, hk, hroom⟩ := hfull
  obtain ⟨guard₁, hlists, hpriv, hadd⟩ := h.lists.add hlen reg fd flags
  obtain ⟨r', s', -, hrun, hbad⟩ := h.not_agree_of_fail hfd
    (f := fun k s => if has flags k then s.set fd else some (.ok, s))
    (fun k => h.add_cases hfd hnone k)
    ⟨k, h.not_mem hnone k, h.full_of_not_room hroom, if_pos hk⟩
  have hcall : guard₁.call reg.add fd flags = some (r', { guard₁ with priv := s' }) := by
    apply Guard.call_some
    rw [add, hpriv, hrun]
  rw [hadd, hcall] at hstep
  obtain ⟨-, rfl⟩ := Prod.mk.inj (Option.some.inj hstep)
  exact hbad _

/-- A descriptor that is added again has two entries. -/
theorem not_agree_add_again (h : Inv guard es ls) (hlen : es.length < eventsOpts.cap)
    (hold : ∃ e ∈ es, e.efd = fd) {r : Kerr}
    (hstep : guard.add reg fd flags = some (r, guard')) : ¬ Agree guard' := by
  intro hagree
  obtain ⟨guard₁, hlists, -, hadd⟩ := h.lists.add hlen reg fd flags
  rw [hadd] at hstep
  have hlists' := hlists.of_events (Guard.events_of_call hstep)
  have hcount := (hagree fd).1
  rw [hlists'.entries_eq, List.countP_append, List.countP_singleton] at hcount
  have hpos : 0 < es.countP (fun e => e.efd = fd) := by
    rw [List.countP_pos_iff]
    simpa using hold
  simp only [decide_true, if_true] at hcount
  omega

/-- An entry whose new flags need a set that has no room. -/
theorem not_agree_del_full (h : Inv guard es ls) {e : KeventEvent} (hfd : e.efd < fdSetsize)
    (he : e ∈ es) (hflags : e.flags ≠ flags)
    (hfull : ∃ k, has flags k = true ∧ has e.flags k = false ∧ ¬ Room guard k) {r : Kerr}
    (hstep : guard.del reg e.efd flags = some (r, guard')) : ¬ Agree guard' := by
  obtain ⟨k, hk, hk', hroom⟩ := hfull
  have hlookup : Guard.lookup es e.efd = some e.flags :=
    (Guard.lookup_eq_some_iff h.nodup).mpr he
  have hnot : e.efd ∉ ls k := by
    rw [h.mem_iff_has hlookup, hk']
    exact Bool.false_ne_true
  obtain ⟨r', s', hr', hrun, hbad⟩ := h.not_agree_of_fail hfd
    (f := fun k s => s.mod e.efd flags k) (fun k => h.mod_cases hfd k)
    ⟨k, hnot, h.full_of_not_room hroom, (h.slots k).mod_eq_set hfd hk hnot⟩
  obtain ⟨i, e', hfirst, he'⟩ := Guard.exists_first hlookup
  have hcall : guard.call reg.mod e.efd flags = some (r', { guard with priv := s' }) := by
    apply Guard.call_some
    rw [mod, hrun]
  rw [h.lists.del_fail hfirst (if_neg (he' ▸ hflags)) hr' hcall] at hstep
  obtain ⟨-, rfl⟩ := Prod.mk.inj (Option.some.inj hstep)
  exact hbad _

/-- A call that does not fit breaks the agreement. -/
theorem fits_of_agree (h : Inv guard es ls) {c : Guard.Call} (hfd : c.fd < fdSetsize) {r : Kerr}
    (hstep : guard.step reg c = some (r, guard')) (hagree : Agree guard') : Fits guard c := by
  by_contra hfits
  cases c with
  | add fd flags =>
      rw [Fits, h.lists.entries_eq] at hfits
      push Not at hfits
      obtain ⟨hfull, hfits⟩ := hfits
      have hlen := Nat.lt_of_le_of_ne h.lists.room hfull
      by_cases hnew : ∀ e ∈ es, e.efd ≠ fd
      · exact h.not_agree_add_full hfd hlen (Guard.lookup_eq_none_iff.mpr hnew) (hfits hnew)
          hstep hagree
      · push Not at hnew
        exact h.not_agree_add_again hlen hnew hstep hagree
  | del fd flags =>
      rw [Fits, h.lists.entries_eq] at hfits
      push Not at hfits
      obtain ⟨e, he, rfl, hflags, hfull⟩ := hfits
      exact h.not_agree_del_full hfd he hflags hfull hstep hagree

end Inv

/-- **Which calls keep the agreement**: those that fit. -/
theorem step_agree_iff {guard : Guard KeventSelect} {es : List KeventEvent} {ls : Kind → List ℕ}
    (h : Inv guard es ls) {c : Guard.Call} (hfd : c.fd < fdSetsize) :
    (∃ r guard', guard.step reg c = some (r, guard') ∧ Agree guard') ↔ Fits guard c := by
  constructor
  · rintro ⟨r, guard', hstep, hagree⟩
    exact h.fits_of_agree hfd hstep hagree
  · intro hfits
    obtain ⟨r, guard', es', ls', hstep, h'⟩ := h.step hfd hfits
    exact ⟨r, guard', hstep, h'.agree⟩

/-- **Bits, sets and entries agree** in every run of calls that fit.  And this is exact:
from every state of such a run, a call keeps the agreement if and only if it fits. -/
theorem run_agree {tr : List (Step (Guard KeventSelect) Guard.Call Kerr)}
    {guard : Guard KeventSelect}
    (hrun : Run (Guard.step reg) (fun guard c => c.fd < fdSetsize ∧ Fits guard c) init tr guard) :
    Agree guard ∧ ∀ c : Guard.Call, c.fd < fdSetsize →
      ((∃ r guard', guard.step reg c = some (r, guard') ∧ Agree guard') ↔ Fits guard c) := by
  have hinv : ∃ es ls, Inv guard es ls := by
    refine hrun.invariant (I := fun guard => ∃ es ls, Inv guard es ls) ⟨_, _, inv_init⟩ ?_
    rintro guard c r guard' ⟨es, ls, h⟩ ⟨hfd, hfits⟩ hstep
    obtain ⟨r', guard'', es', ls', hstep', h'⟩ := h.step hfd hfits
    rw [hstep] at hstep'
    obtain ⟨-, rfl⟩ := Prod.mk.inj (Option.some.inj hstep')
    exact ⟨es', ls', h'⟩
  obtain ⟨es, ls, h⟩ := hinv
  exact ⟨h.agree, fun c hfd => step_agree_iff h hfd⟩

/-! ## Creation -/

/-- Which allocations succeed: those of the event, its set of entries, the record of the plugin, the
sets of descriptors, and the node in the list of events. -/
structure Memory where
  guard : Bool
  events : Bool
  priv : Bool
  fdSet : Kind → Bool
  node : Bool

/-- `FD_ZERO` through a pointer, which must not be null. -/
def fdZero (p : Option (ℕ → Bool)) : Option (ℕ → Bool) := p.map fun _ _ => false

/-- `kselect_create`; a fault is `none`, and `some none` a null pointer.  The record is filled with
zeros and nothing stores to the pointers to its bit sets. -/
def kselectCreate (mem : Memory) : Option (Option KeventSelect) :=
  if !mem.priv then some none
  else if !(mem.fdSet .read && mem.fdSet .write && mem.fdSet .error) then some none
  else do
    let rdsets ← fdZero none
    let wtsets ← fdZero none
    let exsets ← fdZero none
    some (some fun
      | .read => ⟨rdsets, .create fdsetOpts⟩
      | .write => ⟨wtsets, .create fdsetOpts⟩
      | .error => ⟨exsets, .create fdsetOpts⟩)

/-- `kylin_event_create` for `KEVENT_TYPE_SELECT`. -/
def kylinEventCreate (mem : Memory) : Option (Option (Guard KeventSelect)) :=
  if !mem.guard then some none
  else if !mem.events then some none
  else do
    match ← kselectCreate mem with
    | none => some none
    | some priv => some (if mem.node then some (.create priv) else none)

/-- An allocation of `kselect_create` fails, -/
def Memory.LacksSets (mem : Memory) : Prop := mem.priv = false ∨ ∃ k, mem.fdSet k = false

/-- or one that `kylin_event_create` makes before. -/
def Memory.Lacks (mem : Memory) : Prop :=
  mem.guard = false ∨ mem.events = false ∨ mem.LacksSets

/-- `kselect_create` returns for lack of memory only, and then no event. -/
theorem kselectCreate_cases (mem : Memory) :
    kselectCreate mem = some none ∧ mem.LacksSets ∨ kselectCreate mem = none ∧ ¬ mem.LacksSets := by
  have hkinds : (∃ k, mem.fdSet k = false) ↔
      (mem.fdSet .read && mem.fdSet .write && mem.fdSet .error) = false := by
    simp only [Bool.and_eq_false_iff]
    constructor
    · rintro ⟨k, hk⟩
      cases k
      · exact .inl (.inl hk)
      · exact .inl (.inr hk)
      · exact .inr hk
    · rintro ((h | h) | h)
      · exact ⟨_, h⟩
      · exact ⟨_, h⟩
      · exact ⟨_, h⟩
  rw [Memory.LacksSets, hkinds, kselectCreate]
  cases mem.priv <;>
    cases (mem.fdSet .read && mem.fdSet .write && mem.fdSet .error) <;> simp [fdZero]

theorem kylinEventCreate_cases (mem : Memory) :
    kylinEventCreate mem = some none ∧ mem.Lacks ∨ kylinEventCreate mem = none ∧ ¬ mem.Lacks := by
  rw [kylinEventCreate, Memory.Lacks]
  cases mem.guard with
  | false => exact .inl ⟨rfl, .inl rfl⟩
  | true =>
      cases mem.events with
      | false => exact .inl ⟨rfl, .inr (.inl rfl)⟩
      | true =>
          obtain ⟨hcreate, hlacks⟩ | ⟨hcreate, hlacks⟩ := kselectCreate_cases mem
          · exact .inl ⟨by rw [hcreate]; rfl, .inr (.inr hlacks)⟩
          · exact .inr ⟨by rw [hcreate]; rfl, by simpa using hlacks⟩

/-- **What creating and using an event should do**: `kylin_event_create` returns, and when it
returns an event, then bits, sets and entries agree after any calls. -/
def Agrees (mem : Memory) : Prop :=
  ∃ r, kylinEventCreate mem = some r ∧ ∀ guard, r = some guard →
    ∀ (tr : List (Step (Guard KeventSelect) Guard.Call Kerr)) (guard' : Guard KeventSelect),
      Run (Guard.step reg) (fun _ c => c.fd < fdSetsize) guard tr guard' → Agree guard'

/-- **When this is so**: exactly when there is no memory for an event. -/
theorem agrees_iff (mem : Memory) : Agrees mem ↔ mem.Lacks := by
  obtain ⟨hnone, hlacks⟩ | ⟨hfault, hlacks⟩ := kylinEventCreate_cases mem
  · exact iff_of_true ⟨none, hnone, nofun⟩ hlacks
  · refine iff_of_false ?_ hlacks
    rintro ⟨r, hr, -⟩
    rw [hfault] at hr
    cases hr

/-- With memory for all of it, `kselect_create` stores through a null pointer. -/
theorem not_agrees_memory : ¬ Agrees ⟨true, true, true, fun _ => true, true⟩ := by
  rintro ⟨r, hr, -⟩
  cases hr

end Kylin.Kselect
