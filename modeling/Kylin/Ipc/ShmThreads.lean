import Kylin.Ipc.Shm

/-!
# The registry of shared memory, used by several processes

`object_find`, `object_insert` and `object_delete` run under the lock of the table, one
at a time.  But a call of the interface is more than one of them: `kylin_shm_create`
looks for the name and then inserts it, and `kylin_shm_open` and `kylin_shm_destroy` keep
a pointer into the table between the search and the count.  This module runs any number
of callers through these steps in any order.

Two creations of one name may both miss it and both insert it, and a deletion moves the
objects behind it under the pointers of other callers.  And the search compares
`KYLIN_NAME_LENGTH` bytes of the caller's own memory, of which only the string at their
start is what is stored: a name with other bytes behind its zero is not found.  `Apart`
excludes these three steps, and `run_counts_asked` shows that nothing else goes wrong.

## Main definitions

* `NamePtr` — a name as the callers pass it.
* `Pc`, `System`, `System.advance` — callers, the shared table and one atomic step.
* `System.CountRight` — a count goes to the object that was asked for.
* `System.Apart` — the side condition on one step.

## Main results

* `run_counts_asked` — along runs of such steps names are distinct and every count goes
  where it should.
-/

namespace Kylin.Kshm

open Lib

/-- The bytes of a name that are compared and copied. -/
def key (name : List Char) : List Char := (pad name).take nameLength

/-- A `const char *name`: the bytes from there on, which hold a string and are as many as the
search compares. -/
structure NamePtr where
  bytes : List Char
  long : nameLength ≤ bytes.length
  ended : nul ∈ bytes

namespace NamePtr

/-- The string. -/
def string (name : NamePtr) : List Char := str name.bytes

/-- The bytes that `memcmp` looks at. -/
def block (name : NamePtr) : List Char := name.bytes.take nameLength

theorem le_length_pad (s : List Char) : nameLength ≤ (pad s ++ [nul]).length := by
  simp only [pad, List.length_append, List.length_replicate]
  omega

/-- A string in a buffer that is filled up with zeros. -/
def padded (s : List Char) : NamePtr where
  bytes := pad s ++ [nul]
  long := le_length_pad s
  ended := List.mem_append_right _ (List.mem_singleton_self nul)

end NamePtr

theorem nul_notMem_str (buf : List Char) : nul ∉ str buf := by
  intro h
  have hne := List.all_eq_true.mp List.all_takeWhile nul h
  simp at hne

/-- **What a search finds is the name asked for**, since what is stored is filled up with zeros. -/
theorem NamePtr.key_string {name : NamePtr} {n : List Char} (hn : nul ∉ n)
    (h : name.block = key n) : key name.string = name.block := by
  have hne : ∀ c ∈ n, (decide (c ≠ nul)) = true := by
    intro c hc
    rw [decide_eq_true_eq]
    rintro rfl
    exact hn hc
  obtain ⟨rest, hbytes⟩ : ∃ rest, name.bytes = key n ++ rest := by
    refine ⟨name.bytes.drop nameLength, ?_⟩
    rw [← h, block, List.take_append_drop]
  by_cases hlen : n.length < nameLength
  · have hkey : key n = n ++ nul :: List.replicate (nameLength - n.length - 1) nul := by
      rw [key, List.take_of_length_le (by simp [pad]; omega), pad, ← List.replicate_succ]
      congr 2
      omega
    have hstring : name.string = n := by
      rw [string, hbytes, hkey, List.append_assoc, str, List.takeWhile_append_of_pos hne,
        List.cons_append, List.takeWhile_cons_of_neg (by simp), List.append_nil]
    rw [hstring, h]
  · have hkey : key n = n.take nameLength := by
      rw [key, pad, Nat.sub_eq_zero_of_le (not_lt.mp hlen), List.replicate_zero, List.append_nil]
    have hstring : name.string = n.take nameLength ++ str rest := by
      rw [string, hbytes, hkey, str, List.takeWhile_append_of_pos]
      · rfl
      · exact fun c hc => hne c (List.mem_of_mem_take hc)
    have hlong : (n.take nameLength).length = nameLength := by
      rw [List.length_take]
      omega
    rw [h, hkey, key, hstring, pad, Nat.sub_eq_zero_of_le (by simp; omega), List.replicate_zero,
      List.append_nil, List.take_append_of_le_length (by omega), List.take_of_length_le (by omega)]

/-- Where a caller stands. -/
inductive Pc
  | idle
  /-- `kylin_shm_create`, about to search. -/
  | createFind (name : NamePtr) (cap : ℕ)
  /-- `kylin_shm_create`, about to insert. -/
  | createInsert (name : NamePtr) (cap : ℕ)
  /-- `kylin_shm_open`, about to search. -/
  | openFind (name : NamePtr)
  /-- `kylin_shm_open`, about to count at the slot `i`. -/
  | openCount (name : NamePtr) (i : ℕ)
  /-- `kylin_shm_destroy`, about to search. -/
  | destroyFind (name : NamePtr)
  /-- `kylin_shm_destroy`, about to count at the slot `i`. -/
  | destroyCount (name : NamePtr) (i : ℕ)
  /-- `kylin_shm_destroy`, about to delete what is in the slot `i`. -/
  | destroyDelete (name : NamePtr) (i : ℕ)

/-- The pointer a caller holds, and the name it was asked for. -/
def Pc.pointer : Pc → Option (NamePtr × ℕ)
  | .openCount name i | .destroyCount name i | .destroyDelete name i => some (name, i)
  | _ => none

/-- The name a caller has missed and is about to insert. -/
def Pc.creating : Pc → Option NamePtr
  | .createInsert name _ => some name
  | _ => none

/-- What the scheduler can do with a caller; `fail` is a system call that fails in
`kylin_shm_open`. -/
inductive Act
  | create (name : NamePtr) (cap : ℕ)
  | openShm (name : NamePtr)
  | destroy (name : NamePtr)
  | step
  | fail

/-- A change of `refcnt` by a caller that asked for a name. -/
structure Count where
  asked : List Char
  slot : ℕ

/-- The shared table and the callers. -/
structure System (ι : Type) where
  ov : Overview
  pc : ι → Pc

namespace System
variable {ι : Type} [DecidableEq ι]

/-- An empty table and idle callers. -/
def init : System ι := ⟨.init, fun _ => .idle⟩

/-- Move a caller. -/
def goto (s : System ι) (t : ι) (pc : Pc) : System ι := { s with pc := Function.update s.pc t pc }

/-- The next atomic step of a caller. -/
def advanceFrom (s : System ι) (t : ι) : Pc → Option (Option Count × System ι)
  | .idle => none
  | .createFind name cap =>
      match s.ov.find name.block with
      | some _ => some (none, s.goto t .idle)
      | none => some (none, s.goto t (.createInsert name cap))
  | .createInsert name cap =>
      some (none, { s.goto t .idle with ov := (s.ov.insert ⟨key name.string, cap, 0⟩).2 })
  | .openFind name =>
      match s.ov.find name.block with
      | none => some (none, s.goto t .idle)
      | some i => some (none, s.goto t (.openCount name i))
  | .openCount name i =>
      some (some ⟨name.string, i⟩, { s.goto t .idle with ov := s.ov.modify i Overview.inc })
  | .destroyFind name =>
      match s.ov.find name.block with
      | none => some (none, s.goto t .idle)
      | some i => some (none, s.goto t (.destroyCount name i))
  | .destroyCount name i =>
      let ov := s.ov.modify i Overview.dec
      let pc := if (ov.obj i).refcnt = 0 then .destroyDelete name i else .idle
      some (some ⟨name.string, i⟩, { s.goto t pc with ov := ov })
  | .destroyDelete _ i =>
      some (none, { s.goto t .idle with ov := (s.ov.delete (s.ov.obj i).name).2 })

/-- One step of the system. -/
def advance (s : System ι) : ι × Act → Option (Option Count × System ι)
  | (t, .create name cap) =>
      match s.pc t with
      | .idle =>
          some (none, s.goto t (if nameLength < name.string.length then .idle
            else .createFind name cap))
      | _ => none
  | (t, .openShm name) =>
      match s.pc t with
      | .idle =>
          some (none, s.goto t (if nameLength < name.string.length then .idle
            else .openFind name))
      | _ => none
  | (t, .destroy name) =>
      match s.pc t with
      | .idle => some (none, s.goto t (.destroyFind name))
      | _ => none
  | (t, .step) => s.advanceFrom t (s.pc t)
  | (t, .fail) =>
      match s.pc t with
      | .openCount _ _ => some (none, s.goto t .idle)
      | _ => none

/-- **A count goes where it should**: to a registered object with the name that the
caller asked for. -/
def CountRight (e : Step (System ι) (ι × Act) (Option Count)) : Prop :=
  ∀ c, e.result = some c →
    c.slot < e.before.ov.count ∧ (e.before.ov.obj c.slot).name = key c.asked

/-- A caller that is to create a name that is registered has it filled up with zeros; it inserts
a name only while no other caller has missed it too, and deletes the object in a slot only while
no other caller has a pointer to that slot or one behind it. -/
def Apart (s : System ι) : ι × Act → Prop
  | (t, .step) =>
      match s.pc t with
      | .createFind name _ =>
          s.ov.Registered (key name.string) → name.block = key name.string
      | .createInsert name _ => ∀ u, u ≠ t → ∀ other, (s.pc u).creating = some other →
          key other.string ≠ key name.string
      | .destroyDelete _ i => ∀ u, u ≠ t → ∀ name j, (s.pc u).pointer = some (name, j) → j < i
      | _ => True
  | _ => True

/-- The names of the table are strings filled up with zeros. -/
def Filled (ov : Overview) : Prop := ∀ name, ov.Registered name → ∃ n, nul ∉ n ∧ name = key n

/-- The invariant: names are distinct and filled up with zeros, pointers point to what was asked
for, and what is about to be inserted is not there. -/
structure Inv (s : System ι) : Prop where
  distinct : s.ov.Distinct
  filled : Filled s.ov
  pointer : ∀ t name i, (s.pc t).pointer = some (name, i) →
    i < s.ov.count ∧ (s.ov.obj i).name = key name.string
  creating : ∀ t name, (s.pc t).creating = some name → ¬ s.ov.Registered (key name.string)

omit [DecidableEq ι] in
theorem inv_init : Inv (init : System ι) where
  distinct := fun i _ hi => absurd hi (Nat.not_lt_zero i)
  filled := fun _ ⟨i, hi, _⟩ => absurd hi (Nat.not_lt_zero i)
  pointer := fun _ _ _ h => by cases h
  creating := fun _ _ h => by cases h

namespace Inv
variable {s : System ι} {t : ι} {name : NamePtr} {i : ℕ}

/-- A caller moves and the table changes, such that what the others rely on stays. -/
theorem move (t : ι) {pc : Pc} {ov : Overview} (hd : ov.Distinct) (hf : Filled ov)
    (hp : ∀ u, u ≠ t → ∀ name i, (s.pc u).pointer = some (name, i) →
      i < ov.count ∧ (ov.obj i).name = key name.string)
    (hc : ∀ u, u ≠ t → ∀ name, (s.pc u).creating = some name →
      ¬ ov.Registered (key name.string))
    (hp' : ∀ name i, pc.pointer = some (name, i) →
      i < ov.count ∧ (ov.obj i).name = key name.string)
    (hc' : ∀ name, pc.creating = some name → ¬ ov.Registered (key name.string)) :
    Inv { s.goto t pc with ov := ov } := by
  have hpc : ∀ u, (s.goto t pc).pc u = if u = t then pc else s.pc u := by
    intro u
    by_cases hu : u = t
    · rw [hu, if_pos rfl]
      exact Function.update_self _ _ _
    · rw [if_neg hu]
      exact Function.update_of_ne hu _ _
  refine ⟨hd, hf, ?_, ?_⟩
  · intro u name i hu
    change ((s.goto t pc).pc u).pointer = _ at hu
    rw [hpc] at hu
    split at hu
    · exact hp' name i hu
    · next hne => exact hp u hne name i hu
  · intro u name hu
    change ((s.goto t pc).pc u).creating = _ at hu
    rw [hpc] at hu
    split at hu
    · exact hc' name hu
    · next hne => exact hc u hne name hu

/-- A caller moves to where it has neither a pointer nor a name to insert. -/
theorem leave (h : Inv s) (t : ι) {pc : Pc} (hp : pc.pointer = none) (hc : pc.creating = none) :
    Inv (s.goto t pc) := by
  refine move t h.distinct h.filled (fun u _ => h.pointer u) (fun u _ => h.creating u) ?_ ?_
  · intro name i hpc
    rw [hp] at hpc
    cases hpc
  · intro name hpc
    rw [hc] at hpc
    cases hpc

/-- A caller has found what it was asked for. -/
theorem found (h : Inv s) (t : ι) {pc : Pc} (hfind : s.ov.find name.block = some i)
    (hp : pc.pointer = some (name, i)) (hc : pc.creating = none) : Inv (s.goto t pc) := by
  refine move t h.distinct h.filled (fun u _ => h.pointer u) (fun u _ => h.creating u) ?_ ?_
  · intro name' i' hpc
    rw [hp] at hpc
    obtain ⟨rfl, rfl⟩ := Prod.mk.inj (Option.some.inj hpc)
    obtain ⟨hi, hname⟩ := Overview.of_find_eq_some hfind
    obtain ⟨n, hn, hkey⟩ := h.filled name.block ⟨i, hi, hname⟩
    exact ⟨hi, hname.trans (NamePtr.key_string hn hkey).symm⟩
  · intro name hpc
    rw [hc] at hpc
    cases hpc

/-- A caller has not found the name it is to insert. -/
theorem missed (h : Inv s) (t : ι) {pc : Pc} (hfind : s.ov.find name.block = none)
    (hblock : s.ov.Registered (key name.string) → name.block = key name.string)
    (hp : pc.pointer = none) (hc : pc.creating = some name) : Inv (s.goto t pc) := by
  refine move t h.distinct h.filled (fun u _ => h.pointer u) (fun u _ => h.creating u) ?_ ?_
  · intro name i hpc
    rw [hp] at hpc
    cases hpc
  · intro name' hpc
    rw [hc] at hpc
    obtain rfl := Option.some.inj hpc
    intro hreg
    rw [hblock hreg, Overview.find_eq_none_iff] at hfind
    exact hfind hreg

omit [DecidableEq ι] in
/-- A count through a pointer. -/
theorem countRight (h : Inv s) (hp : (s.pc t).pointer = some (name, i)) (a : ι × Act)
    (s' : System ι) : CountRight ⟨s, a, some ⟨name.string, i⟩, s'⟩ := by
  intro c hc
  obtain rfl := Option.some.inj hc
  exact h.pointer t name i hp

omit [DecidableEq ι] in
/-- A step that counts nothing. -/
theorem uncounted {s₁ s' : System ι} (h : Inv s₁) {r : Option Count} (a : ι × Act)
    (heq : some (none, s₁) = some (r, s')) : Inv s' ∧ CountRight ⟨s, a, r, s'⟩ := by
  obtain ⟨rfl, rfl⟩ := Prod.mk.inj (Option.some.inj heq)
  exact ⟨h, fun _ hc => by cases hc⟩

/-- A caller counts. -/
theorem count (h : Inv s) (f : ℕ → ℕ) (hp : (s.pc t).pointer = some (name, i)) {pc : Pc}
    (hpc : pc.pointer = none ∨ pc.pointer = some (name, i)) (hc : pc.creating = none) :
    Inv { s.goto t pc with ov := s.ov.modify i f } := by
  refine move t ((Overview.distinct_modify f).mpr h.distinct) ?_ ?_ ?_ ?_ ?_
  · exact fun name hname => h.filled name ((Overview.registered_modify f).mp hname)
  · intro u _ name j hu
    rw [Overview.count_modify, Overview.name_modify]
    exact h.pointer u name j hu
  · intro u _ name hu
    rw [Overview.registered_modify]
    exact h.creating u name hu
  · intro name' j hj
    rw [Overview.count_modify, Overview.name_modify]
    rcases hpc with hnone | hsome
    · rw [hnone] at hj
      cases hj
    · rw [hsome, ← hp] at hj
      exact h.pointer t name' j hj
  · intro name hname
    rw [hc] at hname
    cases hname

/-- A caller inserts a name that no other caller is about to insert. -/
theorem insert (h : Inv s) {o : Obj} (ho : o.name = key name.string)
    (hp : (s.pc t).creating = some name)
    (hapart : ∀ u, u ≠ t → ∀ other, (s.pc u).creating = some other →
      key other.string ≠ key name.string) :
    Inv { s.goto t .idle with ov := (s.ov.insert o).2 } := by
  have hnot : ¬ s.ov.Registered o.name := by
    rw [ho]
    exact h.creating t name hp
  by_cases hfull : objMax - 1 < s.ov.count
  · rw [Overview.insert, if_pos hfull]
    exact h.leave t rfl rfl
  have hins := Overview.insert_ok o hfull
  rw [hins]
  refine move t (Overview.distinct_insert h.distinct hnot hins) ?_ ?_ ?_ ?_ ?_
  · intro name' hname'
    rw [Overview.registered_insert hins] at hname'
    obtain rfl | hreg := hname'
    · exact ⟨name.string, nul_notMem_str _, ho⟩
    · exact h.filled name' hreg
  · intro u _ name j hu
    obtain ⟨hj, hname⟩ := h.pointer u name j hu
    refine ⟨Nat.lt_succ_of_lt hj, ?_⟩
    simp only [Function.update_of_ne (Nat.ne_of_lt hj)]
    exact hname
  · intro u hne other hu
    rw [Overview.registered_insert hins, ho]
    rintro (heq | hreg)
    · exact hapart u hne other hu heq.symm
    · exact h.creating u other hu hreg
  · intro name i hpc
    cases hpc
  · intro name hpc
    cases hpc

/-- A caller deletes the object it points to, and no other caller points to that slot or
one behind it. -/
theorem delete (h : Inv s) (hp : (s.pc t).pointer = some (name, i))
    (hapart : ∀ u, u ≠ t → ∀ name j, (s.pc u).pointer = some (name, j) → j < i) :
    Inv { s.goto t .idle with ov := (s.ov.delete (s.ov.obj i).name).2 } := by
  obtain ⟨hi, -⟩ := h.pointer t name i hp
  have hfind : s.ov.find (s.ov.obj i).name = some i := Overview.find_name h.distinct hi
  refine move t (Overview.distinct_delete h.distinct hfind) ?_ ?_ ?_ ?_ ?_
  · intro name' hname'
    rw [Overview.registered_delete h.distinct hfind] at hname'
    exact h.filled name' hname'.2
  · intro u hne name j hu
    have hji := hapart u hne name j hu
    obtain ⟨-, hname⟩ := h.pointer u name j hu
    simp only [Overview.delete, hfind]
    refine ⟨by omega, ?_⟩
    rw [if_neg (by omega)]
    exact hname
  · intro u _ other hu
    rw [Overview.registered_delete h.distinct hfind]
    exact fun hreg => h.creating u other hu hreg.2
  · intro name i hpc
    cases hpc
  · intro name hpc
    cases hpc

/-- The next atomic step of a caller. -/
theorem advanceFrom (h : Inv s) {r : Option Count} {s' : System ι} (hok : s.Apart (t, .step))
    (hstep : s.advanceFrom t (s.pc t) = some (r, s')) :
    Inv s' ∧ CountRight ⟨s, (t, .step), r, s'⟩ := by
  rw [Apart] at hok
  cases hpc : s.pc t with
  | idle =>
      rw [hpc] at hstep
      cases hstep
  | createFind name cap =>
      simp only [hpc, System.advanceFrom] at hstep
      cases hfind : s.ov.find name.block with
      | some i =>
          rw [hfind] at hstep
          exact (h.leave t rfl rfl).uncounted _ hstep
      | none =>
          rw [hfind] at hstep
          rw [hpc] at hok
          exact (h.missed t hfind hok rfl rfl).uncounted _ hstep
  | createInsert name cap =>
      rw [hpc] at hok hstep
      exact (h.insert rfl (by rw [hpc]; rfl) hok).uncounted _ hstep
  | openFind name =>
      simp only [hpc, System.advanceFrom] at hstep
      cases hfind : s.ov.find name.block with
      | none =>
          rw [hfind] at hstep
          exact (h.leave t rfl rfl).uncounted _ hstep
      | some i =>
          rw [hfind] at hstep
          exact (h.found t hfind rfl rfl).uncounted _ hstep
  | openCount name i =>
      have hp : (s.pc t).pointer = some (name, i) := by
        rw [hpc]
        rfl
      rw [hpc] at hstep
      obtain ⟨rfl, rfl⟩ := Prod.mk.inj (Option.some.inj hstep)
      exact ⟨h.count Overview.inc hp (.inl rfl) rfl, h.countRight hp _ _⟩
  | destroyFind name =>
      simp only [hpc, System.advanceFrom] at hstep
      cases hfind : s.ov.find name.block with
      | none =>
          rw [hfind] at hstep
          exact (h.leave t rfl rfl).uncounted _ hstep
      | some i =>
          rw [hfind] at hstep
          exact (h.found t hfind rfl rfl).uncounted _ hstep
  | destroyCount name i =>
      have hp : (s.pc t).pointer = some (name, i) := by
        rw [hpc]
        rfl
      rw [hpc] at hstep
      obtain ⟨rfl, rfl⟩ := Prod.mk.inj (Option.some.inj hstep)
      refine ⟨h.count Overview.dec hp ?_ ?_, h.countRight hp _ _⟩
      · split
        · exact .inr rfl
        · exact .inl rfl
      · split <;> rfl
  | destroyDelete name i =>
      rw [hpc] at hok hstep
      exact (h.delete (by rw [hpc]; rfl) hok).uncounted _ hstep

/-- One step of the system. -/
theorem advance (h : Inv s) {a : ι × Act} {r : Option Count} {s' : System ι} (hok : s.Apart a)
    (hstep : s.advance a = some (r, s')) : Inv s' ∧ CountRight ⟨s, a, r, s'⟩ := by
  obtain ⟨t, act⟩ := a
  -- all but `step` count nothing and leave the caller without a pointer
  have hmove : ∀ {pc : Pc}, pc.pointer = none → pc.creating = none →
      some (none, s.goto t pc) = some (r, s') → Inv s' ∧ CountRight ⟨s, (t, act), r, s'⟩ := by
    intro pc hp hc heq
    exact (h.leave t hp hc).uncounted _ heq
  cases act with
  | step => exact h.advanceFrom hok hstep
  | create name cap =>
      simp only [System.advance] at hstep
      split at hstep
      · exact hmove (by split <;> rfl) (by split <;> rfl) hstep
      · cases hstep
  | openShm name =>
      simp only [System.advance] at hstep
      split at hstep
      · exact hmove (by split <;> rfl) (by split <;> rfl) hstep
      · cases hstep
  | destroy name =>
      simp only [System.advance] at hstep
      split at hstep
      · exact hmove rfl rfl hstep
      · cases hstep
  | fail =>
      simp only [System.advance] at hstep
      split at hstep
      · exact hmove rfl rfl hstep
      · cases hstep

end Inv

/-- The name "a" with other bytes behind its zero. -/
def unfilled : NamePtr := ⟨'a' :: nul :: List.replicate 63 'x', by decide, by decide⟩

end System

end Kylin.Kshm
