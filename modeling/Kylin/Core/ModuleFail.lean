import Kylin.Core.ModuleWalk

/-!
# What a failed load leaves behind

`kylin_module_load` puts the entry of the module into the list before it opens the file, and takes
it out on no path.  A call that fails later, because the file does not open or the handler of the
module refuses, leaves it there, with the entries of all the dependencies; and the next call finds
the entry and says that the module exists.  The only errors that leave the list alone are those
before the entry is in it.  What fails in the walk below the module is not returned: it ends the
process.

Whether the handler of the module is asked at all depends on its count: the walk raises it each
time it comes back to the module, and only a count of one is loaded.

## Main definitions

* `loadMem` — `kylin_module_load`, with the answers of the allocator.
* `meets` — how often the walk comes back to the module.
* `KeepsList`, `FailsClean` — what a failed call should do, and when it does.

## Main results

* `Walks.refcnt` — the count of an entry behind a walk.
* `keepsList_iff` — the calls that keep the list if they fail.
* `exist_after` — the others are not tried again.
-/

namespace Kylin.Kmod

open Lib Lib.Graph

namespace Session

/-- `kylin_module_load`, where `mem` and `node` say whether there is memory for the entry and for
the node of the list.  Below the module there always is: without it the process ends. -/
def loadMem (env : Env) (s : Session) (modName : List Char) (stack : Option (List Char))
    (mem node : Bool) : Except Stop (Kerr × Session) :=
  if s.exist modName then .ok (.exist, s)
  else if !mem then .ok (.nomem, s)
  else if !node then .ok (.noent, s)
  else s.load env modName stack

/-- With memory it is the call without these answers. -/
theorem loadMem_true (env : Env) (s : Session) (modName : List Char)
    (stack : Option (List Char)) : s.loadMem env modName stack true true =
      s.load env modName stack := by
  rw [loadMem]
  by_cases hexist : s.exist modName
  · rw [if_pos hexist, load, if_pos hexist]
  · rw [if_neg hexist]
    rfl

/-- A call that fails keeps the list as it was. -/
def KeepsList (s : Session) (ret : Kerr) (s' : Session) : Prop :=
  ret ≠ .ok → s'.moduleList = s.moduleList

/-- How often the walk below a module comes back to it. -/
def meets (env : Env) (modName buf : List Char) (symbols : List (List Char)) : ℕ :=
  (visits env env.files.length (str (copyName buf modName)) symbols).countP
    fun x => pad x = pad (modName.take (nameLength - 1))

/-- The module is in the list already, or there is no memory for it; or its file opens, and its
handler accepts or is not asked. -/
def FailsClean (env : Env) (s : Session) (modName : List Char) (stack : Option (List Char))
    (mem node : Bool) : Prop :=
  s.exist modName ∨ mem = false ∨ node = false ∨
    ∃ symbols buf, env.elfCreate modName = some symbols ∧ stack = some buf ∧
      (env.loaded (str (pad (modName.take (nameLength - 1)))) = .ok ∨
        meets env modName buf symbols % 2 ^ 32 ≠ 0)

variable {env : Env} {n r : ℕ} {s s' s₁ s₂ : Session} {modName d buf : List Char} {ret : Kerr}
  {ds : List (List Char)} {stack : Option (List Char)} {mem node : Bool}

/-! ## Counts -/

theorem refcnt_enter (hd : Fits d) (h : s.enter modName d = some s')
    (hr : (s.find buf).map Entry.refcnt = some r) (hlt : r < 2 ^ 32) :
    (s'.find buf).map Entry.refcnt = some ((r + if pad d = buf then 1 else 0) % 2 ^ 32) := by
  obtain ⟨e, he, rfl⟩ := Option.map_eq_some_iff.mp hr
  rw [enter] at h
  by_cases hhas : s.exist d
  · rw [if_pos hhas] at h
    cases h
    rw [find_bump]
    by_cases hbuf : pad d = buf
    · rw [if_pos hbuf.symm, if_pos hbuf, he]
      rfl
    · rw [if_neg (fun h => hbuf h.symm), if_neg hbuf, he, Nat.add_zero, Nat.mod_eq_of_lt hlt]
      rfl
  · rw [if_neg hhas] at h
    have hnone : s.find (pad d) = none :=
      Option.not_isSome_iff_eq_none.mp (mt (exist_iff_has hd).mpr hhas)
    have hbuf : ¬ pad d = buf := by
      rintro rfl
      rw [hnone] at he
      cases he
    rw [find_insertBefore h hnone, if_neg (fun h => hbuf h.symm), if_neg hbuf, he, Nat.add_zero,
      Nat.mod_eq_of_lt hlt]
    rfl

/-- The ends of the paths from a module are what the walk below it comes to. -/
theorem paths_eq_visited (h : n = 0 → env.deps d = []) : paths env.deps n d =
    (env.deps d).flatMap fun c => c :: paths env.deps (n - 1) c := by
  cases n with
  | zero =>
      rw [h rfl]
      rfl
  | succ n => rfl

/-- **The count of an entry** goes up with every path to it, modulo the width of the counter. -/
theorem Walks.refcnt (h : Walks env n modName ds s s') :
    ∀ r, (s.find buf).map Entry.refcnt = some r → r < 2 ^ 32 →
      (s'.find buf).map Entry.refcnt = some ((r +
        (ds.flatMap fun d => d :: paths env.deps n d).countP fun x => pad x = buf) % 2 ^ 32) := by
  induction h with
  | nil =>
      intro r hr hlt
      rw [hr]
      exact congrArg some (Nat.mod_eq_of_lt hlt).symm
  | @cons n modName d ds symbols s s₁ s₂ s₃ s' hd henters hend _ hload _ ihbelow ihrest =>
      intro r hr hlt
      have henter := refcnt_enter hd henters.enter hr hlt
      have hbelow := ihbelow _ henter (Nat.mod_lt _ (by decide))
      have hfind := find_loadFirst env s₂ (pad d) buf
      rw [hload] at hfind
      rw [← hfind] at hbelow
      rw [ihrest _ hbelow (Nat.mod_lt _ (by decide)), List.flatMap_cons, List.countP_append,
        List.countP_cons, paths_eq_visited hend]
      simp only [decide_eq_true_eq]
      congr 1
      omega

/-! ## Calls -/

/-- A call that returns, for a module that is not in the list. -/
theorem load_cases (hexist : ¬ s.exist modName) (h : s.load env modName stack = .ok (ret, s')) :
    (env.elfCreate modName = none ∧ ret = .inval ∧
      s' = s.insertTail ⟨pad (modName.take (nameLength - 1)), 1⟩) ∨
    ∃ symbols buf s₂, env.elfCreate modName = some symbols ∧ stack = some buf ∧
      elfSymbol (dependProcess env (env.files.length + 1) (copyName buf modName)) symbols
        (s.insertTail ⟨pad (modName.take (nameLength - 1)), 1⟩) = .ok (.ok, s₂) ∧
      s₂.loadFirst env (pad (modName.take (nameLength - 1))) = (ret, s') := by
  rw [load, if_neg hexist] at h
  cases hopen : env.elfCreate modName with
  | none =>
      simp only [hopen] at h
      cases h
      exact .inl ⟨rfl, rfl, rfl⟩
  | some symbols =>
      cases stack with
      | none => simp [hopen] at h
      | some buf =>
          simp only [hopen] at h
          cases hwalk : elfSymbol (dependProcess env (env.files.length + 1)
              (copyName buf modName)) symbols
              (s.insertTail ⟨pad (modName.take (nameLength - 1)), 1⟩) with
          | error e => simp [hwalk, bind, Except.bind] at h
          | ok r =>
              obtain ⟨ret₂, s₂⟩ := r
              by_cases hret : ret₂ = .ok
              · simp only [hwalk, hret, bind, Except.bind, if_true] at h
                exact .inr ⟨symbols, buf, s₂, rfl, rfl, by rw [hwalk, hret], Except.ok.inj h⟩
              · simp [hwalk, hret, bind, Except.bind] at h

/-- The result of the last step: an error only from a handler that is asked. -/
theorem loadFirst_ok_iff (env : Env) (s : Session) (buf : List Char) :
    (s.loadFirst env buf).1 = .ok ↔
      env.loaded (str buf) = .ok ∨ (s.find buf).map Entry.refcnt ≠ some 1 := by
  rw [loadFirst]
  split
  · next hone => simp [hone, moduleLoad]
  · next hone => simp [hone]

/-- The walk of a call that has come back, and the count of the module behind it. -/
theorem walk_of_load (hstrings : env.Strings) {symbols : List (List Char)}
    (hexist : ¬ s.exist modName) (hopen : env.elfCreate modName = some symbols)
    (hwalk : elfSymbol (dependProcess env (env.files.length + 1) (copyName buf modName)) symbols
      (s.insertTail ⟨pad (modName.take (nameLength - 1)), 1⟩) = .ok (.ok, s₂)) :
    (s₂.find (pad (modName.take (nameLength - 1)))).map Entry.refcnt =
      some ((1 + meets env modName buf symbols) % 2 ^ 32) := by
  rw [elfSymbol_dependProcess] at hwalk
  have hwalks := walks_of_elfSymbol hstrings env.files.length _ _ _ s₂
    (fun d hd => hstrings.nul_not_mem hopen hd) hwalk
  have hnone : s.find (pad (modName.take (nameLength - 1))) = none :=
    Option.not_isSome_iff_eq_none.mp hexist
  refine hwalks.refcnt 1 ?_ (by decide)
  rw [find_insertTail hnone, if_pos rfl]
  rfl

/-- A call that gets as far as the list has its module in it when it returns. -/
theorem exist_of_load (hstrings : env.Strings) (hexist : ¬ s.exist modName)
    (h : s.load env modName stack = .ok (ret, s')) : s'.exist modName := by
  have hnone : s.find (pad (modName.take (nameLength - 1))) = none :=
    Option.not_isSome_iff_eq_none.mp hexist
  rcases load_cases hexist h with ⟨-, -, rfl⟩ | ⟨symbols, buf, s₂, hopen, -, hwalk, hload⟩
  · rw [exist, find_insertTail hnone, if_pos rfl]
    rfl
  · have hcount := walk_of_load hstrings hexist hopen hwalk
    have hfind := find_loadFirst env s₂ (pad (modName.take (nameLength - 1)))
      (pad (modName.take (nameLength - 1)))
    rw [hload] at hfind
    rw [exist, hfind, ← Option.isSome_map (f := Entry.refcnt), hcount]
    rfl

/-- The list of a call that gets as far as that is another one. -/
theorem keepsList_load_iff (hstrings : env.Strings) (hexist : ¬ s.exist modName)
    (h : s.load env modName stack = .ok (ret, s')) : KeepsList s ret s' ↔ ret = .ok := by
  constructor
  · intro hkeeps
    by_contra hret
    have hafter := exist_of_load hstrings hexist h
    rw [exist, find, hkeeps hret] at hafter
    exact hexist hafter
  · exact fun hret hne => absurd hret hne

/-- **A failed load and the list of modules.**  Of the calls that return, those keep the list when
they fail that find the module in it, that have no memory for the entry, or that cannot fail
because the file opens and the handler is not asked or accepts. -/
theorem keepsList_iff (hstrings : env.Strings)
    (h : s.loadMem env modName stack mem node = .ok (ret, s')) :
    KeepsList s ret s' ↔ FailsClean env s modName stack mem node := by
  by_cases hexist : s.exist modName
  · rw [loadMem, if_pos hexist] at h
    cases h
    exact iff_of_true (fun _ => rfl) (.inl hexist)
  cases mem with
  | false =>
      rw [loadMem, if_neg hexist] at h
      cases h
      exact iff_of_true (fun _ => rfl) (.inr (.inl rfl))
  | true =>
      cases node with
      | false =>
          rw [loadMem, if_neg hexist] at h
          cases h
          exact iff_of_true (fun _ => rfl) (.inr (.inr (.inl rfl)))
      | true =>
          rw [loadMem_true] at h
          rw [keepsList_load_iff hstrings hexist h]
          rcases load_cases hexist h with ⟨hopen, rfl, rfl⟩ |
              ⟨symbols, buf, s₂, hopen, rfl, hwalk, hload⟩
          · simp [FailsClean, hexist, hopen]
          · have hret := loadFirst_ok_iff env s₂ (pad (modName.take (nameLength - 1)))
            rw [hload, walk_of_load hstrings hexist hopen hwalk] at hret
            have hmod : (1 + meets env modName buf symbols) % 2 ^ 32 = 1 ↔
                meets env modName buf symbols % 2 ^ 32 = 0 := by omega
            rw [hret, ne_eq, Option.some_inj, hmod]
            constructor
            · exact fun h => .inr (.inr (.inr ⟨symbols, buf, hopen, rfl, h⟩))
            · rintro (hold | hmem | hnode | ⟨symbols', buf', hopen', hbuf, h⟩)
              · exact absurd hold hexist
              · cases hmem
              · cases hnode
              · cases hopen.symm.trans hopen'
                cases hbuf
                exact h

/-- What fails with the module in the list is not tried again. -/
theorem exist_after (hstrings : env.Strings)
    (h : s.loadMem env modName stack mem node = .ok (ret, s')) (hfail : ¬ KeepsList s ret s')
    (again : Option (List Char)) (mem' node' : Bool) :
    s'.loadMem env modName again mem' node' = .ok (.exist, s') := by
  by_cases hexist : s.exist modName
  · rw [loadMem, if_pos hexist] at h
    cases h
    exact absurd (fun _ => rfl) hfail
  rw [loadMem, if_neg hexist] at h
  split at h
  · cases h
    exact absurd (fun _ => rfl) hfail
  split at h
  · cases h
    exact absurd (fun _ => rfl) hfail
  rw [loadMem, if_pos (exist_of_load hstrings hexist h)]

/-- A module `a` that depends on `b` and whose handler refuses to be loaded. -/
def refusing : Env where
  files := [(['a'], ["a_depend_on_b".toList]), (['b'], [])]
  loaded := fun m => if m = ['a'] then .inval else .ok
  unloaded := fun _ => .ok

theorem refusing_strings : refusing.Strings := by
  intro f hf
  revert f
  decide +kernel

/-- There is no memory for `a`, and `b` is loaded. -/
theorem keepsList_iff_refusing : refusing.Strings ∧
    create.loadMem refusing ['a'] none false true = .ok (.nomem, create) ∧
    KeepsList create .nomem create ∧
    create.loadMem refusing ['b'] (some (pad [])) true true =
      .ok (.ok, ⟨[⟨pad ['b'], 1⟩], [['b']]⟩) ∧
    KeepsList create .ok ⟨[⟨pad ['b'], 1⟩], [['b']]⟩ := by
  have hmem : create.loadMem refusing ['a'] none false true = .ok (.nomem, create) := rfl
  have hload : create.loadMem refusing ['b'] (some (pad [])) true true =
      .ok (.ok, ⟨[⟨pad ['b'], 1⟩], [['b']]⟩) := by
    decide +kernel
  refine ⟨refusing_strings, hmem, ?_, hload, ?_⟩
  · exact (keepsList_iff refusing_strings hmem).mpr (.inr (.inl rfl))
  · exact (keepsList_iff refusing_strings hload).mpr
      (.inr (.inr (.inr ⟨[], pad [], rfl, rfl, .inl (by decide +kernel)⟩)))

/-- A module without a file, and one whose handler refuses: both fail, are in the list, and exist
when they are asked for again. -/
theorem not_keepsList_missing :
    (∃ s', create.loadMem refusing ['c'] (some (pad [])) true true = .ok (.inval, s') ∧
      ¬ KeepsList create .inval s' ∧ s'.moduleList = [⟨pad ['c'], 1⟩] ∧
      s'.loadMem refusing ['c'] (some (pad [])) true true = .ok (.exist, s')) ∧
    ∃ s', create.loadMem refusing ['a'] (some (pad [])) true true = .ok (.inval, s') ∧
      ¬ KeepsList create .inval s' ∧ s'.moduleList = [⟨pad ['b'], 1⟩, ⟨pad ['a'], 1⟩] ∧
      s'.loadMem refusing ['a'] (some (pad [])) true true = .ok (.exist, s') := by
  constructor
  · refine ⟨⟨[⟨pad ['c'], 1⟩], []⟩, by decide +kernel, ?_, rfl, by decide +kernel⟩
    intro h
    have hlist := h (by decide)
    cases hlist
  · refine ⟨⟨[⟨pad ['b'], 1⟩, ⟨pad ['a'], 1⟩], [['b'], ['a']]⟩, by decide +kernel, ?_, rfl,
      by decide +kernel⟩
    intro h
    have hlist := h (by decide)
    cases hlist

end Session

end Kylin.Kmod
