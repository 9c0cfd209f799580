import Kylin.Lib.Acyclic
import Kylin.Lib.Run
import Kylin.Math.Val
import Kylin.Utils.Name

/-!
# The module loader

`lib/core/kylin_core_module.c` loads shared objects with the modules they depend on.
The symbol table of `m.so` names the dependencies of `m`: a symbol `m_depend_on_d`
makes `d` one.  `__module_depend_process` is called for every symbol; for a dependency
it puts an entry into the session's list or counts it once more, walks the symbols of
that module the same way, and then calls `__module_load` if the count is one.

Names are buffers of `KYLIN_NAME_LENGTH` bytes, compared as such and used as strings.
`kylin_module_load` copies the name it is given through a pointer that it never sets,
`param.mod_name`: what the call finds there is an argument of the model, `none` when
the memory cannot be written.

## Main definitions

* `Env` — the module files and what their handlers return.
* `Entry`, `Session` — an entry of the list, and the list with the calls of
  `__module_load` so far.
* `dependProcess`, `load`, `unload` — the functions.
-/

namespace Kylin

namespace Kmod

/-- `kmod_internal_t`, less the handles of the loaded object. -/
structure Entry where
  name : List Char
  refcnt : ℕ
  deriving DecidableEq

/-- The module files that can be opened, by name, with their symbols; and what the
handlers of a module return. -/
structure Env where
  files : List (List Char × List (List Char))
  /-- The result of `__module_load`. -/
  loaded : List Char → Kerr
  /-- The result of `__module_unload`. -/
  unloaded : List Char → Kerr

/-- `kmod_session_t`: the list of modules, and the names of the modules handed to
`__module_load`, oldest first. -/
structure Session where
  moduleList : List Entry
  loads : List (List Char)
  deriving DecidableEq

/-- Why a call does not return. -/
inductive Stop
  /-- The process has ended in `exit(1)`. -/
  | exit
  /-- Behaviour is undefined. -/
  | fault
  /-- The recursion is deeper than there are files. -/
  | deep
  deriving DecidableEq

/-- `kylin_elf_create`, with the symbols that will be read. -/
def Env.elfCreate (env : Env) (name : List Char) : Option (List (List Char)) :=
  env.files.lookup name

/-- The text between a module and its dependency in a symbol. -/
def dependOn : List Char := "_depend_on_".toList

/-- The dependency a symbol of the module `modName` names. -/
def dependOf (modName symbol : List Char) : Option (List Char) :=
  if (modName ++ dependOn).length < symbol.length ∧ (modName ++ dependOn).isPrefixOf symbol then
    some (symbol.drop (modName ++ dependOn).length)
  else none

/-- `kylin_elf_symbol`: call the hook for every symbol, up to the first error. -/
def elfSymbol {σ : Type} (hook : σ → List Char → Except Stop (Kerr × σ)) :
    List (List Char) → σ → Except Stop (Kerr × σ)
  | [], s => .ok (.ok, s)
  | symbol :: symbols, s => do
      let (ret, s) ← hook s symbol
      if ret = .ok then elfSymbol hook symbols s else .ok (ret, s)

namespace Session

/-- A new session. -/
def create : Session := ⟨[], []⟩

/-- `kylin_list_find` with `__module_match`. -/
def find (s : Session) (buf : List Char) : Option Entry :=
  s.moduleList.find? fun e => e.name = buf

/-- `__module_exist`. -/
def exist (s : Session) (name : List Char) : Bool :=
  (s.find (pad (name.take (nameLength - 1)))).isSome

/-- The list with the count of the first entry of that name one higher. -/
def bumpList (buf : List Char) : List Entry → List Entry
  | [] => []
  | e :: l =>
      if e.name = buf then { e with refcnt := (e.refcnt + 1) % 2 ^ 32 } :: l
      else e :: bumpList buf l

/-- `mod_depend->refcnt++`. -/
def bump (s : Session) (buf : List Char) : Session :=
  { s with moduleList := bumpList buf s.moduleList }

/-- `kylin_list_find_raw` and `kylin_list_insert_before`. -/
def insertBeforeList (after : List Char) (new : Entry) : List Entry → Option (List Entry)
  | [] => none
  | e :: l =>
      if e.name = after then some (new :: e :: l)
      else (insertBeforeList after new l).map (e :: ·)

/-- A new entry before that of the module it is needed by. -/
def insertBefore (s : Session) (after : List Char) (new : Entry) : Option Session :=
  (insertBeforeList after new s.moduleList).map fun l => { s with moduleList := l }

/-- `kylin_list_insert_tail`. -/
def insertTail (s : Session) (new : Entry) : Session :=
  { s with moduleList := s.moduleList ++ [new] }

/-- `__module_load`. -/
def moduleLoad (env : Env) (s : Session) (buf : List Char) : Kerr × Session :=
  (env.loaded (str buf), { s with loads := s.loads ++ [str buf] })

/-- The entry of a dependency: counted once more, or new. -/
def enter (s : Session) (modName dep : List Char) : Option Session :=
  if s.exist dep then some (s.bump (pad dep)) else s.insertBefore modName ⟨pad dep, 1⟩

/-- The end of `__module_depend_process` and of `kylin_module_load`. -/
def loadFirst (env : Env) (s : Session) (buf : List Char) : Kerr × Session :=
  if (s.find buf).map Entry.refcnt = some 1 then s.moduleLoad env buf else (.ok, s)

/-- `__module_depend_process` for a symbol of the module with the name buffer
`modName`.  A dependency whose name does not fit overflows a buffer on the stack. -/
def dependProcess (env : Env) : ℕ → List Char → Session → List Char →
    Except Stop (Kerr × Session)
  | 0, _, _, _ => .error .deep
  | fuel + 1, modName, s, symbol =>
      match dependOf (str modName) symbol with
      | none => .ok (.ok, s)
      | some dep =>
          if nameLength ≤ dep.length then .error .fault
          else
            match s.enter modName dep with
            | none => .ok (.inval, s)
            | some s =>
                match env.elfCreate dep with
                | none => .ok (.noent, s)
                | some symbols => do
                    let (ret, s) ← elfSymbol (dependProcess env fuel (pad dep)) symbols s
                    if ret = .ok then .ok (s.loadFirst env (pad dep)) else .error .exit

/-- `kylin_module_load`, with `stack` the memory that `param.mod_name` points to. -/
def load (env : Env) (s : Session) (modName : List Char) (stack : Option (List Char)) :
    Except Stop (Kerr × Session) :=
  if s.exist modName then .ok (.exist, s)
  else
    let name := pad (modName.take (nameLength - 1))
    let s := s.insertTail ⟨name, 1⟩
    match env.elfCreate modName, stack with
    | none, _ => .ok (.inval, s)
    | some _, none => .error .fault
    | some symbols, some buf => do
        let (ret, s) ←
          elfSymbol (dependProcess env (env.files.length + 1) (copyName buf modName)) symbols s
        if ret = .ok then .ok (s.loadFirst env name) else .error .exit

/-- `kylin_module_unload`. -/
def unload (env : Env) (s : Session) (modName : List Char) : Kerr × Session :=
  let name := pad (modName.take (nameLength - 1))
  if (s.find name).isNone then (.noent, s)
  else if env.unloaded (str name) = .ok then
    (.ok, { s with moduleList := s.moduleList.eraseP fun e => e.name = name })
  else (env.unloaded (str name), s)

/-- The calls on a session. -/
inductive Call
  | load (modName : List Char) (stack : Option (List Char))
  | unload (modName : List Char)
  deriving DecidableEq

/-- One call; `none` when it does not return. -/
def step (env : Env) (s : Session) : Call → Option (Kerr × Session)
  | .load modName stack => (s.load env modName stack).toOption
  | .unload modName => some (s.unload env modName)

end Session

/-- The modules `m` depends on. -/
def Env.deps (env : Env) (m : List Char) : List (List Char) :=
  ((env.elfCreate m).getD []).filterMap (dependOf m)

namespace Session
variable {s s' : Session} {x y buf : List Char} {e new : Entry}

/-- A module is in the list. -/
def Listed (s : Session) (x : List Char) : Prop := (s.find (pad x)).isSome

instance (s : Session) (x : List Char) : Decidable (s.Listed x) :=
  inferInstanceAs (Decidable (_ = true))

/-- The count of a module, zero when it is not in the list. -/
def refs (s : Session) (x : List Char) : ℕ := ((s.find (pad x)).map Entry.refcnt).getD 0

theorem exist_iff (hx : Fits x) : s.exist x ↔ s.Listed x := by
  rw [exist, take_name hx, Listed]

theorem find_bump (s : Session) (buf c : List Char) : (s.bump buf).find c =
    if c = buf then (s.find c).map fun e => { e with refcnt := (e.refcnt + 1) % 2 ^ 32 }
    else s.find c := by
  have h : ∀ l : List Entry, (bumpList buf l).find? (fun e => e.name = c) =
      if c = buf then (l.find? fun e => e.name = c).map fun e =>
        { e with refcnt := (e.refcnt + 1) % 2 ^ 32 }
      else l.find? fun e => e.name = c := by
    intro l
    induction l with
    | nil => simp [bumpList]
    | cons e l ih =>
        rw [bumpList]
        by_cases he : e.name = buf
        · rw [if_pos he]
          by_cases hc : c = buf
          · simp [hc, he]
          · have hec : ¬ e.name = c := fun h => hc (h.symm.trans he)
            simp [hc, hec]
        · rw [if_neg he]
          by_cases hec : e.name = c
          · have hc : ¬ c = buf := fun h => he (hec.trans h)
            simp [hc, hec]
          · simp only [List.find?_cons, hec, decide_false]
            exact ih
  exact h s.moduleList

theorem insertBefore_isSome (s : Session) (after : List Char) (new : Entry) :
    (s.insertBefore after new).isSome ↔ (s.find after).isSome := by
  have h : ∀ l : List Entry, (insertBeforeList after new l).isSome ↔
      (l.find? fun e => e.name = after).isSome := by
    intro l
    induction l with
    | nil => simp [insertBeforeList]
    | cons e l ih =>
        rw [insertBeforeList]
        by_cases he : e.name = after
        · simp [he]
        · rw [if_neg he]
          simpa [he] using ih
  rw [insertBefore, Option.isSome_map]
  exact h s.moduleList

theorem find_insertBefore {after c : List Char} (h : s.insertBefore after new = some s')
    (hnew : s.find new.name = none) :
    s'.find c = if c = new.name then some new else s.find c := by
  have key : ∀ l l' : List Entry, insertBeforeList after new l = some l' →
      (l.find? fun e => e.name = new.name) = none →
      (l'.find? fun e => e.name = c) =
        if c = new.name then some new else l.find? fun e => e.name = c := by
    intro l
    induction l with
    | nil =>
        intro l' h
        cases h
    | cons e l ih =>
        intro l' h hnone
        have he : ¬ e.name = new.name := by
          intro he
          simp [he] at hnone
        have hrest : (l.find? fun e => e.name = new.name) = none := by
          simpa [he] using hnone
        rw [insertBeforeList] at h
        split at h
        · obtain rfl := Option.some.inj h
          by_cases hc : c = new.name
          · simp [hc]
          · have hc' : ¬ new.name = c := fun h => hc h.symm
            simp [hc, hc']
        · obtain ⟨l₁, hl₁, rfl⟩ := Option.map_eq_some_iff.mp h
          by_cases hec : e.name = c
          · have hc : ¬ c = new.name := fun h => he (hec.trans h)
            simp [hec, hc]
          · simp only [List.find?_cons, hec, decide_false]
            exact ih l₁ hl₁ hrest
  obtain ⟨l', hl', rfl⟩ := Option.map_eq_some_iff.mp h
  exact key s.moduleList l' hl' hnew

theorem find_insertTail {c : List Char} (hnew : s.find new.name = none) :
    (s.insertTail new).find c = if c = new.name then some new else s.find c := by
  change (s.moduleList ++ [new]).find? _ = _
  rw [List.find?_append]
  by_cases hc : c = new.name
  · have hnone : (s.moduleList.find? fun e => e.name = c) = none := by
      rw [hc]
      exact hnew
    rw [hnone, if_pos hc]
    simp [hc]
  · have hc' : ¬ new.name = c := fun h => hc h.symm
    simp [hc, hc']
    rfl

/-- The entries of another session are the entries of this one, and `new`. -/
structure Adds (s : Session) (new : Entry) (s' : Session) : Prop where
  find : ∀ c, s'.find c = if c = new.name then some new else s.find c
  perm : s'.moduleList.Perm (new :: s.moduleList)
  loads : s'.loads = s.loads

theorem adds_insertBefore {after : List Char} (h : s.insertBefore after new = some s')
    (hnew : s.find new.name = none) : Adds s new s' where
  find := fun _ => find_insertBefore h hnew
  perm := by
    have key : ∀ l l' : List Entry, insertBeforeList after new l = some l' →
        l'.Perm (new :: l) := by
      intro l
      induction l with
      | nil =>
          intro l' h
          cases h
      | cons e l ih =>
          intro l' h
          rw [insertBeforeList] at h
          split at h
          · rw [← Option.some.inj h]
          · obtain ⟨l₁, hl₁, rfl⟩ := Option.map_eq_some_iff.mp h
            exact ((ih l₁ hl₁).cons e).trans (List.Perm.swap new e l)
    obtain ⟨l', hl', rfl⟩ := Option.map_eq_some_iff.mp h
    exact key s.moduleList l' hl'
  loads := by
    obtain ⟨l', -, rfl⟩ := Option.map_eq_some_iff.mp h
    rfl

theorem adds_insertTail (hnew : s.find new.name = none) : Adds s new (s.insertTail new) where
  find := fun _ => find_insertTail hnew
  perm := List.perm_append_singleton new s.moduleList
  loads := rfl

theorem Adds.listed_iff {n : ℕ} (h : Adds s ⟨pad y, n⟩ s') (hx : Fits x) (hy : Fits y) :
    s'.Listed x ↔ x = y ∨ s.Listed x := by
  rw [Listed, h.find]
  by_cases hxy : x = y
  · simp [hxy]
  · rw [if_neg (fun hpad => hxy ((pad_inj hx hy).mp hpad))]
    simp [hxy, Listed]

theorem Adds.refs_eq {n : ℕ} (h : Adds s ⟨pad y, n⟩ s') (hx : Fits x) (hy : Fits y) :
    s'.refs x = if x = y then n else s.refs x := by
  rw [refs, h.find]
  by_cases hxy : x = y
  · simp [hxy]
  · rw [if_neg (fun hpad => hxy ((pad_inj hx hy).mp hpad)), if_neg hxy, refs]

/-- Names are told apart, so a new one keeps them so. -/
theorem Adds.nodup (h : Adds s new s') (hnew : s.find new.name = none)
    (hnodup : (s.moduleList.map Entry.name).Nodup) : (s'.moduleList.map Entry.name).Nodup := by
  rw [(h.perm.map Entry.name).nodup_iff, List.map_cons, List.nodup_cons]
  refine ⟨?_, hnodup⟩
  intro hmem
  obtain ⟨e, he, hname⟩ := List.mem_map.mp hmem
  have := List.find?_eq_none.mp hnew e he
  simp [hname] at this

theorem names_bump (s : Session) (buf : List Char) :
    (s.bump buf).moduleList.map Entry.name = s.moduleList.map Entry.name := by
  have h : ∀ l : List Entry, (bumpList buf l).map Entry.name = l.map Entry.name := by
    intro l
    induction l with
    | nil => rfl
    | cons e l ih =>
        rw [bumpList]
        split
        · rfl
        · rw [List.map_cons, ih, List.map_cons]
  exact h s.moduleList

theorem refs_eq_zero (h : ¬ s.Listed x) : s.refs x = 0 := by
  rw [refs, Option.not_isSome_iff_eq_none.mp h]
  rfl

/-- A new entry with the count one. -/
theorem Adds.refs_add (h : Adds s ⟨pad y, 1⟩ s') (hy : Fits y) (hl : ¬ s.Listed y) :
    ∀ x, Fits x → s'.refs x = s.refs x + if x = y then 1 else 0 := by
  intro x hx
  rw [h.refs_eq hx hy]
  by_cases hxy : x = y
  · rw [if_pos hxy, if_pos hxy, hxy, refs_eq_zero hl]
  · rw [if_neg hxy, if_neg hxy]
    rfl

theorem listed_bump (hx : Fits x) (hy : Fits y) : (s.bump (pad y)).Listed x ↔ s.Listed x := by
  rw [Listed, find_bump]
  by_cases hxy : x = y
  · simp [hxy, Listed]
  · rw [if_neg (fun hpad => hxy ((pad_inj hx hy).mp hpad)), Listed]

theorem refs_bump (hx : Fits x) (hy : Fits y) (hl : s.Listed y) (hfit : s.refs y + 1 < 2 ^ 32) :
    (s.bump (pad y)).refs x = s.refs x + if x = y then 1 else 0 := by
  rw [refs, find_bump]
  by_cases hxy : x = y
  · obtain ⟨e, he⟩ := Option.isSome_iff_exists.mp hl
    rw [refs, he] at hfit
    rw [hxy, if_pos rfl, if_pos rfl, refs, he]
    exact Nat.mod_eq_of_lt hfit
  · rw [if_neg (fun hpad => hxy ((pad_inj hx hy).mp hpad)), if_neg hxy, refs]
    rfl

end Session

end Kmod

end Kylin
