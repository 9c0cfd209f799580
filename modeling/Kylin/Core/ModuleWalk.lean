import Kylin.Core.ModuleOrder
import Kylin.Lib.Descent

/-!
# The walk of the module loader

`__module_depend_process` seen from the graph of dependencies, with cycles or without.  It visits
the dependencies of a module in the order of the symbols, and below each of them the same way.  A
visit fails, and the process with it, when a name is too long, a file does not open, or there is
no entry to insert the new one before.

## Main definitions

* `Env.InOrder` — a dependency with a name that fits and a file that opens.
* `visit` — `__module_depend_process` for a symbol that names a dependency.
* `Walks` — the walks that come back.
* `Has`, `Stands`, `Entered` — the name buffers in the list, before a walk and behind it.

## Main results

* `walks_of_elfSymbol` — a call that comes back is a walk.
* `Walks.passes`, `Walks.has` — what it has passed, and what is in the list behind it.
-/

namespace Kylin.Kmod

open Lib Lib.Graph

/-- The name fits, and the file opens. -/
def Env.InOrder (env : Env) (d : List Char) : Prop :=
  d.length < nameLength ∧ (env.elfCreate d).isSome

/-- The symbols are strings. -/
def Env.Strings (env : Env) : Prop := ∀ f ∈ env.files, ∀ symbol ∈ f.2, nul ∉ symbol

theorem nul_not_mem_of_dependOf {m symbol d : List Char} (h : dependOf m symbol = some d)
    (hsymbol : nul ∉ symbol) : nul ∉ d := by
  rw [dependOf] at h
  split at h
  · cases h
    exact fun hmem => hsymbol (List.mem_of_mem_drop hmem)
  · cases h

theorem Env.mem_files {env : Env} {m : List Char} {symbols : List (List Char)}
    (h : env.elfCreate m = some symbols) : (m, symbols) ∈ env.files := by
  obtain ⟨l, l', hsplit, -⟩ := List.lookup_eq_some_iff.mp h
  rw [hsplit]
  simp

theorem Env.Strings.nul_not_mem {env : Env} (h : env.Strings) {m t d : List Char}
    {symbols : List (List Char)} (hopen : env.elfCreate m = some symbols)
    (hd : d ∈ symbols.filterMap (dependOf t)) : nul ∉ d := by
  obtain ⟨symbol, hsymbol, hdep⟩ := List.mem_filterMap.mp hd
  exact nul_not_mem_of_dependOf hdep (h _ (Env.mem_files hopen) symbol hsymbol)

theorem Env.Strings.nul_not_mem_deps {env : Env} (h : env.Strings) {m d : List Char}
    (hd : d ∈ env.deps m) : nul ∉ d := by
  rw [Env.deps] at hd
  cases hopen : env.elfCreate m with
  | none => simp [hopen] at hd
  | some symbols =>
      rw [hopen] at hd
      exact h.nul_not_mem hopen hd

/-! ## Hooks -/

section Hooks
variable {σ : Type} {hook : σ → List Char → Except Stop (Kerr × σ)} {l l' : List (List Char)}
  {a : List Char} {s s' : σ} {e : Stop}

theorem elfSymbol_cons (hook : σ → List Char → Except Stop (Kerr × σ)) (a : List Char)
    (l : List (List Char)) (s : σ) : elfSymbol hook (a :: l) s =
      match hook s a with
      | .error e => .error e
      | .ok (ret, s) => if ret = .ok then elfSymbol hook l s else .ok (ret, s) := by
  rw [elfSymbol]
  cases hook s a with
  | error e => rfl
  | ok r => rfl

theorem elfSymbol_cons_ok : elfSymbol hook (a :: l) s = .ok (.ok, s') ↔
    ∃ s₁, hook s a = .ok (.ok, s₁) ∧ elfSymbol hook l s₁ = .ok (.ok, s') := by
  rw [elfSymbol_cons]
  cases hook s a with
  | error e => simp
  | ok r =>
      obtain ⟨ret, s₁⟩ := r
      by_cases hret : ret = .ok
      · simp [hret]
      · simp [hret]

theorem elfSymbol_cons_error : elfSymbol hook (a :: l) s = .error e ↔
    hook s a = .error e ∨
      ∃ s₁, hook s a = .ok (.ok, s₁) ∧ elfSymbol hook l s₁ = .error e := by
  rw [elfSymbol_cons]
  cases hook s a with
  | error e' => simp
  | ok r =>
      obtain ⟨ret, s₁⟩ := r
      by_cases hret : ret = .ok
      · simp [hret]
      · simp [hret]

/-- A reading that breaks off does so at one symbol, with all before it well. -/
theorem elfSymbol_error_iff : elfSymbol hook l s = .error e ↔
    ∃ before a after s₁, l = before ++ a :: after ∧ elfSymbol hook before s = .ok (.ok, s₁) ∧
      hook s₁ a = .error e := by
  constructor
  · intro h
    induction l generalizing s with
    | nil => cases h
    | cons a l ih =>
        rcases elfSymbol_cons_error.mp h with hhook | ⟨s₁, hhook, hrest⟩
        · exact ⟨[], a, l, s, rfl, rfl, hhook⟩
        · obtain ⟨before, b, after, s₂, rfl, hbefore, hb⟩ := ih hrest
          exact ⟨a :: before, b, after, s₂, rfl,
            elfSymbol_cons_ok.mpr ⟨s₁, hhook, hbefore⟩, hb⟩
  · rintro ⟨before, a, after, s₁, rfl, hbefore, ha⟩
    induction before generalizing s with
    | nil =>
        cases hbefore
        exact elfSymbol_cons_error.mpr (.inl ha)
    | cons b before ih =>
        obtain ⟨s₂, hb, hrest⟩ := elfSymbol_cons_ok.mp hbefore
        exact elfSymbol_cons_error.mpr (.inr ⟨s₂, hb, ih hrest⟩)

end Hooks

namespace Session

/-- There is an entry with this name buffer. -/
def Has (s : Session) (buf : List Char) : Prop := (s.find buf).isSome

instance (s : Session) (buf : List Char) : Decidable (s.Has buf) :=
  inferInstanceAs (Decidable (_ = true))

/-- `__module_depend_process` for the symbol that names the dependency `dep`, in the walk of the
module with the name buffer `modName`. -/
def visit (env : Env) (n : ℕ) (modName : List Char) (s : Session) (dep : List Char) :
    Except Stop (Kerr × Session) :=
  if nameLength ≤ dep.length then .error .fault
  else
    match s.enter modName dep with
    | none => .ok (.inval, s)
    | some s =>
        match env.elfCreate dep with
        | none => .ok (.noent, s)
        | some symbols => do
            let (ret, s) ← elfSymbol (dependProcess env n (pad dep)) symbols s
            if ret = .ok then .ok (s.loadFirst env (pad dep)) else .error .exit

variable {env : Env} {n : ℕ} {s s' s₁ s₂ s₃ : Session} {modName d buf : List Char}
  {ds : List (List Char)} {symbols : List (List Char)}

theorem dependProcess_succ (env : Env) (n : ℕ) (modName : List Char) (s : Session)
    (symbol : List Char) : dependProcess env (n + 1) modName s symbol =
      match dependOf (str modName) symbol with
      | none => .ok (.ok, s)
      | some d => visit env n modName s d := rfl

/-- The symbols that name no dependency are passed over. -/
theorem elfSymbol_dependProcess (env : Env) (n : ℕ) (modName : List Char)
    (symbols : List (List Char)) (s : Session) :
    elfSymbol (dependProcess env (n + 1) modName) symbols s =
      elfSymbol (visit env n modName) (symbols.filterMap (dependOf (str modName))) s := by
  induction symbols generalizing s with
  | nil => rfl
  | cons symbol symbols ih =>
      rw [elfSymbol_cons, dependProcess_succ]
      cases hdep : dependOf (str modName) symbol with
      | none =>
          rw [List.filterMap_cons_none hdep]
          exact ih s
      | some d =>
          rw [List.filterMap_cons_some hdep, elfSymbol_cons]
          simp only [ih]

/-- A visit, once there is an entry and the file is open. -/
theorem visit_of_enter (hd : d.length < nameLength) (henter : s.enter modName d = some s₁)
    (hopen : env.elfCreate d = some symbols) : visit env n modName s d =
      match elfSymbol (dependProcess env n (pad d)) symbols s₁ with
      | .error e => .error e
      | .ok (ret, s) => if ret = .ok then .ok (s.loadFirst env (pad d)) else .error .exit := by
  simp only [visit, if_neg (Nat.not_le.mpr hd), henter, hopen]
  cases elfSymbol (dependProcess env n (pad d)) symbols s₁ with
  | error e => rfl
  | ok r => rfl

/-- A visit that goes on to the symbols of the dependency. -/
structure Enters (env : Env) (modName : List Char) (s : Session) (d : List Char)
    (symbols : List (List Char)) (s₁ : Session) : Prop where
  fits : d.length < nameLength
  enter : s.enter modName d = some s₁
  opens : env.elfCreate d = some symbols

/-- Every other visit has stopped by then. -/
theorem enters_or (env : Env) (n : ℕ) (modName : List Char) (s : Session) (d : List Char) :
    (∃ symbols s₁, Enters env modName s d symbols s₁) ∨
      visit env n modName s d ≠ .error .deep ∧
        ∀ s', visit env n modName s d ≠ .ok (.ok, s') := by
  by_cases hd : d.length < nameLength
  · cases henter : s.enter modName d with
    | none => simp [visit, Nat.not_le.mpr hd, henter]
    | some s₁ =>
        cases hopen : env.elfCreate d with
        | none => simp [visit, Nat.not_le.mpr hd, henter, hopen]
        | some symbols => exact .inl ⟨symbols, s₁, hd, henter, hopen⟩
  · simp [visit, Nat.not_lt.mp hd]

theorem visit_ok_iff : visit env n modName s d = .ok (.ok, s') ↔
    ∃ symbols s₁ s₂, Enters env modName s d symbols s₁ ∧
      elfSymbol (dependProcess env n (pad d)) symbols s₁ = .ok (.ok, s₂) ∧
      s₂.loadFirst env (pad d) = (.ok, s') := by
  constructor
  · intro h
    rcases enters_or env n modName s d with ⟨symbols, s₁, henters⟩ | ⟨-, hok⟩
    · rw [visit_of_enter henters.fits henters.enter henters.opens] at h
      cases hwalk : elfSymbol (dependProcess env n (pad d)) symbols s₁ with
      | error e => simp [hwalk] at h
      | ok r =>
          obtain ⟨ret, s₂⟩ := r
          by_cases hret : ret = .ok
          · simp only [hwalk, hret, if_true] at h
            exact ⟨symbols, s₁, s₂, henters, by rw [hwalk, hret], Except.ok.inj h⟩
          · simp [hwalk, hret] at h
    · exact absurd h (hok s')
  · rintro ⟨symbols, s₁, s₂, henters, hwalk, hload⟩
    rw [visit_of_enter henters.fits henters.enter henters.opens, hwalk]
    simp [hload]

theorem visit_deep_iff : visit env n modName s d = .error .deep ↔
    ∃ symbols s₁, Enters env modName s d symbols s₁ ∧
      elfSymbol (dependProcess env n (pad d)) symbols s₁ = .error .deep := by
  constructor
  · intro h
    rcases enters_or env n modName s d with ⟨symbols, s₁, henters⟩ | ⟨hdeep, -⟩
    · rw [visit_of_enter henters.fits henters.enter henters.opens] at h
      refine ⟨symbols, s₁, henters, ?_⟩
      cases hwalk : elfSymbol (dependProcess env n (pad d)) symbols s₁ with
      | error e => simpa [hwalk] using h
      | ok r =>
          by_cases hret : r.1 = .ok
          · simp [hwalk, hret] at h
          · simp [hwalk, hret] at h
    · exact absurd h hdeep
  · rintro ⟨symbols, s₁, henters, hwalk⟩
    rw [visit_of_enter henters.fits henters.enter henters.opens, hwalk]

theorem Enters.inOrder (h : Enters env modName s d symbols s₁) : env.InOrder d :=
  ⟨h.fits, by rw [h.opens]; rfl⟩

/-! ## The symbols of a dependency -/

/-- The symbols of a module are those of its dependencies, one level down. -/
theorem elfSymbol_below (hd : Fits d) (hopen : env.elfCreate d = some symbols) (n : ℕ)
    (s : Session) : elfSymbol (dependProcess env (n + 1) (pad d)) symbols s =
      elfSymbol (visit env n (pad d)) (env.deps d) s := by
  rw [elfSymbol_dependProcess, str_pad hd, Env.deps, hopen]
  rfl

/-- With no level left only a module without symbols is passed. -/
theorem elfSymbol_zero_ok (h : elfSymbol (dependProcess env 0 modName) symbols s = .ok (.ok, s')) :
    symbols = [] ∧ s' = s := by
  cases symbols with
  | nil =>
      cases h
      exact ⟨rfl, rfl⟩
  | cons symbol symbols => cases h

theorem deps_of_no_symbols (hopen : env.elfCreate d = some []) : env.deps d = [] := by
  rw [Env.deps, hopen]
  rfl

/-! ## Walks that come back -/

/-- A walk along dependencies of the module with the name buffer `modName` that comes back: each of
them is entered, and loaded behind the walk along its own.  No more than `n` levels lie below. -/
inductive Walks (env : Env) : ℕ → List Char → List (List Char) → Session → Session → Prop
  | nil (n : ℕ) (modName : List Char) (s : Session) : Walks env n modName [] s s
  | cons {n : ℕ} {modName d : List Char} {ds symbols : List (List Char)} {s s₁ s₂ s₃ s' : Session}
      (hd : Fits d) (henters : Enters env modName s d symbols s₁)
      (hend : n = 0 → env.deps d = [])
      (hbelow : Walks env (n - 1) (pad d) (env.deps d) s₁ s₂)
      (hload : s₂.loadFirst env (pad d) = (.ok, s₃)) (hrest : Walks env n modName ds s₃ s') :
      Walks env n modName (d :: ds) s s'

theorem Walks.of_visit (hd : Fits d) (hstrings : env.Strings)
    (ih : ∀ k, n = k + 1 → ∀ modName ds s s', (∀ d ∈ ds, nul ∉ d) →
      elfSymbol (visit env k modName) ds s = .ok (.ok, s') → Walks env k modName ds s s')
    (h : visit env n modName s d = .ok (.ok, s₁)) (hrest : Walks env n modName ds s₁ s') :
    Walks env n modName (d :: ds) s s' := by
  obtain ⟨symbols, s₂, s₃, henters, hbelow, hload⟩ := visit_ok_iff.mp h
  cases n with
  | zero =>
      obtain ⟨rfl, rfl⟩ := elfSymbol_zero_ok hbelow
      have hdeps := deps_of_no_symbols henters.opens
      refine .cons hd henters (fun _ => hdeps) ?_ hload hrest
      rw [hdeps]
      exact .nil 0 (pad d) s₃
  | succ k =>
      rw [elfSymbol_below hd henters.opens] at hbelow
      have hwalk := ih k rfl (pad d) (env.deps d) s₂ s₃
        (fun c hc => hstrings.nul_not_mem_deps hc) hbelow
      exact .cons hd henters (fun h => absurd h (Nat.succ_ne_zero k)) hwalk hload hrest

/-- **A call that comes back is a walk**, by induction on the levels and along the symbols. -/
theorem walks_of_elfSymbol (hstrings : env.Strings) : ∀ n modName ds s s', (∀ d ∈ ds, nul ∉ d) →
    elfSymbol (visit env n modName) ds s = .ok (.ok, s') → Walks env n modName ds s s' := by
  intro n
  induction n using Nat.strong_induction_on with
  | _ n ihn =>
      intro modName ds
      induction ds with
      | nil =>
          intro s s' _ h
          cases h
          exact .nil n modName s
      | cons d ds ih =>
          intro s s' hnul h
          obtain ⟨s₁, hvisit, hrest⟩ := elfSymbol_cons_ok.mp h
          have hwalk := ih s₁ s' (fun c hc => hnul c (List.mem_cons_of_mem d hc)) hrest
          obtain ⟨symbols, _, _, henters, _⟩ := visit_ok_iff.mp hvisit
          have hd : Fits d := ⟨henters.fits, hnul d List.mem_cons_self⟩
          exact .of_visit hd hstrings (fun k hk => ihn k (by omega)) hvisit hwalk

theorem Walks.passes (h : Walks env n modName ds s s') :
    ∀ d ∈ ds, env.InOrder d ∧ Passes env.deps env.InOrder d := by
  induction h with
  | nil =>
      intro d hd
      cases hd
  | cons _ henters _ _ _ _ ihbelow ihrest =>
      intro c hc
      rcases List.mem_cons.mp hc with rfl | hc
      · exact ⟨henters.inOrder, .intro (fun b hb => (ihbelow b hb).1) fun b hb => (ihbelow b hb).2⟩
      · exact ihrest c hc

/-! ## The list behind a walk -/

theorem find_loadFirst (env : Env) (s : Session) (buf c : List Char) :
    (s.loadFirst env buf).2.find c = s.find c := by
  rw [loadFirst]
  split
  · rfl
  · rfl

theorem has_loadFirst (h : s.loadFirst env buf = (.ok, s')) (c : List Char) :
    s'.Has c ↔ s.Has c := by
  have hfind := find_loadFirst env s buf c
  rw [h] at hfind
  rw [Has, Has, hfind]

theorem exist_iff_has (hd : Fits d) : s.exist d ↔ s.Has (pad d) := exist_iff hd

/-- A dependency gets its entry if it has one or its dependent has. -/
theorem enter_isSome (hd : Fits d) :
    (s.enter modName d).isSome ↔ s.Has modName ∨ s.Has (pad d) := by
  rw [enter]
  by_cases hhas : s.exist d
  · simp [hhas, (exist_iff_has hd).mp hhas]
  · have hnew : ¬ s.Has (pad d) := mt (exist_iff_has hd).mpr hhas
    rw [if_neg hhas, insertBefore_isSome, or_iff_left hnew, Has]

theorem has_enter (hd : Fits d) (h : s.enter modName d = some s') (c : List Char) :
    s'.Has c ↔ s.Has c ∨ c = pad d := by
  rw [enter] at h
  by_cases hhas : s.exist d
  · rw [if_pos hhas] at h
    have hold := (exist_iff_has hd).mp hhas
    cases h
    rw [Has, find_bump]
    by_cases hc : c = pad d
    · rw [hc, if_pos rfl, Option.isSome_map]
      exact iff_of_true hold (.inl hold)
    · simp [hc, Has]
  · rw [if_neg hhas] at h
    have hnone : s.find (pad d) = none :=
      Option.not_isSome_iff_eq_none.mp (mt (exist_iff_has hd).mpr hhas)
    rw [Has, find_insertBefore h hnone]
    by_cases hc : c = pad d
    · simp [hc]
    · simp [hc, Has]

/-- The buffers in the list when a walk has passed the dependencies `ds`. -/
def Stands (env : Env) (s : Session) (ds : List (List Char)) (buf : List Char) : Prop :=
  s.Has buf ∨ ∃ c ∈ ds, ∃ x, Relation.ReflTransGen (Edge env.deps) c x ∧ buf = pad x

/-- Then the dependency `d` of the module with the name buffer `modName` can be entered. -/
def Entered (env : Env) (s : Session) (modName : List Char) (ds : List (List Char))
    (d : List Char) : Prop :=
  Stands env s ds modName ∨ Stands env s ds (pad d)

theorem stands_nil : Stands env s [] buf ↔ s.Has buf := by
  simp [Stands]

/-- What stands behind one dependency and everything below it. -/
theorem stands_cons (h : ∀ c, s₁.Has c ↔ s.Has c ∨ c = pad d ∨
      ∃ b ∈ env.deps d, ∃ x, Relation.ReflTransGen (Edge env.deps) b x ∧ c = pad x) :
    Stands env s₁ ds buf ↔ Stands env s (d :: ds) buf := by
  have hreach : (∃ x, Relation.ReflTransGen (Edge env.deps) d x ∧ buf = pad x) ↔ buf = pad d ∨
      ∃ b ∈ env.deps d, ∃ x, Relation.ReflTransGen (Edge env.deps) b x ∧ buf = pad x := by
    constructor
    · rintro ⟨x, hx, rfl⟩
      rcases Relation.ReflTransGen.cases_head hx with rfl | ⟨b, hb, hbx⟩
      · exact .inl rfl
      · exact .inr ⟨b, hb, x, hbx, rfl⟩
    · rintro (rfl | ⟨b, hb, x, hbx, rfl⟩)
      · exact ⟨d, .refl, rfl⟩
      · exact ⟨x, .head hb hbx, rfl⟩
  rw [Stands, Stands, h, List.exists_mem_cons_iff, hreach, or_assoc]

theorem Walks.has (h : Walks env n modName ds s s') :
    ∀ c, s'.Has c ↔ Stands env s ds c := by
  induction h with
  | nil => exact fun c => stands_nil.symm
  | cons hd henters _ _ hload _ ihbelow ihrest =>
      intro c
      rw [ihrest]
      apply stands_cons
      intro c
      rw [has_loadFirst hload, ihbelow, Stands, has_enter hd henters.enter, or_assoc]

/-- What is walked along behind a walk. -/
theorem Walks.stands_append {before : List (List Char)}
    (h : Walks env n modName before s s₁) :
    Stands env s₁ ds buf ↔ Stands env s (before ++ ds) buf := by
  simp only [Stands, h.has, List.mem_append, or_and_right, exists_or, or_assoc]

/-- All that a walk has passed could be entered when it came there. -/
theorem Walks.entered (h : Walks env n modName ds s s') : ∀ before d after,
    ds = before ++ d :: after → Entered env s modName before d := by
  induction h with
  | nil =>
      intro before d after h
      cases before with
      | nil => cases h
      | cons b before => cases h
  | cons hd henters hend hbelow hload _ _ ihrest =>
      intro before b after hsplit
      cases before with
      | nil =>
          obtain ⟨rfl, rfl⟩ := List.cons.inj hsplit
          rw [Entered, stands_nil, stands_nil, ← enter_isSome hd, henters.enter]
          rfl
      | cons c before =>
          obtain ⟨rfl, htail⟩ := List.cons.inj hsplit
          have hfirst := Walks.cons hd henters hend hbelow hload (.nil _ _ _)
          have hrest := ihrest before b after htail
          rw [Entered, hfirst.stands_append, hfirst.stands_append] at hrest
          exact hrest

end Session

end Kylin.Kmod
