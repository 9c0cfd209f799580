import Kylin.Core.Module

/-!
# The order in which modules are loaded

Between two calls every listed module has been handed to `__module_load`, once, after
the modules it depends on.  During a call the same holds for the modules whose own
walk is over; those in whose walk the loader stands are on `stack`.  In a graph without
cycles a walk never comes back to a module on the stack, so the count of such a module
is still one at the end of its own walk, and higher at the end of every later one.

This is what the loader does if `param.mod_name` happens to point to memory that reads
as the name after the copy.  `run_loads_in_order` needs nothing else.

## Main definitions

* `Env.Good` — the assumptions on the modules.
* `Walking` — the state of the loader.
* `Call`, `step`, `Sound` — calls, and the condition on one of them.

## Main results

* `walkEnds` — the walk below a module.
* `run_loads_in_order` — every reachable module is loaded once and after its
  dependencies.
-/

namespace Kylin.Kmod

open Lib Lib.Graph

/-- Dependencies have no cycle, module files exist, names fit and handlers succeed. -/
structure Env.Good (env : Env) : Prop where
  acyclic : Acyclic env.deps
  opens : ∀ m, ∀ d ∈ env.deps m, (env.elfCreate d).isSome
  fits : ∀ m, ∀ d ∈ env.deps m, Fits d
  loaded : ∀ m, env.loaded m = .ok

/-- What a request asks for: a name that fits and a file that opens. -/
def Env.Requested (env : Env) (m : List Char) : Prop := Fits m ∧ (env.elfCreate m).isSome

/-- Only a module with a file depends on anything. -/
theorem Env.mem_files_of_deps {env : Env} {a : List Char} (h : env.deps a ≠ []) :
    a ∈ env.files.map Prod.fst := by
  by_contra hout
  have hnone : env.elfCreate a = none := by
    rw [Env.elfCreate, List.lookup_eq_none_iff]
    intro q hq
    rw [bne_iff_ne]
    rintro rfl
    exact hout (List.mem_map_of_mem hq)
  rw [Env.deps, hnone] at h
  exact h rfl

/-- Ranks of the modules, none higher than the number of files. -/
theorem Env.Good.exists_rank {env : Env} (G : env.Good) : ∃ rank : List Char → ℕ,
    (∀ a, rank a ≤ env.files.length) ∧ ∀ a, ∀ b ∈ env.deps a, rank b < rank a := by
  obtain ⟨rank, hbound, hrank⟩ := G.acyclic.exists_rank fun _ => Env.mem_files_of_deps
  exact ⟨rank, fun a => (hbound a).trans_eq (List.length_map _), hrank⟩

/-- The assumptions, checked file by file with given ranks. -/
theorem Env.good_of_files {env : Env} (rank : List Char → ℕ) (hloaded : ∀ m, env.loaded m = .ok)
    (h : ∀ a ∈ env.files.map Prod.fst, ∀ b ∈ env.deps a,
      rank b < rank a ∧ (env.elfCreate b).isSome ∧ Fits b) : env.Good := by
  have key : ∀ a, ∀ b ∈ env.deps a, rank b < rank a ∧ (env.elfCreate b).isSome ∧ Fits b :=
    fun a b hb => h a (Env.mem_files_of_deps (List.ne_nil_of_mem hb)) b hb
  exact ⟨acyclic_of_rank fun a b hb => (key a b hb).1, fun a b hb => (key a b hb).2.1,
    fun a b hb => (key a b hb).2.2, hloaded⟩

namespace Session

/-- The loader stands in the walks of the modules on `stack`: the other modules of the
list have been loaded, each after what it depends on. -/
structure Walking (env : Env) (s : Session) (stack : List (List Char)) : Prop where
  names : (s.moduleList.map Entry.name).Nodup
  fits : ∀ buf ∈ s.moduleList.map Entry.name, ∃ a, Fits a ∧ buf = pad a
  pos : ∀ x, Fits x → s.Listed x → 0 < s.refs x
  loaded : ∀ x, Fits x → s.Listed x → x ∉ stack → x ∈ s.loads
  closed : ∀ pre x post, s.loads = pre ++ x :: post → ∀ d ∈ env.deps x, d ∈ pre

/-- No module has been loaded twice, and none that is on the stack or not listed. -/
structure Once (s : Session) (stack : List (List Char)) : Prop where
  listed : ∀ x ∈ s.loads, Fits x ∧ s.Listed x ∧ x ∉ stack
  nodup : s.loads.Nodup

theorem walking_create (env : Env) : Walking env create [] where
  names := List.nodup_nil
  fits := fun _ h => by cases h
  pos := fun _ _ h => by cases h
  loaded := fun _ _ h => by cases h
  closed := fun pre x post h => by simp [create] at h

theorem once_create : Once create [] where
  listed := fun _ h => by cases h
  nodup := List.nodup_nil

section Moves
variable {env : Env} {s s' : Session} {stack : List (List Char)} {d : List Char}

/-- A new entry: its module is on the stack. -/
theorem Walking.push (W : Walking env s stack) (hd : Fits d) (hnew : ¬ s.Listed d)
    (hadds : Adds s ⟨pad d, 1⟩ s') : Walking env s' (d :: stack) where
  names := hadds.nodup (Option.not_isSome_iff_eq_none.mp hnew) W.names
  fits := by
    intro buf hbuf
    rcases List.mem_cons.mp ((hadds.perm.map Entry.name).subset hbuf) with rfl | hbuf
    · exact ⟨d, hd, rfl⟩
    · exact W.fits buf hbuf
  pos := by
    intro x hx hl
    rw [hadds.refs_eq hx hd]
    split
    · exact Nat.one_pos
    · next hne => exact W.pos x hx (((hadds.listed_iff hx hd).mp hl).resolve_left hne)
  loaded := by
    intro x hx hl hout
    rw [List.mem_cons, not_or] at hout
    rw [hadds.loads]
    exact W.loaded x hx (((hadds.listed_iff hx hd).mp hl).resolve_left hout.1) hout.2
  closed := by
    rw [hadds.loads]
    exact W.closed

theorem Once.push (O : Once s stack) (hd : Fits d) (hnew : ¬ s.Listed d)
    (hadds : Adds s ⟨pad d, 1⟩ s') : Once s' (d :: stack) where
  listed := by
    intro x hmem
    rw [hadds.loads] at hmem
    obtain ⟨hx, hl, hout⟩ := O.listed x hmem
    refine ⟨hx, (hadds.listed_iff hx hd).mpr (.inr hl), ?_⟩
    rw [List.mem_cons, not_or]
    refine ⟨?_, hout⟩
    rintro rfl
    exact hnew hl
  nodup := by
    rw [hadds.loads]
    exact O.nodup

/-- An entry counted once more. -/
theorem Walking.bump (W : Walking env s stack) (hd : Fits d) (hl : s.Listed d)
    (hfit : s.refs d + 1 < 2 ^ 32) : Walking env (s.bump (pad d)) stack where
  names := by
    rw [names_bump]
    exact W.names
  fits := by
    rw [names_bump]
    exact W.fits
  pos := by
    intro x hx hlx
    rw [refs_bump hx hd hl hfit]
    have := W.pos x hx ((listed_bump hx hd).mp hlx)
    omega
  loaded := by
    intro x hx hlx
    exact W.loaded x hx ((listed_bump hx hd).mp hlx)
  closed := W.closed

theorem Once.bump (O : Once s stack) (hd : Fits d) : Once (s.bump (pad d)) stack where
  listed := by
    intro x hmem
    obtain ⟨hx, hlx, hout⟩ := O.listed x hmem
    exact ⟨hx, (listed_bump hx hd).mpr hlx, hout⟩
  nodup := O.nodup

/-- The end of the first walk of a module: it is loaded. -/
theorem Walking.pop (W : Walking env s (d :: stack)) (hdeps : ∀ c ∈ env.deps d, c ∈ s.loads) :
    Walking env { s with loads := s.loads ++ [d] } stack where
  names := W.names
  fits := W.fits
  pos := W.pos
  loaded := by
    intro x hx hlx hxs
    by_cases hxd : x = d
    · simp [hxd]
    · refine List.mem_append_left _ (W.loaded x hx hlx ?_)
      simp [hxd, hxs]
  closed := by
    intro pre x post h c hc
    rcases List.eq_nil_or_concat post with rfl | ⟨post', z, rfl⟩
    · obtain ⟨hpre, hx⟩ := List.append_inj' h rfl
      obtain rfl := (List.cons.inj hx).1
      rw [← hpre]
      exact hdeps c hc
    · rw [List.concat_eq_append, ← List.cons_append, ← List.append_assoc] at h
      exact W.closed pre x post' (List.append_inj' h rfl).1 c hc

theorem Once.pop (O : Once s (d :: stack)) (hd : Fits d) (hl : s.Listed d) (hout : d ∉ stack) :
    Once { s with loads := s.loads ++ [d] } stack where
  listed := by
    intro x hmem
    rcases List.mem_append.mp hmem with hmem | hmem
    · obtain ⟨hx, hlx, hxs⟩ := O.listed x hmem
      exact ⟨hx, hlx, fun h => hxs (List.mem_cons_of_mem d h)⟩
    · rw [List.mem_singleton] at hmem
      rw [hmem]
      exact ⟨hd, hl, hout⟩
  nodup := by
    rw [List.nodup_append]
    refine ⟨O.nodup, List.nodup_singleton d, ?_⟩
    intro a ha b hb hab
    rw [List.mem_singleton] at hb
    rw [hab, hb] at ha
    exact (O.listed d ha).2.2 List.mem_cons_self

end Moves

/-! ## The walk -/

/-- What a walk that visits the modules of `visited` has done. -/
structure Walked (env : Env) (s s' : Session) (stack visited : List (List Char)) : Prop where
  walking : Walking env s' stack
  once : Once s stack → Once s' stack
  grown : s.loads <+: s'.loads
  refs : ∀ x, Fits x → s'.refs x = s.refs x + visited.count x

variable {env : Env} {s s' s'' : Session} {stack visited visited' : List (List Char)}
  {p d m : List Char}

theorem Walked.refl (W : Walking env s stack) : Walked env s s stack [] :=
  ⟨W, id, List.prefix_rfl, fun _ _ => rfl⟩

theorem Walked.trans (h : Walked env s s' stack visited)
    (h' : Walked env s' s'' stack visited') : Walked env s s'' stack (visited ++ visited') where
  walking := h'.walking
  once := fun O => h'.once (h.once O)
  grown := h.grown.trans h'.grown
  refs := by
    intro x hx
    rw [h'.refs x hx, h.refs x hx, List.count_append, Nat.add_assoc]

theorem Walking.listed_iff (W : Walking env s stack) (hx : Fits d) : s.Listed d ↔ 0 < s.refs d := by
  constructor
  · exact W.pos d hx
  · intro h
    by_contra hl
    rw [refs_eq_zero hl] at h
    exact lt_irrefl _ h

theorem loadFirst_of_ne_one (h : s.refs d ≠ 1) : s.loadFirst env (pad d) = (.ok, s) := by
  rw [loadFirst, if_neg]
  intro hone
  rw [refs, hone] at h
  exact h rfl

theorem loadFirst_of_eq_one (G : env.Good) (hd : Fits d) (h : s.refs d = 1) :
    s.loadFirst env (pad d) = (.ok, { s with loads := s.loads ++ [d] }) := by
  rw [loadFirst, if_pos, moduleLoad, G.loaded, str_pad hd]
  cases hf : s.find (pad d) with
  | none =>
      rw [refs, hf] at h
      cases h
  | some e =>
      rw [refs, hf] at h
      exact congrArg some h

/-- A walk of depth `n` below a module of smaller rank: it ends, having loaded all that
the module depends on. -/
def WalkEnds (env : Env) (rank : List Char → ℕ) (n : ℕ) : Prop :=
  ∀ p s stack symbols, rank p < n → Fits p → env.elfCreate p = some symbols →
    Walking env s stack → s.Listed p →
    (∀ y ∈ stack, Relation.ReflTransGen (Edge env.deps) y p) →
    (∀ x, Fits x → s.refs x + (paths env.deps n p).count x < 2 ^ 32) →
    ∃ s', elfSymbol (dependProcess env n (pad p)) symbols s = .ok (.ok, s') ∧
      Walked env s s' stack (paths env.deps n p) ∧ ∀ d ∈ env.deps p, d ∈ s'.loads

theorem count_visit (x d : List Char) (l : List (List Char)) :
    (d :: l).count x = (if x = d then 1 else 0) + l.count x := by
  rw [List.count_cons, Nat.add_comm]
  by_cases h : x = d
  · simp [h]
  · have h' : ¬ d = x := fun h' => h h'.symm
    simp [h, h']

theorem dependProcess_of_enter {n : ℕ} {symbol : List Char} {symbols : List (List Char)}
    (hp : Fits p) (hd : Fits d) (hdep : dependOf p symbol = some d)
    (henter : s.enter (pad p) d = some s') (hopen : env.elfCreate d = some symbols)
    (hwalk : elfSymbol (dependProcess env n (pad d)) symbols s' = .ok (.ok, s'')) :
    dependProcess env (n + 1) (pad p) s symbol = .ok (s''.loadFirst env (pad d)) := by
  have hlt : ¬ nameLength ≤ d.length := Nat.not_le.mpr hd.1
  simp only [dependProcess, str_pad hp, hdep, if_neg hlt, henter, hopen, hwalk]
  rfl

/-- A dependency that has an entry is counted once more and not loaded again. -/
theorem dependProcess_listed {rank : List Char → ℕ} {n : ℕ} {symbol : List Char}
    {symbols : List (List Char)} (ih : WalkEnds env rank n)
    (hp : Fits p) (hd : Fits d) (hdep : dependOf p symbol = some d)
    (hopen : env.elfCreate d = some symbols) (hrank : rank d < n) (W : Walking env s stack)
    (hreach : ∀ y ∈ stack, Relation.ReflTransGen (Edge env.deps) y d) (hout : d ∉ stack)
    (hfit : ∀ x, Fits x → s.refs x + (d :: paths env.deps n d).count x < 2 ^ 32)
    (hl : s.Listed d) :
    ∃ s', dependProcess env (n + 1) (pad p) s symbol = .ok (.ok, s') ∧
      Walked env s s' stack (d :: paths env.deps n d) ∧ d ∈ s'.loads := by
  have hcount : s.refs d + 1 < 2 ^ 32 := by
    have := hfit d hd
    rw [List.count_cons_self] at this
    omega
  have hrefs : ∀ x, Fits x → (s.bump (pad d)).refs x = s.refs x + if x = d then 1 else 0 :=
    fun x hx => refs_bump hx hd hl hcount
  obtain ⟨s', hwalk, h, -⟩ := ih d (s.bump (pad d)) stack symbols hrank hd hopen
    (W.bump hd hl hcount) ((listed_bump hd hd).mpr hl) hreach (by
      intro x hx
      have := hfit x hx
      rw [count_visit] at this
      rw [hrefs x hx]
      omega)
  have henter : s.enter (pad p) d = some (s.bump (pad d)) := if_pos ((exist_iff hd).mpr hl)
  refine ⟨s', ?_, ⟨h.walking, fun O => h.once (O.bump hd), h.grown, ?_⟩, ?_⟩
  · rw [dependProcess_of_enter hp hd hdep henter hopen hwalk, loadFirst_of_ne_one]
    have hpos := W.pos d hd hl
    rw [h.refs d hd, hrefs d hd, if_pos rfl]
    omega
  · intro x hx
    rw [h.refs x hx, hrefs x hx, count_visit, Nat.add_assoc]
  · exact h.grown.subset (W.loaded d hd hl hout)

/-- A dependency without an entry gets one, and is loaded after its own walk. -/
theorem dependProcess_new {rank : List Char → ℕ} {n : ℕ} {symbol : List Char}
    {symbols : List (List Char)} (G : env.Good) (ih : WalkEnds env rank n)
    (hp : Fits p) (hd : Fits d) (hdep : dependOf p symbol = some d)
    (hopen : env.elfCreate d = some symbols) (hrank : rank d < n) (W : Walking env s stack)
    (hreach : ∀ y ∈ stack, Relation.ReflTransGen (Edge env.deps) y d) (hout : d ∉ stack)
    (hfit : ∀ x, Fits x → s.refs x + (d :: paths env.deps n d).count x < 2 ^ 32)
    (hlp : s.Listed p) (hl : ¬ s.Listed d) :
    ∃ s', dependProcess env (n + 1) (pad p) s symbol = .ok (.ok, s') ∧
      Walked env s s' stack (d :: paths env.deps n d) ∧ d ∈ s'.loads := by
  obtain ⟨s₁, hins⟩ := Option.isSome_iff_exists.mp
    ((insertBefore_isSome s (pad p) ⟨pad d, 1⟩).mpr hlp)
  have hadds : Adds s ⟨pad d, 1⟩ s₁ :=
    adds_insertBefore hins (Option.not_isSome_iff_eq_none.mp hl)
  have hrefs := hadds.refs_add hd hl
  have W₁ := W.push hd hl hadds
  have hl₁ : s₁.Listed d := (hadds.listed_iff hd hd).mpr (.inl rfl)
  have hreach₁ : ∀ y ∈ d :: stack, Relation.ReflTransGen (Edge env.deps) y d := by
    intro y hy
    rcases List.mem_cons.mp hy with rfl | hy
    · exact .refl
    · exact hreach y hy
  obtain ⟨s₂, hwalk, h, hdeps⟩ := ih d s₁ (d :: stack) symbols hrank hd hopen W₁ hl₁ hreach₁ (by
    intro x hx
    have := hfit x hx
    rw [count_visit] at this
    rw [hrefs x hx]
    omega)
  have henter : s.enter (pad p) d = some s₁ := by
    rw [enter, if_neg (mt (exist_iff hd).mp hl)]
    exact hins
  -- the walk below `d` does not come back to it
  have hone : s₂.refs d = 1 := by
    have hnot : d ∉ paths env.deps n d := fun hmem => G.acyclic d (transGen_of_mem_paths hmem)
    rw [h.refs d hd, hrefs d hd, refs_eq_zero hl, if_pos rfl, List.count_eq_zero.mpr hnot]
  have hl₂ : s₂.Listed d := (h.walking.listed_iff hd).mpr (by omega)
  refine ⟨{ s₂ with loads := s₂.loads ++ [d] }, ?_,
    ⟨h.walking.pop hdeps, fun O => (h.once (O.push hd hl hadds)).pop hd hl₂ hout, ?_, ?_⟩, ?_⟩
  · rw [dependProcess_of_enter hp hd hdep henter hopen hwalk, loadFirst_of_eq_one G hd hone]
  · rw [← hadds.loads]
    exact h.grown.trans (List.prefix_append _ _)
  · intro x hx
    change s₂.refs x = _
    rw [h.refs x hx, hrefs x hx, count_visit, Nat.add_assoc]
  · exact List.mem_append_right _ (List.mem_singleton.mpr rfl)

/-- **One dependency.**  It is loaded afterwards, and every module has been counted once
for each path to it. -/
theorem dependProcess_spec {rank : List Char → ℕ} {n : ℕ} {symbol : List Char} (G : env.Good)
    (ih : WalkEnds env rank n) (hp : Fits p) (hpd : d ∈ env.deps p)
    (hdep : dependOf p symbol = some d) (hrank : rank d < n) (W : Walking env s stack)
    (hreach : ∀ y ∈ stack, Relation.ReflTransGen (Edge env.deps) y p)
    (hfit : ∀ x, Fits x → s.refs x + (d :: paths env.deps n d).count x < 2 ^ 32)
    (hlp : s.Listed p) :
    ∃ s', dependProcess env (n + 1) (pad p) s symbol = .ok (.ok, s') ∧
      Walked env s s' stack (d :: paths env.deps n d) ∧ d ∈ s'.loads := by
  have hd := G.fits p d hpd
  obtain ⟨symbols, hopen⟩ := Option.isSome_iff_exists.mp (G.opens p d hpd)
  have hedge : Edge env.deps p d := hpd
  have hreach' : ∀ y ∈ stack, Relation.ReflTransGen (Edge env.deps) y d :=
    fun y hy => (hreach y hy).tail hedge
  have hout : d ∉ stack := fun hmem => G.acyclic d (.tail' (hreach d hmem) hedge)
  by_cases hl : s.Listed d
  · exact dependProcess_listed ih hp hd hdep hopen hrank W hreach' hout hfit hl
  · exact dependProcess_new G ih hp hd hdep hopen hrank W hreach' hout hfit hlp hl

/-- A symbol that names no dependency is passed over. -/
theorem dependProcess_none {n : ℕ} {symbol : List Char} (hp : Fits p)
    (hdep : dependOf p symbol = none) :
    dependProcess env (n + 1) (pad p) s symbol = .ok (.ok, s) := by
  simp only [dependProcess, str_pad hp, hdep]

/-- What a walk of depth `n + 1` visits for these symbols of a module. -/
def visits (env : Env) (n : ℕ) (p : List Char) (symbols : List (List Char)) : List (List Char) :=
  (symbols.filterMap (dependOf p)).flatMap fun d => d :: paths env.deps n d

theorem visits_cons_none {n : ℕ} {symbol : List Char} (hdep : dependOf p symbol = none)
    (rest : List (List Char)) : visits env n p (symbol :: rest) = visits env n p rest := by
  rw [visits, List.filterMap_cons_none hdep]
  rfl

theorem visits_cons_some {n : ℕ} {symbol : List Char} (hdep : dependOf p symbol = some d)
    (rest : List (List Char)) :
    visits env n p (symbol :: rest) = (d :: paths env.deps n d) ++ visits env n p rest := by
  rw [visits, List.filterMap_cons_some hdep, List.flatMap_cons]
  rfl

/-- The walk for a rest of the symbols of a module, by induction on this rest. -/
theorem elfSymbol_spec {rank : List Char → ℕ} {n : ℕ} (G : env.Good) (ih : WalkEnds env rank n)
    (hp : Fits p) (hrank : ∀ d ∈ env.deps p, rank d < n)
    (hreach : ∀ y ∈ stack, Relation.ReflTransGen (Edge env.deps) y p)
    {rest : List (List Char)} (hsub : ∀ d ∈ rest.filterMap (dependOf p), d ∈ env.deps p)
    (W : Walking env s stack) (hl : s.Listed p)
    (hfit : ∀ x, Fits x → s.refs x + (visits env n p rest).count x < 2 ^ 32) :
    ∃ s', elfSymbol (dependProcess env (n + 1) (pad p)) rest s = .ok (.ok, s') ∧
      Walked env s s' stack (visits env n p rest) ∧
      ∀ d ∈ rest.filterMap (dependOf p), d ∈ s'.loads := by
  induction rest generalizing s with
  | nil => exact ⟨s, rfl, .refl W, fun _ h => by cases h⟩
  | cons symbol rest ihrest =>
      cases hdep : dependOf p symbol with
      | none =>
          rw [visits_cons_none hdep] at hfit ⊢
          rw [List.filterMap_cons_none hdep] at hsub ⊢
          obtain ⟨s', hwalk, h, hloaded⟩ := ihrest hsub W hl hfit
          refine ⟨s', ?_, h, hloaded⟩
          rw [elfSymbol, dependProcess_none hp hdep]
          exact hwalk
      | some d =>
          rw [visits_cons_some hdep] at hfit ⊢
          rw [List.filterMap_cons_some hdep] at hsub ⊢
          have hpd : d ∈ env.deps p := hsub d List.mem_cons_self
          have hfit₁ : ∀ x, Fits x → s.refs x + (d :: paths env.deps n d).count x < 2 ^ 32 := by
            intro x hx
            have := hfit x hx
            rw [List.count_append] at this
            omega
          obtain ⟨s₁, hproc, h₁, hd₁⟩ :=
            dependProcess_spec G ih hp hpd hdep (hrank d hpd) W hreach hfit₁ hl
          have hl₁ : s₁.Listed p := by
            rw [h₁.walking.listed_iff hp, h₁.refs p hp]
            have := W.pos p hp hl
            omega
          have hfit₂ : ∀ x, Fits x → s₁.refs x + (visits env n p rest).count x < 2 ^ 32 := by
            intro x hx
            have := hfit x hx
            rw [List.count_append] at this
            rw [h₁.refs x hx]
            omega
          obtain ⟨s', hwalk, h, hloaded⟩ :=
            ihrest (fun c hc => hsub c (List.mem_cons_of_mem d hc)) h₁.walking hl₁ hfit₂
          refine ⟨s', ?_, h₁.trans h, ?_⟩
          · rw [elfSymbol, hproc]
            exact hwalk
          · intro c hc
            rcases List.mem_cons.mp hc with rfl | hc
            · exact h.grown.subset hd₁
            · exact hloaded c hc

/-- **The walk below a module**, by induction on its depth. -/
theorem walkEnds (G : env.Good) {rank : List Char → ℕ}
    (hrank : ∀ a, ∀ b ∈ env.deps a, rank b < rank a) : ∀ n, WalkEnds env rank n := by
  intro n
  induction n with
  | zero =>
      intro p s stack symbols h
      exact absurd h (Nat.not_lt_zero _)
  | succ n ih =>
      intro p s stack symbols hn hp hopen W hl hreach hfit
      have hdeps : env.deps p = symbols.filterMap (dependOf p) := by
        rw [Env.deps, hopen]
        rfl
      have hvisits : paths env.deps (n + 1) p = visits env n p symbols := by
        rw [visits, ← hdeps]
        rfl
      have hlt : ∀ d ∈ env.deps p, rank d < n := fun d hd =>
        Nat.lt_of_lt_of_le (hrank p d hd) (Nat.lt_succ_iff.mp hn)
      rw [hvisits] at hfit ⊢
      rw [hdeps]
      exact elfSymbol_spec G ih hp hlt hreach (fun d hd => hdeps ▸ hd) W hl hfit

/-! ## Calls -/

/-- `param.mod_name` points to a name buffer that is zero after the first bytes, as
many as the name has. -/
def Zeroed (stack : Option (List Char)) (m : List Char) : Prop :=
  ∃ buf, stack = some buf ∧ buf.length = nameLength ∧ ∀ c ∈ buf.drop m.length, c = nul

/-- A buffer of zeros takes every name. -/
theorem zeroed_pad_nil (m : List Char) : Zeroed (some (pad [])) m := by
  refine ⟨pad [], rfl, rfl, ?_⟩
  intro c hc
  exact List.eq_of_mem_replicate (List.mem_of_mem_drop hc)

theorem Zeroed.copyName_eq {buf m : List Char} (hm : Fits m) (hlen : buf.length = nameLength)
    (hzero : ∀ c ∈ buf.drop m.length, c = nul) : copyName buf m = pad m := by
  rw [copyName, take_name hm, pad, ← hlen, ← List.length_drop]
  exact congrArg (m ++ ·) (List.eq_replicate_of_mem hzero)

/-- Loading a module with an entry does nothing. -/
theorem load_listed (hm : Fits m) (hl : s.Listed m) (stack : Option (List Char)) :
    s.load env m stack = .ok (.exist, s) :=
  if_pos ((exist_iff hm).mpr hl)

/-- **Loading a module** without an entry, with the modules below it. -/
theorem load_new {stack : Option (List Char)} (G : env.Good) (W : Walking env s [])
    (hm : env.Requested m) (hl : ¬ s.Listed m) (hz : Zeroed stack m)
    (hfit : ∀ x, Fits x →
      s.refs x + (m :: paths env.deps (env.files.length + 1) m).count x < 2 ^ 32) :
    ∃ s', s.load env m stack = .ok (.ok, s') ∧
      Walked env s s' [] (m :: paths env.deps (env.files.length + 1) m) ∧ m ∈ s'.loads := by
  obtain ⟨hm, hopen⟩ := hm
  obtain ⟨symbols, hopen⟩ := Option.isSome_iff_exists.mp hopen
  obtain ⟨buf, rfl, hlen, hzero⟩ := hz
  obtain ⟨rank, hbound, hrank⟩ := G.exists_rank
  have hadds : Adds s ⟨pad m, 1⟩ (s.insertTail ⟨pad m, 1⟩) :=
    adds_insertTail (Option.not_isSome_iff_eq_none.mp hl)
  have hl₁ : (s.insertTail ⟨pad m, 1⟩).Listed m := (hadds.listed_iff hm hm).mpr (.inl rfl)
  have hrefs := hadds.refs_add hm hl
  obtain ⟨s₂, hwalk, h, hdeps⟩ := walkEnds G hrank (env.files.length + 1) m _ [m] symbols
    (Nat.lt_succ_of_le (hbound m)) hm hopen (W.push hm hl hadds) hl₁ (by
      intro y hy
      rw [List.mem_singleton.mp hy]) (by
      intro x hx
      have := hfit x hx
      rw [count_visit] at this
      rw [hrefs x hx]
      omega)
  have hone : s₂.refs m = 1 := by
    have hnot : m ∉ paths env.deps (env.files.length + 1) m :=
      fun hmem => G.acyclic m (transGen_of_mem_paths hmem)
    rw [h.refs m hm, hrefs m hm, refs_eq_zero hl, if_pos rfl, List.count_eq_zero.mpr hnot]
  have hl₂ : s₂.Listed m := (h.walking.listed_iff hm).mpr (by omega)
  refine ⟨{ s₂ with loads := s₂.loads ++ [m] }, ?_,
    ⟨h.walking.pop hdeps,
      fun O => (h.once (O.push hm hl hadds)).pop hm hl₂ List.not_mem_nil, ?_, ?_⟩, ?_⟩
  · have hexist : ¬ s.exist m = true := mt (exist_iff hm).mp hl
    simp only [load, if_neg hexist, take_name hm, hopen, Zeroed.copyName_eq hm hlen hzero, hwalk]
    change Except.ok (s₂.loadFirst env (pad m)) = _
    rw [loadFirst_of_eq_one G hm hone]
  · exact h.grown.trans (List.prefix_append _ _)
  · intro x hx
    change s₂.refs x = _
    rw [h.refs x hx, hrefs x hx, count_visit, Nat.add_assoc]
  · exact List.mem_append_right _ (List.mem_singleton.mpr rfl)

/-! ## Runs -/

/-- The dependency paths a call walks along. -/
def walked (env : Env) (s : Session) : Call → ℕ
  | .load m _ => if s.exist m then 0 else (paths env.deps (env.files.length + 1) m).length
  | .unload _ => 0

/-- The dependency paths walked along in a run. -/
def pathsWalked (env : Env) (tr : List (Step Session Call Kerr)) : ℕ :=
  (tr.map fun e => walked env e.before e.call).sum

/-- Requests to load a module, for which `param.mod_name` takes the name. -/
def Sound (env : Env) (s : Session) : Call → Prop
  | .load m stack => env.Requested m ∧ (¬ s.Listed m → Zeroed stack m)
  | .unload _ => False

/-- What holds after a run that has walked along `n` paths and was asked for the modules
of `requested`. -/
structure Loaded (env : Env) (s : Session) (n : ℕ) (requested : List Char → Prop) : Prop where
  walking : Walking env s []
  once : Once s []
  bound : ∀ x, Fits x → s.refs x ≤ n + 1
  requested : ∀ m, requested m → m ∈ s.loads

/-- One call of a run. -/
theorem Loaded.step {n : ℕ} {requested : List Char → Prop} {stack : Option (List Char)}
    (G : env.Good) (h : Loaded env s n requested) (hc : Sound env s (.load m stack))
    (hn : n + walked env s (.load m stack) + 1 < 2 ^ 32) :
    ∃ ret s', Session.step env s (.load m stack) = some (ret, s') ∧
      Loaded env s' (n + walked env s (.load m stack)) fun m' => requested m' ∨ m' = m := by
  obtain ⟨hm, hz⟩ := hc
  by_cases hl : s.Listed m
  · have hexist := (exist_iff hm.1).mpr hl
    have hzero : walked env s (.load m stack) = 0 := if_pos hexist
    refine ⟨.exist, s, by rw [Session.step, load_listed hm.1 hl]; rfl, h.walking, h.once, ?_, ?_⟩
    · rw [hzero]
      exact h.bound
    · rintro m' (hm' | rfl)
      · exact h.requested m' hm'
      · exact h.walking.loaded m' hm.1 hl List.not_mem_nil
  · have hwalked : walked env s (.load m stack) =
        (paths env.deps (env.files.length + 1) m).length :=
      if_neg (mt (exist_iff hm.1).mp hl)
    rw [hwalked] at hn ⊢
    have hbound : ∀ x, Fits x →
        s.refs x + (m :: paths env.deps (env.files.length + 1) m).count x ≤
          n + (paths env.deps (env.files.length + 1) m).length + 1 := by
      intro x hx
      have hcount := List.count_le_length (a := x) (l := paths env.deps (env.files.length + 1) m)
      have hold := h.bound x hx
      rw [count_visit]
      by_cases hxm : x = m
      · rw [if_pos hxm, hxm, refs_eq_zero hl]
        rw [hxm] at hcount
        omega
      · rw [if_neg hxm]
        omega
    obtain ⟨s', hload, h', hmem⟩ := load_new G h.walking hm hl (hz hl)
      fun x hx => (hbound x hx).trans_lt hn
    refine ⟨.ok, s', by rw [Session.step, hload]; rfl, h'.walking, h'.once h.once, ?_, ?_⟩
    · intro x hx
      rw [h'.refs x hx]
      exact hbound x hx
    · rintro m' (hm' | rfl)
      · exact h'.grown.subset (h.requested m' hm')
      · exact hmem

/-- The requests of a run. -/
def requests (tr : List (Step Session Call Kerr)) (m : List Char) : Prop :=
  ∃ e ∈ tr, ∃ stack, e.call = .load m stack

theorem run_loaded {tr : List (Step Session Call Kerr)} (G : env.Good)
    (hrun : Run (Session.step env) (Sound env) create tr s)
    (hpaths : pathsWalked env tr + 1 < 2 ^ 32) :
    Loaded env s (pathsWalked env tr) (requests tr) := by
  induction hrun with
  | nil =>
      refine ⟨walking_create env, once_create, fun x _ => Nat.zero_le _, ?_⟩
      rintro m ⟨e, he, -⟩
      cases he
  | @snoc tr s c ret s' hrun hc hstep ih =>
      have hsum : pathsWalked env (tr ++ [⟨s, c, ret, s'⟩]) =
          pathsWalked env tr + walked env s c := by
        simp [pathsWalked]
      rw [hsum] at hpaths ⊢
      cases c with
      | unload m => exact hc.elim
      | load m stack =>
          have hold := ih (by omega)
          obtain ⟨ret', s'', hstep', h⟩ := hold.step G hc hpaths
          rw [hstep] at hstep'
          obtain ⟨-, rfl⟩ := Prod.mk.inj (Option.some.inj hstep')
          refine ⟨h.walking, h.once, h.bound, ?_⟩
          rintro m' ⟨e, he, stack', hcall⟩
          apply h.requested
          rcases List.mem_append.mp he with he | he
          · exact .inl ⟨e, he, stack', hcall⟩
          · rw [List.mem_singleton.mp he] at hcall
            exact .inr (Call.load.inj hcall).1.symm

/-- What a loaded module depends on, directly or not, was loaded before it. -/
theorem Walking.before {x : List Char} (W : Walking env s []) {pre post : List (List Char)}
    (h : s.loads = pre ++ x :: post) (hd : Relation.TransGen (Edge env.deps) x d) : d ∈ pre := by
  induction hd with
  | single hd => exact W.closed pre x post h _ hd
  | @tail c d _ hcd ih =>
      obtain ⟨pre₁, pre₂, rfl⟩ := List.append_of_mem ih
      have hc : d ∈ pre₁ := by
        refine W.closed pre₁ c (pre₂ ++ x :: post) ?_ d hcd
        rw [h, List.append_assoc]
        rfl
      exact List.mem_append_left _ hc

/-- **Modules are loaded once and in order.**  Over every run of requests, walking along
fewer than `2 ^ 32 - 1` dependency paths, in which `param.mod_name` takes the names:
every module that can be reached from a requested one has been loaded exactly once, and
after every module it depends on.  And every further such request returns. -/
theorem run_loads_in_order {tr : List (Step Session Call Kerr)} (G : env.Good)
    (hrun : Run (Session.step env) (Sound env) create tr s)
    (hpaths : pathsWalked env tr < 2 ^ 32 - 1) :
    (∀ m, requests tr m → ∀ x, Relation.ReflTransGen (Edge env.deps) m x →
      s.loads.count x = 1 ∧ ∀ pre post, s.loads = pre ++ x :: post →
        ∀ d, Relation.TransGen (Edge env.deps) x d → d ∈ pre) ∧
      ∀ c, Sound env s c → pathsWalked env tr + walked env s c < 2 ^ 32 - 1 →
        (Session.step env s c).isSome := by
  have h := run_loaded G hrun (by omega)
  refine ⟨?_, ?_⟩
  · intro m hm x hx
    refine ⟨?_, fun pre post hloads d hd => h.walking.before hloads hd⟩
    apply List.count_eq_one_of_mem h.once.nodup
    rcases Relation.reflTransGen_iff_eq_or_transGen.mp hx with rfl | hx
    · exact h.requested x hm
    · obtain ⟨pre, post, hloads⟩ := List.append_of_mem (h.requested m hm)
      rw [hloads]
      exact List.mem_append_left _ (h.walking.before hloads hx)
  · intro c hc hn
    cases c with
    | unload m => exact hc.elim
    | load m stack =>
        obtain ⟨ret, s', hstep, -⟩ := h.step G hc (by omega)
        rw [hstep]
        rfl

/-- Modules `a`, `b`, `c` and `d`, where `a` depends on `b` and `c`, and both depend on
`d`. -/
def diamond : Env where
  files :=
    [(['a'], ["a_depend_on_b".toList, "main".toList, "a_depend_on_c".toList]),
      (['b'], ["b_depend_on_d".toList]), (['c'], ["c_depend_on_d".toList]), (['d'], [])]
  loaded := fun _ => .ok
  unloaded := fun _ => .ok

theorem diamond_good : diamond.Good :=
  Env.good_of_files (fun m => if m = ['a'] then 2 else if m = ['d'] then 0 else 1) (fun _ => rfl)
    (by decide +kernel)

/-- The bottom of the diamond is requested first, then its top. -/
theorem run_loads_in_order_diamond :
    ∃ tr s, Run (Session.step diamond) (Sound diamond) create tr s ∧
      pathsWalked diamond tr = 4 ∧ s.loads = [['d'], ['b'], ['c'], ['a']] ∧
      s.loads.count ['d'] = 1 := by
  let s₁ : Session := ⟨[⟨pad ['d'], 1⟩], [['d']]⟩
  let s₂ : Session :=
    ⟨[⟨pad ['d'], 3⟩, ⟨pad ['b'], 1⟩, ⟨pad ['c'], 1⟩, ⟨pad ['a'], 1⟩],
      [['d'], ['b'], ['c'], ['a']]⟩
  have hstep₁ : Session.step diamond create (.load ['d'] (some (pad []))) = some (.ok, s₁) := by
    decide +kernel
  have hstep₂ : Session.step diamond s₁ (.load ['a'] (some (pad []))) = some (.ok, s₂) := by
    decide +kernel
  have hrun : Run (Session.step diamond) (Sound diamond) create
      [⟨create, .load ['d'] (some (pad [])), .ok, s₁⟩,
        ⟨s₁, .load ['a'] (some (pad [])), .ok, s₂⟩] s₂ := by
    refine (Run.nil.snoc ⟨⟨by decide, by decide +kernel⟩, fun _ => zeroed_pad_nil _⟩ hstep₁).snoc
      ⟨⟨by decide, by decide +kernel⟩, fun _ => zeroed_pad_nil _⟩ hstep₂
  have hwalked : pathsWalked diamond [⟨create, .load ['d'] (some (pad [])), .ok, s₁⟩,
      ⟨s₁, .load ['a'] (some (pad [])), .ok, s₂⟩] = 4 := by
    decide +kernel
  have horder := (run_loads_in_order diamond_good hrun (by rw [hwalked]; decide)).1 ['d']
    ⟨_, List.mem_cons_self, _, rfl⟩ ['d'] .refl
  exact ⟨_, s₂, hrun, hwalked, rfl, horder.1⟩

/-- The byte after the name at `param.mod_name` is not zero: the symbols of `a` are not
recognised, and `a` is loaded without what it depends on. -/
theorem load_without_dependency :
    diamond.Good ∧ diamond.Requested ['a'] ∧ ∃ s,
      Session.step diamond create (.load ['a'] (some (pad ['q', 'x']))) = some (.ok, s) ∧
      Relation.TransGen (Edge diamond.deps) ['a'] ['b'] ∧ s.loads = [['a']] := by
  refine ⟨diamond_good, ⟨by decide, by decide +kernel⟩, ⟨[⟨pad ['a'], 1⟩], [['a']]⟩,
    by decide +kernel, ?_, rfl⟩
  have hedge : Edge diamond.deps ['a'] ['b'] := by
    rw [Edge]
    decide +kernel
  exact .single hedge

end Session

end Kylin.Kmod
