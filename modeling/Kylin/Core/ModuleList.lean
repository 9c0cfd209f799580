import Kylin.Core.ModuleOrder

/-!
# The order of the list of modules

A dependency is put before the module in whose walk it is found.  That module is the first one in
the list that is not loaded yet, so the list is in the order in which the modules were loaded, with
those of the stack behind them.

## Main definitions

* `Tidy` — a list in this order.
* `WalkTidies` — walks that keep it.

## Main results

* `walkTidies` — the walk below a module.
* `Tidy.load` — loading a module.
-/

namespace Kylin.Kmod

open Lib Lib.Graph

namespace Session

/-- The list is that of the modules that are loaded, in this order, with those of the stack
behind them. -/
def Tidy (s : Session) (stack : List (List Char)) : Prop :=
  s.moduleList.map Entry.name = (s.loads ++ stack).map pad

variable {env : Env} {s s' s₁ : Session} {stack : List (List Char)} {p d m : List Char}
  {new : Entry}

theorem Tidy.listed (T : Tidy s stack) (hd : d ∈ s.loads) : s.Listed d := by
  have hmem : pad d ∈ s.moduleList.map Entry.name := by
    rw [T]
    exact List.mem_map_of_mem (List.mem_append_left _ hd)
  obtain ⟨e, he, hname⟩ := List.mem_map.mp hmem
  rw [Listed, find, List.find?_isSome]
  exact ⟨e, he, decide_eq_true hname⟩

/-- The list with an entry before another one. -/
theorem names_insertBefore {after : List Char} {a b : List (List Char)}
    (h : s.insertBefore after new = some s')
    (hlist : s.moduleList.map Entry.name = a ++ after :: b) (hout : after ∉ a) :
    s'.moduleList.map Entry.name = a ++ new.name :: after :: b := by
  have key : ∀ (l l' : List Entry) (a : List (List Char)), insertBeforeList after new l = some l' →
      l.map Entry.name = a ++ after :: b → after ∉ a →
      l'.map Entry.name = a ++ new.name :: after :: b := by
    intro l
    induction l with
    | nil =>
        intro l' a h
        cases h
    | cons e l ih =>
        intro l' a h hlist hout
        rw [insertBeforeList] at h
        cases a with
        | nil =>
            obtain ⟨hname, hrest⟩ := List.cons.inj hlist
            rw [if_pos hname] at h
            obtain rfl := Option.some.inj h
            rw [List.map_cons, List.map_cons, hname, hrest]
            rfl
        | cons c a =>
            obtain ⟨hname, hrest⟩ := List.cons.inj hlist
            rw [List.mem_cons, not_or] at hout
            have hne : ¬ e.name = after := fun he => hout.1 (he.symm.trans hname)
            rw [if_neg hne] at h
            obtain ⟨l₁, hl₁, rfl⟩ := Option.map_eq_some_iff.mp h
            rw [List.map_cons, ih l₁ a hl₁ hrest hout.2, hname]
            rfl
  obtain ⟨l', hl', rfl⟩ := Option.map_eq_some_iff.mp h
  exact key s.moduleList l' a hl' hlist hout

theorem Tidy.bump (T : Tidy s stack) (buf : List Char) : Tidy (s.bump buf) stack := by
  rw [Tidy, names_bump]
  exact T

/-- A new entry goes before the module that needs it, which is on top of the stack. -/
theorem Tidy.push (T : Tidy s (p :: stack)) (W : Walking env s (p :: stack))
    (hins : s.insertBefore (pad p) ⟨pad d, 1⟩ = some s') (hloads : s'.loads = s.loads) :
    Tidy s' (d :: p :: stack) := by
  have hlist : s.moduleList.map Entry.name = s.loads.map pad ++ pad p :: stack.map pad := by
    rw [T, List.map_append, List.map_cons]
  have hout : pad p ∉ s.loads.map pad := by
    have hnodup := W.names
    rw [hlist] at hnodup
    exact fun hmem => List.disjoint_of_nodup_append hnodup hmem List.mem_cons_self
  rw [Tidy, names_insertBefore hins hlist hout, hloads]
  simp

/-- The module on top of the stack is loaded. -/
theorem Tidy.pop (T : Tidy s (d :: stack)) : Tidy { s with loads := s.loads ++ [d] } stack := by
  rw [Tidy, List.append_assoc]
  exact T

/-- Walks of depth `n` keep the order, below the module on top of the stack and below one that
depends on nothing that is not loaded. -/
def WalkTidies (env : Env) (rank : List Char → ℕ) (n : ℕ) : Prop :=
  ∀ p s stack symbols s', rank p < n → Fits p → env.elfCreate p = some symbols →
    Walking env s stack → s.Listed p →
    (∀ y ∈ stack, Relation.ReflTransGen (Edge env.deps) y p) →
    (∀ x, Fits x → s.refs x + (paths env.deps n p).count x < 2 ^ 32) →
    Tidy s stack → (stack.head? = some p ∨ ∀ d ∈ env.deps p, d ∈ s.loads) →
    elfSymbol (dependProcess env n (pad p)) symbols s = .ok (.ok, s') → Tidy s' stack

section Visits
variable {rank : List Char → ℕ} {n : ℕ} {symbol : List Char} {symbols : List (List Char)}

/-- One dependency that has an entry: nothing is inserted below it. -/
theorem Tidy.dependProcess_listed (G : env.Good)
    (hranks : ∀ a, ∀ b ∈ env.deps a, rank b < rank a) (ih : WalkTidies env rank n) (hp : Fits p)
    (hd : Fits d) (hdep : dependOf p symbol = some d) (hopen : env.elfCreate d = some symbols)
    (hrank : rank d < n) (W : Walking env s stack)
    (hreach : ∀ y ∈ stack, Relation.ReflTransGen (Edge env.deps) y d) (hout : d ∉ stack)
    (hfit : ∀ x, Fits x → s.refs x + (d :: paths env.deps n d).count x < 2 ^ 32)
    (hl : s.Listed d) (T : Tidy s stack)
    (hproc : dependProcess env (n + 1) (pad p) s symbol = .ok (.ok, s')) : Tidy s' stack := by
  have hcount : s.refs d + 1 < 2 ^ 32 := by
    have := hfit d hd
    rw [List.count_cons_self] at this
    omega
  have hrefs : ∀ x, Fits x → (s.bump (pad d)).refs x = s.refs x + if x = d then 1 else 0 :=
    fun x hx => refs_bump hx hd hl hcount
  have hfit' : ∀ x, Fits x → (s.bump (pad d)).refs x + (paths env.deps n d).count x < 2 ^ 32 := by
    intro x hx
    have := hfit x hx
    rw [count_visit] at this
    rw [hrefs x hx]
    omega
  have W' : Walking env (s.bump (pad d)) stack := W.bump hd hl hcount
  have hl' : (s.bump (pad d)).Listed d := (listed_bump hd hd).mpr hl
  obtain ⟨s₂, hwalk, h, -⟩ :=
    walkEnds G hranks n d _ stack symbols hrank hd hopen W' hl' hreach hfit'
  have hloaded : ∀ c ∈ env.deps d, c ∈ s.loads := by
    obtain ⟨pre, post, hsplit⟩ := List.append_of_mem (W.loaded d hd hl hout)
    intro c hc
    rw [hsplit]
    exact List.mem_append_left _ (W.closed pre d post hsplit c hc)
  have T₂ : Tidy s₂ stack := ih d _ stack symbols s₂ hrank hd hopen W' hl' hreach hfit'
    (T.bump (pad d)) (.inr hloaded) hwalk
  have henter : s.enter (pad p) d = some (s.bump (pad d)) := if_pos ((exist_iff hd).mpr hl)
  have hmore : s₂.refs d ≠ 1 := by
    have hpos := W.pos d hd hl
    rw [h.refs d hd, hrefs d hd, if_pos rfl]
    omega
  rw [dependProcess_of_enter hp hd hdep henter hopen hwalk, loadFirst_of_ne_one hmore] at hproc
  cases hproc
  exact T₂

/-- One dependency that gets its entry, before the module on top of the stack. -/
theorem Tidy.dependProcess_new (G : env.Good)
    (hranks : ∀ a, ∀ b ∈ env.deps a, rank b < rank a) (ih : WalkTidies env rank n) (hp : Fits p)
    (hd : Fits d) (hdep : dependOf p symbol = some d) (hopen : env.elfCreate d = some symbols)
    (hrank : rank d < n) (W : Walking env s (p :: stack))
    (hreach : ∀ y ∈ d :: p :: stack, Relation.ReflTransGen (Edge env.deps) y d)
    (hfit : ∀ x, Fits x → s.refs x + (d :: paths env.deps n d).count x < 2 ^ 32)
    (hlp : s.Listed p) (hl : ¬ s.Listed d) (T : Tidy s (p :: stack))
    (hproc : dependProcess env (n + 1) (pad p) s symbol = .ok (.ok, s')) :
    Tidy s' (p :: stack) := by
  obtain ⟨s₁, hins⟩ := Option.isSome_iff_exists.mp
    ((insertBefore_isSome s (pad p) ⟨pad d, 1⟩).mpr hlp)
  have hadds : Adds s ⟨pad d, 1⟩ s₁ :=
    adds_insertBefore hins (Option.not_isSome_iff_eq_none.mp hl)
  have hrefs := hadds.refs_add hd hl
  have hfit' : ∀ x, Fits x → s₁.refs x + (paths env.deps n d).count x < 2 ^ 32 := by
    intro x hx
    have := hfit x hx
    rw [count_visit] at this
    rw [hrefs x hx]
    omega
  have W' : Walking env s₁ (d :: p :: stack) := W.push hd hl hadds
  have hl' : s₁.Listed d := (hadds.listed_iff hd hd).mpr (.inl rfl)
  obtain ⟨s₂, hwalk, h, -⟩ :=
    walkEnds G hranks n d _ (d :: p :: stack) symbols hrank hd hopen W' hl' hreach hfit'
  have T₂ : Tidy s₂ (d :: p :: stack) := ih d _ _ symbols s₂ hrank hd hopen W' hl' hreach hfit'
    (T.push W hins hadds.loads) (.inl rfl) hwalk
  have henter : s.enter (pad p) d = some s₁ := by
    rw [enter, if_neg (mt (exist_iff hd).mp hl)]
    exact hins
  have hone : s₂.refs d = 1 := by
    have hnot : d ∉ paths env.deps n d := fun hmem => G.acyclic d (transGen_of_mem_paths hmem)
    rw [h.refs d hd, hrefs d hd, refs_eq_zero hl, if_pos rfl, List.count_eq_zero.mpr hnot]
  rw [dependProcess_of_enter hp hd hdep henter hopen hwalk, loadFirst_of_eq_one G hd hone] at hproc
  cases hproc
  exact T₂.pop

/-- One dependency. -/
theorem Tidy.dependProcess (G : env.Good)
    (hranks : ∀ a, ∀ b ∈ env.deps a, rank b < rank a) (ih : WalkTidies env rank n) (hp : Fits p)
    (hpd : d ∈ env.deps p) (hdep : dependOf p symbol = some d) (hrank : rank d < n)
    (W : Walking env s stack)
    (hreach : ∀ y ∈ stack, Relation.ReflTransGen (Edge env.deps) y p)
    (hfit : ∀ x, Fits x → s.refs x + (d :: paths env.deps n d).count x < 2 ^ 32)
    (hlp : s.Listed p) (T : Tidy s stack)
    (hplace : stack.head? = some p ∨ ∀ d ∈ env.deps p, d ∈ s.loads)
    (hproc : Session.dependProcess env (n + 1) (pad p) s symbol = .ok (.ok, s')) :
    Tidy s' stack := by
  have hd := G.fits p d hpd
  obtain ⟨symbols, hopen⟩ := Option.isSome_iff_exists.mp (G.opens p d hpd)
  have hedge : Edge env.deps p d := hpd
  have hreach' : ∀ y ∈ stack, Relation.ReflTransGen (Edge env.deps) y d :=
    fun y hy => (hreach y hy).tail hedge
  by_cases hl : s.Listed d
  · have hout : d ∉ stack := fun hmem => G.acyclic d (.tail' (hreach d hmem) hedge)
    exact T.dependProcess_listed G hranks ih hp hd hdep hopen hrank W hreach' hout hfit hl hproc
  · rcases hplace with htop | hloaded
    · obtain ⟨rest, rfl⟩ := List.head?_eq_some_iff.mp htop
      have hreach'' : ∀ y ∈ d :: p :: rest, Relation.ReflTransGen (Edge env.deps) y d := by
        intro y hy
        rcases List.mem_cons.mp hy with rfl | hy
        · exact .refl
        · exact hreach' y hy
      exact T.dependProcess_new G hranks ih hp hd hdep hopen hrank W hreach'' hfit hlp hl hproc
    · exact absurd (T.listed (hloaded d hpd)) hl

/-- The symbols of a module, by induction along a rest of them. -/
theorem Tidy.elfSymbol (G : env.Good) (hranks : ∀ a, ∀ b ∈ env.deps a, rank b < rank a)
    (ih : WalkTidies env rank n) (hp : Fits p) (hrank : ∀ d ∈ env.deps p, rank d < n)
    (hreach : ∀ y ∈ stack, Relation.ReflTransGen (Edge env.deps) y p) {rest : List (List Char)}
    (hsub : ∀ d ∈ rest.filterMap (dependOf p), d ∈ env.deps p) (W : Walking env s stack)
    (hl : s.Listed p) (hfit : ∀ x, Fits x → s.refs x + (visits env n p rest).count x < 2 ^ 32)
    (T : Tidy s stack) (hplace : stack.head? = some p ∨ ∀ d ∈ env.deps p, d ∈ s.loads)
    (hwalk : Kmod.elfSymbol (Session.dependProcess env (n + 1) (pad p)) rest s = .ok (.ok, s')) :
    Tidy s' stack := by
  induction rest generalizing s with
  | nil =>
      cases hwalk
      exact T
  | cons symbol rest ihrest =>
      cases hdep : dependOf p symbol with
      | none =>
          rw [visits_cons_none hdep] at hfit
          rw [List.filterMap_cons_none hdep] at hsub
          rw [Kmod.elfSymbol, dependProcess_none hp hdep] at hwalk
          exact ihrest hsub W hl hfit T hplace hwalk
      | some d =>
          rw [visits_cons_some hdep] at hfit
          rw [List.filterMap_cons_some hdep] at hsub
          have hpd : d ∈ env.deps p := hsub d List.mem_cons_self
          have hfit₁ : ∀ x, Fits x → s.refs x + (d :: paths env.deps n d).count x < 2 ^ 32 := by
            intro x hx
            have := hfit x hx
            rw [List.count_append] at this
            omega
          obtain ⟨s₁, hproc, h₁, -⟩ := dependProcess_spec G (walkEnds G hranks n) hp hpd hdep
            (hrank d hpd) W hreach hfit₁ hl
          have T₁ := T.dependProcess G hranks ih hp hpd hdep (hrank d hpd) W hreach hfit₁ hl
            hplace hproc
          have hl₁ : s₁.Listed p := by
            rw [h₁.walking.listed_iff hp, h₁.refs p hp]
            have := W.pos p hp hl
            omega
          have hfit₂ : ∀ x, Fits x → s₁.refs x + (visits env n p rest).count x < 2 ^ 32 := by
            intro x hx
            have := hfit x hx
            rw [List.count_append] at this
            rw [h₁.refs x hx]
            omega
          rw [Kmod.elfSymbol, hproc] at hwalk
          exact ihrest (fun c hc => hsub c (List.mem_cons_of_mem d hc)) h₁.walking hl₁ hfit₂ T₁
            (hplace.imp_right fun h c hc => h₁.grown.subset (h c hc)) hwalk

/-- **Walks keep the order**, by induction on their depth. -/
theorem walkTidies (G : env.Good) (hranks : ∀ a, ∀ b ∈ env.deps a, rank b < rank a) :
    ∀ n, WalkTidies env rank n := by
  intro n
  induction n with
  | zero =>
      intro p s stack symbols s' h
      exact absurd h (Nat.not_lt_zero _)
  | succ n ih =>
      intro p s stack symbols s' hn hp hopen W hl hreach hfit T hplace hwalk
      have hdeps : env.deps p = symbols.filterMap (dependOf p) := by
        rw [Env.deps, hopen]
        rfl
      have hvisits : paths env.deps (n + 1) p = visits env n p symbols := by
        rw [visits, ← hdeps]
        rfl
      have hlt : ∀ d ∈ env.deps p, rank d < n := fun d hd =>
        Nat.lt_of_lt_of_le (hranks p d hd) (Nat.lt_succ_iff.mp hn)
      rw [hvisits] at hfit
      exact T.elfSymbol G hranks ih hp hlt hreach (fun d hd => hdeps ▸ hd) W hl hfit hplace hwalk

end Visits

/-- **Loading a module keeps the order.** -/
theorem Tidy.load {stack : Option (List Char)} (G : env.Good) (W : Walking env s [])
    (hm : env.Requested m) (hl : ¬ s.Listed m) (hz : Zeroed stack m)
    (hfit : ∀ x, Fits x →
      s.refs x + (m :: paths env.deps (env.files.length + 1) m).count x < 2 ^ 32)
    (T : Tidy s []) (hload : s.load env m stack = .ok (.ok, s')) : Tidy s' [] := by
  obtain ⟨hm, hopen⟩ := hm
  obtain ⟨symbols, hopen⟩ := Option.isSome_iff_exists.mp hopen
  obtain ⟨buf, rfl, hlen, hzero⟩ := hz
  obtain ⟨rank, hbound, hranks⟩ := G.exists_rank
  have hadds : Adds s ⟨pad m, 1⟩ (s.insertTail ⟨pad m, 1⟩) :=
    adds_insertTail (Option.not_isSome_iff_eq_none.mp hl)
  have hl₁ : (s.insertTail ⟨pad m, 1⟩).Listed m := (hadds.listed_iff hm hm).mpr (.inl rfl)
  have hrefs := hadds.refs_add hm hl
  have hrank : rank m < env.files.length + 1 := Nat.lt_succ_of_le (hbound m)
  have W₁ : Walking env (s.insertTail ⟨pad m, 1⟩) [m] := W.push hm hl hadds
  have hreach : ∀ y ∈ [m], Relation.ReflTransGen (Edge env.deps) y m := by
    intro y hy
    rw [List.mem_singleton.mp hy]
  have hfit₁ : ∀ x, Fits x → (s.insertTail ⟨pad m, 1⟩).refs x +
      (paths env.deps (env.files.length + 1) m).count x < 2 ^ 32 := by
    intro x hx
    have := hfit x hx
    rw [count_visit] at this
    rw [hrefs x hx]
    omega
  have T₁ : Tidy (s.insertTail ⟨pad m, 1⟩) [m] := by
    rw [Tidy, hadds.loads, List.map_append]
    change (s.moduleList ++ [Entry.mk (pad m) 1]).map Entry.name = _
    rw [List.map_append, T, List.append_nil]
    rfl
  obtain ⟨s₂, hwalk, h, -⟩ := walkEnds G hranks _ m _ [m] symbols hrank hm hopen W₁ hl₁ hreach hfit₁
  have T₂ : Tidy s₂ [m] := walkTidies G hranks _ m _ [m] symbols s₂ hrank hm hopen W₁ hl₁ hreach
    hfit₁ T₁ (.inl rfl) hwalk
  have hone : s₂.refs m = 1 := by
    have hnot : m ∉ paths env.deps (env.files.length + 1) m :=
      fun hmem => G.acyclic m (transGen_of_mem_paths hmem)
    rw [h.refs m hm, hrefs m hm, refs_eq_zero hl, if_pos rfl, List.count_eq_zero.mpr hnot]
  have hexist : ¬ s.exist m = true := mt (exist_iff hm).mp hl
  simp only [Session.load, if_neg hexist, take_name hm, hopen, Zeroed.copyName_eq hm hlen hzero,
    hwalk] at hload
  change Except.ok (s₂.loadFirst env (pad m)) = _ at hload
  rw [loadFirst_of_eq_one G hm hone] at hload
  cases hload
  exact T₂.pop

end Session

end Kylin.Kmod
