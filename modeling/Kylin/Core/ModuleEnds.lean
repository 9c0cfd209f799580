import Kylin.Core.ModuleWalk

/-!
# When loading a module ends

`__module_depend_process` walks below a dependency whether or not it is in the list already, so
nothing stops it on a cycle of dependencies.  `terminates_iff` says that this is the only way not
to end: a call of `kylin_module_load` returns, or ends the process, if and only if its walk does
not descend into a cycle.  Errors help there.  A dependency with a name that is too long, or with
a file that does not open, ends the process, and what lies behind it is not reached.

The levels of the recursion are counted by the model.  Ending means that some number of levels is
enough, whatever the handlers of the modules return.

## Main definitions

* `loadWithin` — `kylin_module_load` with a bound on the levels.
* `Terminates` — the call ends.
* `Arrives`, `NoCycle` — the walk of a call, and the condition.

## Main results

* `terminates_iff` — a call ends exactly if its walk does not descend into a cycle.
* `noCycle_of_acyclic` — no cycles, no trouble.
-/

namespace Kylin.Kmod

open Lib Lib.Graph

namespace Session

/-- `kylin_module_load`, with no more than `n` levels of recursion. -/
def loadWithin (env : Env) (n : ℕ) (s : Session) (modName : List Char)
    (stack : Option (List Char)) : Except Stop (Kerr × Session) :=
  if s.exist modName then .ok (.exist, s)
  else
    let name := pad (modName.take (nameLength - 1))
    let s := s.insertTail ⟨name, 1⟩
    match env.elfCreate modName, stack with
    | none, _ => .ok (.inval, s)
    | some _, none => .error .fault
    | some symbols, some buf => do
        let (ret, s) ← elfSymbol (dependProcess env n (copyName buf modName)) symbols s
        if ret = .ok then .ok (s.loadFirst env name) else .error .exit

theorem load_eq_loadWithin (env : Env) (s : Session) (modName : List Char)
    (stack : Option (List Char)) :
    s.load env modName stack = loadWithin env (env.files.length + 1) s modName stack := rfl

/-- The call ends, whatever the handlers of the modules return. -/
def Terminates (env : Env) (s : Session) (modName : List Char) (stack : Option (List Char)) :
    Prop :=
  ∀ loaded, ∃ n, loadWithin { env with loaded := loaded } n s modName stack ≠ .error .deep

/-- The walk along `ds` comes to `d`. -/
def Arrives (env : Env) (s : Session) (modName : List Char) (ds : List (List Char))
    (d : List Char) : Prop :=
  ∃ before, Comes env.deps env.InOrder ds before d ∧
    ∀ pre c post, before ++ [d] = pre ++ c :: post → Entered env s modName pre c

/-- The walk of a call does not descend into a cycle. -/
def NoCycle (env : Env) (s : Session) (modName : List Char) (stack : Option (List Char)) : Prop :=
  ¬ s.exist modName → ∀ symbols buf, env.elfCreate modName = some symbols → stack = some buf →
    ∀ d, Arrives env (s.insertTail ⟨pad (modName.take (nameLength - 1)), 1⟩)
      (copyName buf modName) (symbols.filterMap (dependOf (str (copyName buf modName)))) d →
      Ends (Descends env.deps env.InOrder) d

variable {env : Env} {n : ℕ} {s s' s₁ : Session} {modName d : List Char}
  {ds symbols : List (List Char)} {stack : Option (List Char)}

/-- The call runs out of levels where the walk of its symbols does. -/
theorem loadWithin_deep_iff : loadWithin env n s modName stack = .error .deep ↔
    ¬ s.exist modName ∧ ∃ symbols buf, env.elfCreate modName = some symbols ∧ stack = some buf ∧
      elfSymbol (dependProcess env n (copyName buf modName)) symbols
        (s.insertTail ⟨pad (modName.take (nameLength - 1)), 1⟩) = .error .deep := by
  rw [loadWithin]
  by_cases hexist : s.exist modName
  · simp [hexist]
  · rw [if_neg hexist]
    cases hopen : env.elfCreate modName with
    | none => simp
    | some symbols =>
        cases stack with
        | none => simp
        | some buf =>
            cases hwalk : elfSymbol (dependProcess env n (copyName buf modName)) symbols
              (s.insertTail ⟨pad (modName.take (nameLength - 1)), 1⟩) with
            | error e => simp [hexist, hwalk, bind, Except.bind]
            | ok r =>
                by_cases hret : r.1 = .ok
                · simp [hwalk, hret, bind, Except.bind]
                · simp [hwalk, hret, bind, Except.bind]

/-! ## Without a cycle -/

/-- A walk that has come to `d`. -/
theorem Walks.arrives (hd : Fits d) {before after : List (List Char)}
    (h : Walks env n modName before s s₁) (hsplit : ds = before ++ d :: after)
    (henters : Enters env modName s₁ d symbols s') : Arrives env s modName ds d := by
  refine ⟨before, ⟨⟨after, hsplit⟩, h.passes, henters.inOrder⟩, ?_⟩
  intro pre c post hpre
  rcases List.eq_nil_or_concat post with rfl | ⟨post', c', rfl⟩
  · obtain ⟨rfl, hc⟩ := List.append_inj' hpre rfl
    obtain rfl := (List.cons.inj hc).1
    rw [Entered, ← h.has, ← h.has, ← enter_isSome hd, henters.enter]
    rfl
  · rw [List.concat_eq_append, ← List.cons_append, ← List.append_assoc] at hpre
    exact h.entered pre c post' (List.append_inj' hpre rfl).1

/-- A walk that runs out of levels does so below a dependency that it has come to. -/
theorem arrives_of_deep (hstrings : env.Strings) (hnul : ∀ d ∈ ds, nul ∉ d)
    (h : elfSymbol (visit env n modName) ds s = .error .deep) :
    ∃ d symbols s₁, Fits d ∧ Arrives env s modName ds d ∧ env.elfCreate d = some symbols ∧
      elfSymbol (dependProcess env n (pad d)) symbols s₁ = .error .deep := by
  obtain ⟨before, d, after, s₁, hsplit, hbefore, hvisit⟩ := elfSymbol_error_iff.mp h
  obtain ⟨symbols, s₂, henters, hbelow⟩ := visit_deep_iff.mp hvisit
  have hd : Fits d := ⟨henters.fits, hnul d (by simp [hsplit])⟩
  have hwalk := walks_of_elfSymbol hstrings n modName before s s₁
    (fun c hc => hnul c (by simp [hsplit, hc])) hbefore
  exact ⟨d, symbols, s₂, hd, hwalk.arrives hd hsplit henters, henters.opens, hbelow⟩

/-- **Running out of levels.**  With ranks that fall wherever the walk descends, unless it does so
into a cycle, it comes to a node of a rank that is higher than the number of levels. -/
theorem lt_rank_of_deep (hstrings : env.Strings) {rank : List Char → ℕ}
    (hpos : ∀ a ∈ env.files.map Prod.fst, 0 < rank a)
    (hrank : ∀ a b, Descends env.deps env.InOrder a b → Ends (Descends env.deps env.InOrder) a →
      rank b < rank a) :
    ∀ n modName ds s, (∀ d ∈ ds, nul ∉ d) → elfSymbol (visit env n modName) ds s = .error .deep →
      ∃ d, Arrives env s modName ds d ∧
        (Ends (Descends env.deps env.InOrder) d → n < rank d) := by
  intro n
  induction n with
  | zero =>
      intro modName ds s hnul h
      obtain ⟨d, symbols, s₁, -, harrives, hopen, -⟩ := arrives_of_deep hstrings hnul h
      exact ⟨d, harrives, fun _ => hpos d (List.mem_map_of_mem (Env.mem_files hopen))⟩
  | succ n ih =>
      intro modName ds s hnul h
      obtain ⟨d, symbols, s₁, hd, harrives, hopen, hbelow⟩ := arrives_of_deep hstrings hnul h
      refine ⟨d, harrives, ?_⟩
      intro hends
      rw [elfSymbol_below hd hopen] at hbelow
      obtain ⟨b, ⟨before, hcomes, -⟩, hlt⟩ :=
        ih (pad d) (env.deps d) s₁ (fun c hc => hstrings.nul_not_mem_deps hc) hbelow
      have hdescends : Descends env.deps env.InOrder d b := ⟨before, hcomes⟩
      have hfall := hrank d b hdescends hends
      have := hlt (hends.step hdescends)
      omega

/-- A call whose walk does not descend into a cycle has levels enough. -/
theorem NoCycle.load_ne_deep (hstrings : env.Strings) (h : NoCycle env s modName stack) :
    s.load env modName stack ≠ .error .deep := by
  intro hdeep
  rw [load_eq_loadWithin, loadWithin_deep_iff] at hdeep
  obtain ⟨hexist, symbols, buf, hopen, hstack, hwalk⟩ := hdeep
  rw [elfSymbol_dependProcess] at hwalk
  have hsource : ∀ a b, Descends env.deps env.InOrder a b → a ∈ env.files.map Prod.fst :=
    fun a b hab => Env.mem_files_of_deps (List.ne_nil_of_mem hab.edge)
  obtain ⟨rank, hbound, hpos, hrank⟩ := exists_rank_of_source hsource
  obtain ⟨d, harrives, hlt⟩ := lt_rank_of_deep hstrings hpos
    (fun a b hab hends => hrank a b hab (hends a .refl)) env.files.length _ _ _
    (fun d hd => hstrings.nul_not_mem hopen hd) hwalk
  have hrank_lt := hlt (h hexist symbols buf hopen hstack d harrives)
  have := hbound d
  rw [List.length_map] at this
  omega

/-! ## Down a cycle -/

theorem loadFirst_of_loaded (hloaded : ∀ m, env.loaded m = .ok) (s : Session) (buf : List Char) :
    ∃ s', s.loadFirst env buf = (.ok, s') := by
  rw [loadFirst]
  split
  · rw [moduleLoad, hloaded]
    exact ⟨_, rfl⟩
  · exact ⟨s, rfl⟩

/-- What stands behind a visit and what is walked along after it. -/
theorem stands_of_visit (hstrings : env.Strings) (hd : nul ∉ d)
    (h : visit env n modName s d = .ok (.ok, s₁)) (buf : List Char) :
    Stands env s₁ ds buf ↔ Stands env s (d :: ds) buf := by
  have hwalk := walks_of_elfSymbol hstrings n modName [d] s s₁ (by simpa using hd)
    (elfSymbol_cons_ok.mpr ⟨s₁, h, rfl⟩)
  exact hwalk.stands_append

/-- A walk along what can be passed and entered comes back if it has levels enough. -/
theorem elfSymbol_of_visits (hstrings : env.Strings)
    (h : ∀ c ∈ ds, Fits c ∧ ∀ s, (s.enter modName c).isSome →
      visit env n modName s c = .error .deep ∨ ∃ s', visit env n modName s c = .ok (.ok, s'))
    (hentered : ∀ before d after, ds = before ++ d :: after → Entered env s modName before d) :
    elfSymbol (visit env n modName) ds s = .error .deep ∨
      ∃ s', elfSymbol (visit env n modName) ds s = .ok (.ok, s') := by
  induction ds generalizing s with
  | nil => exact .inr ⟨s, rfl⟩
  | cons d ds ih =>
      obtain ⟨hd, hvisit⟩ := h d List.mem_cons_self
      have hfirst := hentered [] d ds rfl
      rw [Entered, stands_nil, stands_nil, ← enter_isSome hd] at hfirst
      rcases hvisit s hfirst with hdeep | ⟨s₁, hok⟩
      · exact .inl (elfSymbol_cons_error.mpr (.inl hdeep))
      · have hrest := ih (fun c hc => h c (List.mem_cons_of_mem d hc)) (s := s₁) (by
          intro before c after hsplit
          rw [Entered, stands_of_visit hstrings hd.2 hok, stands_of_visit hstrings hd.2 hok]
          exact hentered (d :: before) c after (by rw [hsplit]; rfl))
        rcases hrest with hdeep | ⟨s₂, hrest⟩
        · exact .inl (elfSymbol_cons_error.mpr (.inr ⟨s₁, hok, hdeep⟩))
        · exact .inr ⟨s₂, elfSymbol_cons_ok.mpr ⟨s₁, hok, hrest⟩⟩

/-- **What can be passed is passed**, by induction on what lies below. -/
theorem visit_of_passes (hstrings : env.Strings) (hloaded : ∀ m, env.loaded m = .ok)
    (h : Passes env.deps env.InOrder d) : ∀ n modName s, Fits d → env.InOrder d →
      (s.enter modName d).isSome → visit env n modName s d = .error .deep ∨
        ∃ s', visit env n modName s d = .ok (.ok, s') := by
  induction h with
  | @intro d hok _ ih =>
      intro n modName s hd hin henter
      obtain ⟨s₁, henter⟩ := Option.isSome_iff_exists.mp henter
      obtain ⟨symbols, hopen⟩ := Option.isSome_iff_exists.mp hin.2
      have henters : Enters env modName s d symbols s₁ := ⟨hd.1, henter, hopen⟩
      have hbelow : elfSymbol (dependProcess env n (pad d)) symbols s₁ = .error .deep ∨
          ∃ s₂, elfSymbol (dependProcess env n (pad d)) symbols s₁ = .ok (.ok, s₂) := by
        cases n with
        | zero =>
            cases symbols with
            | nil => exact .inr ⟨s₁, rfl⟩
            | cons symbol symbols => exact .inl rfl
        | succ n =>
            rw [elfSymbol_below hd hopen]
            refine elfSymbol_of_visits hstrings ?_ ?_
            · intro c hc
              have hfits : Fits c := ⟨(hok c hc).1, hstrings.nul_not_mem_deps hc⟩
              exact ⟨hfits, fun s hs => ih c hc n (pad d) s hfits (hok c hc) hs⟩
            · intro before c after _
              exact .inl (.inl ((has_enter hd henter (pad d)).mpr (.inr rfl)))
      rcases hbelow with hdeep | ⟨s₂, hbelow⟩
      · exact .inl (visit_deep_iff.mpr ⟨symbols, s₁, henters, hdeep⟩)
      · obtain ⟨s', hload⟩ := loadFirst_of_loaded hloaded s₂ (pad d)
        exact .inr ⟨s', visit_ok_iff.mpr ⟨symbols, s₁, s₂, henters, hbelow, hload⟩⟩

/-- A walk that does not run out of levels comes to each node that it can arrive at. -/
theorem exists_visit (hstrings : env.Strings) (hloaded : ∀ m, env.loaded m = .ok)
    (hnul : ∀ d ∈ ds, nul ∉ d) (h : elfSymbol (visit env n modName) ds s ≠ .error .deep)
    (harrives : Arrives env s modName ds d) : ∃ s₁, (s₁.enter modName d).isSome ∧
      visit env n modName s₁ d ≠ .error .deep := by
  obtain ⟨before, ⟨⟨after, rfl⟩, hpassed, hin⟩, hentered⟩ := harrives
  have hd : Fits d := ⟨hin.1, hnul d (by simp)⟩
  have hbefore : ∀ c ∈ before, nul ∉ c := fun c hc => hnul c (by simp [hc])
  have hcome : elfSymbol (visit env n modName) before s = .error .deep ∨
      ∃ s', elfSymbol (visit env n modName) before s = .ok (.ok, s') := by
    refine elfSymbol_of_visits hstrings ?_ ?_
    · intro c hc
      obtain ⟨hcin, hpass⟩ := hpassed c hc
      have hfits : Fits c := ⟨hcin.1, hbefore c hc⟩
      exact ⟨hfits, fun s hs => visit_of_passes hstrings hloaded hpass n modName s hfits hcin hs⟩
    · intro pre c post hsplit
      exact hentered pre c (post ++ [d]) (by rw [hsplit, List.append_assoc]; rfl)
  rcases hcome with hdeep | ⟨s₁, hwalk⟩
  · obtain ⟨pre, c, post, s₁, rfl, hpre, hc⟩ := elfSymbol_error_iff.mp hdeep
    refine absurd (elfSymbol_error_iff.mpr ⟨pre, c, post ++ d :: after, s₁, ?_, hpre, hc⟩) h
    simp
  · refine ⟨s₁, ?_, ?_⟩
    · have hwalks := walks_of_elfSymbol hstrings n modName before s s₁ hbefore hwalk
      rw [enter_isSome hd, hwalks.has, hwalks.has]
      exact hentered before d [] rfl
    · intro hdeep
      exact h (elfSymbol_error_iff.mpr ⟨before, d, after, s₁, rfl, hwalk, hdeep⟩)

/-- **A visit that ends** is not above a cycle, by induction on the levels. -/
theorem acc_of_visit (hstrings : env.Strings) (hloaded : ∀ m, env.loaded m = .ok) :
    ∀ n modName s d, Fits d → env.InOrder d → (s.enter modName d).isSome →
      visit env n modName s d ≠ .error .deep →
      Acc (fun b a => Descends env.deps env.InOrder a b) d := by
  intro n
  induction n with
  | zero =>
      intro modName s d hd hin henter h
      obtain ⟨s₁, henter⟩ := Option.isSome_iff_exists.mp henter
      obtain ⟨symbols, hopen⟩ := Option.isSome_iff_exists.mp hin.2
      refine .intro d fun b hb => ?_
      cases symbols with
      | nil =>
          have hedge : b ∈ env.deps d := hb.edge
          rw [deps_of_no_symbols hopen] at hedge
          cases hedge
      | cons symbol symbols =>
          exact absurd (visit_deep_iff.mpr ⟨_, s₁, ⟨hd.1, henter, hopen⟩, rfl⟩) h
  | succ n ih =>
      intro modName s d hd hin henter h
      obtain ⟨s₁, henter⟩ := Option.isSome_iff_exists.mp henter
      obtain ⟨symbols, hopen⟩ := Option.isSome_iff_exists.mp hin.2
      have hnot : elfSymbol (visit env n (pad d)) (env.deps d) s₁ ≠ .error .deep := by
        intro hdeep
        rw [← elfSymbol_below hd hopen] at hdeep
        exact h (visit_deep_iff.mpr ⟨symbols, s₁, ⟨hd.1, henter, hopen⟩, hdeep⟩)
      refine .intro d ?_
      rintro b ⟨before, hcomes⟩
      have harrives : Arrives env s₁ (pad d) (env.deps d) b := by
        refine ⟨before, hcomes, fun pre c post _ => ?_⟩
        exact .inl (.inl ((has_enter hd henter (pad d)).mpr (.inr rfl)))
      obtain ⟨s₂, hs₂, hvisit⟩ := exists_visit hstrings hloaded
        (fun c hc => hstrings.nul_not_mem_deps hc) hnot harrives
      have hedge : b ∈ env.deps d := Descends.edge ⟨before, hcomes⟩
      exact ih (pad d) s₂ b ⟨hcomes.in_order.1, hstrings.nul_not_mem_deps hedge⟩ hcomes.in_order
        hs₂ hvisit

/-- A call that has levels enough, with handlers that succeed, does not descend into a cycle. -/
theorem noCycle_of_ne_deep (hstrings : env.Strings) (hloaded : ∀ m, env.loaded m = .ok)
    (h : loadWithin env n s modName stack ≠ .error .deep) : NoCycle env s modName stack := by
  intro hexist symbols buf hopen hstack d harrives
  have hnot : elfSymbol (dependProcess env n (copyName buf modName)) symbols
      (s.insertTail ⟨pad (modName.take (nameLength - 1)), 1⟩) ≠ .error .deep :=
    fun hdeep => h (loadWithin_deep_iff.mpr ⟨hexist, symbols, buf, hopen, hstack, hdeep⟩)
  obtain ⟨before, ⟨⟨after, hsplit⟩, -, hin⟩, -⟩ := id harrives
  cases n with
  | zero =>
      cases symbols with
      | nil => simp at hsplit
      | cons symbol symbols => exact absurd rfl hnot
  | succ n =>
      rw [elfSymbol_dependProcess] at hnot
      have hnul : ∀ c ∈ symbols.filterMap (dependOf (str (copyName buf modName))), nul ∉ c :=
        fun c hc => hstrings.nul_not_mem hopen hc
      obtain ⟨s₁, hs₁, hvisit⟩ := exists_visit hstrings hloaded hnul hnot harrives
      have hd : Fits d := ⟨hin.1, hnul d (by simp [hsplit])⟩
      exact .of_acc (acc_of_visit hstrings hloaded n _ s₁ d hd hin hs₁ hvisit)

/-- **When loading a module ends**: for all module files, whatever depends on what, and in every
state of the session, exactly if the walk does not descend into a cycle. -/
theorem terminates_iff (hstrings : env.Strings) :
    Terminates env s modName stack ↔ NoCycle env s modName stack := by
  constructor
  · intro h
    obtain ⟨n, hn⟩ := h fun _ => .ok
    exact @noCycle_of_ne_deep { env with loaded := fun _ => .ok } n s modName stack hstrings
      (fun _ => rfl) hn
  · intro h loaded
    exact ⟨env.files.length + 1,
      @NoCycle.load_ne_deep { env with loaded := loaded } s modName stack hstrings h⟩

/-- Where no module depends on itself, directly or not, no walk descends into a cycle. -/
theorem noCycle_of_acyclic (h : Acyclic env.deps) : NoCycle env s modName stack :=
  fun _ _ _ _ _ d _ => h.ends d

theorem diamond_strings : diamond.Strings := by
  intro f hf
  revert f
  decide +kernel

theorem terminates_iff_diamond :
    diamond.Strings ∧ Terminates diamond create ['a'] (some (pad [])) :=
  ⟨diamond_strings, (terminates_iff diamond_strings).mpr (noCycle_of_acyclic diamond_good.acyclic)⟩

/-- Modules `a` and `b` that depend on each other. -/
def pair : Env where
  files := [(['a'], ["a_depend_on_b".toList]), (['b'], ["b_depend_on_a".toList])]
  loaded := fun _ => .ok
  unloaded := fun _ => .ok

theorem pair_strings : pair.Strings := by
  intro f hf
  revert f
  decide +kernel

/-- Each descends into the other. -/
theorem pair_descends : Descends pair.deps pair.InOrder ['a'] ['b'] ∧
    Descends pair.deps pair.InOrder ['b'] ['a'] := by
  constructor
  · refine ⟨[], ⟨[], by decide +kernel⟩, ?_, by decide, by decide +kernel⟩
    intro c hc
    cases hc
  · refine ⟨[], ⟨[], by decide +kernel⟩, ?_, by decide, by decide +kernel⟩
    intro c hc
    cases hc

/-- The walk goes round and round. -/
theorem not_terminates_pair :
    (∀ n, loadWithin pair n create ['a'] (some (pad [])) = .error .deep) ∧
      ¬ Terminates pair create ['a'] (some (pad [])) := by
  have hdeep : ∀ n, loadWithin pair n create ['a'] (some (pad [])) = .error .deep := by
    intro n
    by_contra hn
    have hends := noCycle_of_ne_deep pair_strings (fun _ => rfl) hn (by decide +kernel)
      ["a_depend_on_b".toList] (pad []) (by decide +kernel) rfl ['b']
    obtain ⟨hab, hba⟩ := pair_descends
    refine hends ?_ ['b'] .refl (.head hba (.single hab))
    refine ⟨[], ⟨⟨[], by decide +kernel⟩, ?_, by decide, by decide +kernel⟩, ?_⟩
    · intro c hc
      cases hc
    · intro pre c post hsplit
      exact .inl (.inl (by decide +kernel))
  refine ⟨hdeep, fun h => ?_⟩
  obtain ⟨n, hn⟩ := h pair.loaded
  exact hn (hdeep n)

end Session

end Kylin.Kmod
