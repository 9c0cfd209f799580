import Kylin.Core.ModuleCount
import Kylin.Core.ModuleList
import Kylin.Lib.Lifetime
import Mathlib.Data.List.TakeWhile

/-!
# Modules that come and go

`kylin_module_unload_all` goes through the list from its end, and the list is in the order in which
the modules were loaded.  So modules are unloaded before what they depend on.

A handler that refuses ends `kylin_module_unload_all`, which leaves the entries of the modules
that it has unloaded already.  The handles of an entry are good from `__module_load` on until
`__module_unload` closes the object.  Otherwise `kylin_module_unload_all` ends with
`kylin_list_destroy`, which frees the list without taking it out of the session, and which need
not come back: `kylin_list_clear` looks for a node as if it were an entry.

## Main definitions

* `Loader` — the list, and a log of what was loaded and unloaded.
* `unloadLoop` — the loop of `kylin_module_unload_all`.
* `Loader.step`, `Loader.Sound` — calls, and the condition on one of them.

## Main results

* `run_orderly` — at every moment of a run, what is loaded has what it depends on.
* `run_unloadAll` — what `kylin_module_unload_all` unloads, and what a handler that refuses
  leaves behind.
-/

namespace Kylin.Kmod

open Lib Lib.Graph Lib.Lifetime

namespace Session

/-! ## Calls -/

/-- The list of a session, and what was loaded and unloaded. -/
structure Loader where
  moduleList : List Entry
  log : List (Event (List Char))
  /-- `kylin_list_destroy` has been called on the list. -/
  freed : Bool

/-- Calls, with what the handlers answer to `KMOD_ACTION_UNLOAD`, and with whether
`kylin_list_destroy` comes back from a list that is not empty. -/
inductive Act
  | load (modName : List Char) (stack : Option (List Char))
  | unload (modName : List Char) (answers : List Char → Kerr)
  | unloadAll (answers : List Char → Kerr) (back : Bool)
  | destroy (back : Bool)

/-- The loop of `kylin_module_unload_all`, from an entry on; what it returns, and the modules that
it unloads.  The handler of a module that is not loaded cannot be called. -/
def unloadLoop (answers : List Char → Kerr) :
    List (List Char) → List Entry → Option (Kerr × List (List Char))
  | _, [] => some (.ok, [])
  | live, e :: l =>
      if ¬ live.contains (str e.name) then none
      else if answers (str e.name) ≠ .ok then some (answers (str e.name), [])
      else (unloadLoop answers (apply live (.stop (str e.name))) l).map fun (ret, ms) =>
        (ret, str e.name :: ms)

namespace Loader

/-- A new session. -/
def create : Loader := ⟨[], [], false⟩

/-- The session, with the modules that are loaded for those that were. -/
def session (L : Loader) : Session := ⟨L.moduleList, running L.log⟩

/-- What is returned behind `kylin_list_destroy`, if it comes back. -/
def listDestroy (L : Loader) (back : Bool) : Option Kerr :=
  if L.moduleList.isEmpty || back then some .ok else none

/-- One call, with what it returns if it comes back from `kylin_list_destroy`; `none` when it does
not get that far. -/
def step (env : Env) (L : Loader) (act : Act) : Option (Option Kerr × Loader) :=
  if L.freed then none
  else
    match act with
    | .load modName stack =>
        (L.session.load env modName stack).toOption.map fun (ret, s) =>
          (some ret,
            ⟨s.moduleList, L.log ++ (s.loads.drop (running L.log).length).map .start, false⟩)
    | .unload modName answers =>
        match L.session.find (pad (modName.take (nameLength - 1))) with
        | none => some (some .noent, L)
        | some e =>
            if (running L.log).contains (str e.name) then
              let (ret, s) := L.session.unload { env with unloaded := answers } modName
              some (some ret, ⟨s.moduleList,
                L.log ++ (if ret = .ok then [.stop (str e.name)] else []), false⟩)
            else none
    | .unloadAll answers back =>
        (unloadLoop answers (running L.log) L.moduleList.reverse).map fun (ret, ms) =>
          (if ret = .ok then L.listDestroy back else some ret,
            ⟨L.moduleList, L.log ++ ms.map .stop, ret = .ok⟩)
    -- `kylin_module_session_destroy` unloads nothing
    | .destroy back => some (L.listDestroy back, ⟨L.moduleList, L.log, true⟩)

/-- Every module of the list is loaded: `kylin_module_unload_all` has not broken off. -/
def Intact (L : Loader) : Prop := ∀ a ∈ L.session.names, a ∈ running L.log

/-- Modules are loaded as the loader supports it, and unloaded when no module of the list depends
on them. -/
def Sound (env : Env) (L : Loader) : Act → Prop
  | .load m stack => L.Intact ∧ env.Requested m ∧ (¬ L.session.Listed m → Zeroed stack m)
  | .unload m _ => L.Intact ∧ Fits m ∧ ∀ a ∈ L.session.names, m ∉ env.deps a
  | .unloadAll _ _ => True
  | .destroy _ => True

/-- The dependency paths that a call walks along. -/
def walked (env : Env) (L : Loader) : Act → ℕ
  | .load m stack => Session.walked env L.session (.load m stack)
  | .unload _ _ => 0
  | .unloadAll _ _ => 0
  | .destroy _ => 0

/-- The dependency paths walked along in a run. -/
def pathsWalked (env : Env) (tr : List (Step Loader Act (Option Kerr))) : ℕ :=
  (tr.map fun e => walked env e.before e.call).sum

theorem step_of_freed {env : Env} {L : Loader} (h : L.freed = true) (act : Act) :
    step env L act = none := if_pos h

/-- The list is in order, and all of it is loaded. -/
structure Kept (env : Env) (L : Loader) (n : ℕ) : Prop where
  walking : Walking env L.session []
  once : Once L.session []
  tidy : Tidy L.session []
  bound : ∀ x, Fits x → L.session.refs x ≤ n + 1

variable {env : Env} {L L' : Loader} {n : ℕ} {answers : List Char → Kerr} {m : List Char}
  {back : Bool}

theorem kept_create (env : Env) : Kept env create 0 where
  walking := walking_create env
  once := once_create
  tidy := rfl
  bound := fun _ _ => Nat.zero_le _

theorem Kept.names_eq (K : Kept env L n) : L.session.names = running L.log := by
  have hmap : L.session.names = (L.session.moduleList.map Entry.name).map str := by
    rw [Session.names, List.map_map]
    rfl
  rw [hmap, K.tidy, List.append_nil, List.map_map]
  have hstr : ∀ a ∈ running L.log, (str ∘ pad) a = id a :=
    fun a ha => str_pad (K.once.listed a ha).1
  rw [show L.session.loads = running L.log from rfl, List.map_congr_left hstr, List.map_id]

theorem Kept.intact (K : Kept env L n) : L.Intact := by
  intro a ha
  rwa [K.names_eq] at ha

/-- The counts behind the walk below a new module. -/
theorem Kept.refs_le (K : Kept env L n) (hl : ¬ L.session.Listed m) :
    ∀ x, Fits x → L.session.refs x + (m :: paths env.deps (env.files.length + 1) m).count x ≤
      n + (paths env.deps (env.files.length + 1) m).length + 1 := by
  intro x hx
  have hcount := List.count_le_length (a := x) (l := paths env.deps (env.files.length + 1) m)
  have hold := K.bound x hx
  rw [count_visit]
  by_cases hxm : x = m
  · rw [if_pos hxm, hxm, refs_eq_zero hl]
    rw [hxm] at hcount
    omega
  · rw [if_neg hxm]
    omega

/-- **One call of `kylin_module_load`.** -/
theorem Kept.load {stack : Option (List Char)} (G : env.Good) (K : Kept env L n)
    (h : Orderly env.deps L.log) (hfreed : L.freed = false) (hm : env.Requested m)
    (hz : ¬ L.session.Listed m → Zeroed stack m)
    (hn : n + walked env L (.load m stack) + 1 < 2 ^ 32) :
    ∃ ret L', step env L (.load m stack) = some (ret, L') ∧ Orderly env.deps L'.log ∧
      L'.freed = false ∧ Kept env L' (n + walked env L (.load m stack)) := by
  by_cases hl : L.session.Listed m
  · have hzero : walked env L (.load m stack) = 0 := if_pos ((exist_iff hm.1).mpr hl)
    refine ⟨some .exist, L, ?_, h, hfreed, ?_⟩
    · rw [step, hfreed, load_listed hm.1 hl]
      change some (some Kerr.exist, Loader.mk L.moduleList
        (L.log ++ ((running L.log).drop (running L.log).length).map .start) false) = _
      rw [List.drop_length, List.map_nil, List.append_nil, ← hfreed]
    · rw [hzero]
      exact K
  · have hwalked : walked env L (.load m stack) =
        (paths env.deps (env.files.length + 1) m).length :=
      if_neg (mt (exist_iff hm.1).mp hl)
    rw [hwalked] at hn ⊢
    have hbound := K.refs_le hl
    have hfit := fun x hx => Nat.lt_of_le_of_lt (hbound x hx) hn
    obtain ⟨s', hload, h', -⟩ := load_new G K.walking hm hl (hz hl) hfit
    have T' : Tidy s' [] := K.tidy.load G K.walking hm hl (hz hl) hfit hload
    have O' : Once s' [] := h'.once K.once
    obtain ⟨new, hnew⟩ := h'.grown
    have hnew' : running L.log ++ new = s'.loads := hnew
    obtain ⟨horderly, hrunning⟩ := h.starts (by rw [hnew']; exact O'.nodup)
      (by rw [hnew']; exact h'.walking.closed)
    rw [hnew'] at hrunning
    have hsession : (Loader.mk s'.moduleList (L.log ++ new.map .start) false).session = s' := by
      rw [session, hrunning]
    refine ⟨some .ok, ⟨s'.moduleList, L.log ++ new.map .start, false⟩, ?_, horderly, rfl, ?_⟩
    · rw [step, hfreed, hload]
      change some (some Kerr.ok, Loader.mk s'.moduleList
        (L.log ++ (s'.loads.drop (running L.log).length).map .start) false) = _
      rw [← hnew', List.drop_left]
    · constructor
      · rw [hsession]
        exact h'.walking
      · rw [hsession]
        exact O'
      · rw [hsession]
        exact T'
      · rw [hsession]
        intro x hx
        rw [h'.refs x hx]
        exact hbound x hx

/-- An entry that is taken out of the list. -/
theorem Kept.take {e : Entry} {l₁ l₂ : List Entry} (K : Kept env L n) (s' : Session)
    (hm : Fits m) (hmem : m ∈ running L.log) (hfree : ∀ a ∈ running L.log, m ∉ env.deps a)
    (hlist : L.moduleList = l₁ ++ e :: l₂) (hlist' : s'.moduleList = l₁ ++ l₂)
    (hname : e.name = pad m) (hloads : s'.loads = apply (running L.log) (.stop m))
    (hfind : ∀ c, s'.find c = if c = pad m then none else L.session.find c) :
    Walking env s' [] ∧ Once s' [] ∧ Tidy s' [] ∧ ∀ x, Fits x → s'.refs x ≤ n + 1 := by
  have hnodup : (running L.log).Nodup := K.once.nodup
  have hsub : s'.moduleList.Sublist L.moduleList := by
    rw [hlist, hlist']
    exact (List.sublist_cons_self e l₂).append_left l₁
  have hlisted : ∀ x, Fits x → (s'.Listed x ↔ x ≠ m ∧ L.session.Listed x) := by
    intro x hx
    rw [Listed, hfind]
    by_cases hxm : x = m
    · simp [hxm]
    · rw [if_neg (fun hpad => hxm ((pad_inj hx hm).mp hpad))]
      simp [hxm, Listed]
  have hrefs : ∀ x, Fits x → s'.refs x = if x = m then 0 else L.session.refs x := by
    intro x hx
    rw [refs, hfind]
    by_cases hxm : x = m
    · simp [hxm]
    · rw [if_neg (fun hpad => hxm ((pad_inj hx hm).mp hpad)), if_neg hxm, refs]
  have hbuffers : l₁.map Entry.name ++ pad m :: l₂.map Entry.name = (running L.log).map pad := by
    have htidy : L.moduleList.map Entry.name = (running L.log ++ []).map pad := K.tidy
    rw [List.append_nil, hlist, List.map_append, List.map_cons, hname] at htidy
    exact htidy
  obtain ⟨r₁, r, hsplit, hr₁, hr⟩ := List.map_eq_append_iff.mp hbuffers.symm
  obtain ⟨x, r₂, rfl, hx, hr₂⟩ := List.map_eq_cons_iff.mp hr
  have hxfits : Fits x := (K.once.listed x (by
    change x ∈ running L.log
    rw [hsplit]
    simp)).1
  obtain rfl : x = m := (pad_inj hxfits hm).mp hx
  have hout : x ∉ r₁ := by
    rw [hsplit] at hnodup
    exact fun hcon => List.disjoint_of_nodup_append hnodup hcon List.mem_cons_self
  have herase : apply (running L.log) (.stop x) = r₁ ++ r₂ := by
    rw [hsplit, apply_stop hout]
  have hord : Ordered env.deps (running L.log) := K.walking.closed
  refine ⟨⟨?_, ?_, ?_, ?_, ?_⟩, ⟨?_, ?_⟩, ?_, ?_⟩
  · exact K.walking.names.sublist (hsub.map _)
  · exact fun buf hbuf => K.walking.fits buf ((hsub.map _).subset hbuf)
  · intro y hy hly
    rw [hrefs y hy, if_neg ((hlisted y hy).mp hly).1]
    exact K.walking.pos y hy ((hlisted y hy).mp hly).2
  · intro y hy hly hstack
    obtain ⟨hne, hly⟩ := (hlisted y hy).mp hly
    rw [hloads]
    exact (mem_stop hnodup).mpr ⟨hne, K.walking.loaded y hy hly hstack⟩
  · rw [hloads]
    exact hord.stop hnodup hmem hfree
  · intro y hy
    rw [hloads, mem_stop hnodup] at hy
    obtain ⟨hfits, hly, hstack⟩ := K.once.listed y hy.2
    exact ⟨hfits, (hlisted y hfits).mpr ⟨hy.1, hly⟩, hstack⟩
  · rw [hloads]
    exact nodup_stop hnodup
  · rw [Tidy, List.append_nil, hloads, herase, hlist', List.map_append, List.map_append, hr₁, hr₂]
  · intro y hy
    rw [hrefs y hy]
    split
    · exact Nat.zero_le _
    · exact K.bound y hy

/-- **One call of `kylin_module_unload`**, for a module that nothing depends on. -/
theorem Kept.unload (K : Kept env L n) (h : Orderly env.deps L.log) (hfreed : L.freed = false)
    (hm : Fits m) (hfree : ∀ a ∈ L.session.names, m ∉ env.deps a) (answers : List Char → Kerr) :
    ∃ ret L', step env L (.unload m answers) = some (ret, L') ∧ Orderly env.deps L'.log ∧
      L'.freed = false ∧ Kept env L' n := by
  rw [K.names_eq] at hfree
  rw [step, hfreed, if_neg Bool.false_ne_true]
  simp only [take_name hm]
  cases hfind : L.session.find (pad m) with
  | none => exact ⟨some .noent, L, rfl, h, hfreed, K⟩
  | some e =>
      have hl : L.session.Listed m := by
        rw [Listed, hfind]
        rfl
      have hmem : m ∈ running L.log := K.walking.loaded m hm hl List.not_mem_nil
      have hname : e.name = pad m := by
        rw [Session.find] at hfind
        simpa using List.find?_some hfind
      have hstr : str e.name = m := by rw [hname, str_pad hm]
      simp only [hstr, if_pos (List.contains_iff_mem.mpr hmem)]
      by_cases hans : answers m = .ok
      · have W : Walking { env with unloaded := answers } L.session [] :=
          ⟨K.walking.names, K.walking.fits, K.walking.pos, K.walking.loaded, K.walking.closed⟩
        obtain ⟨s', e', l₁, l₂, hunload, hlist, hlist', hname', -, hfind'⟩ :=
          unload_listed W hm hl hans
        let L' : Loader := ⟨s'.moduleList, L.log ++ [.stop m], false⟩
        obtain ⟨W', O', T', hbound⟩ :=
          K.take L'.session hm hmem hfree hlist hlist' hname' running_concat hfind'
        refine ⟨some .ok, L', ?_, ?_, rfl, W', O', T', hbound⟩
        · rw [hunload]
          rfl
        · exact orderly_concat.mpr ⟨h, hmem, hfree⟩
      · have hunload : L.session.unload { env with unloaded := answers } m =
            (answers m, L.session) := by
          rw [Session.unload, take_name hm, str_pad hm]
          simp [hfind, hans]
        refine ⟨some (answers m), L, ?_, h, hfreed, K⟩
        rw [hunload, if_neg hans, List.append_nil, ← hfreed]
        rfl

/-! ### Unloading everything -/

/-- The loop stops at the first handler that refuses. -/
theorem unloadLoop_eq {live : List (List Char)} {l : List Entry}
    (hmem : ∀ a ∈ l.map fun e => str e.name, a ∈ live)
    (hnodup : (l.map fun e => str e.name).Nodup) (hlive : live.Nodup) :
    unloadLoop answers live l =
      some ((((l.map fun e => str e.name).find? fun a => answers a ≠ .ok).map answers).getD .ok,
        (l.map fun e => str e.name).takeWhile fun a => answers a = .ok) := by
  induction l generalizing live with
  | nil => rfl
  | cons e l ih =>
      rw [List.map_cons, List.forall_mem_cons] at hmem
      rw [List.map_cons, List.nodup_cons] at hnodup
      have hrest : unloadLoop answers (apply live (.stop (str e.name))) l = _ := ih
        (fun a ha => (mem_stop hlive).mpr ⟨fun heq => hnodup.1 (heq ▸ ha), hmem.2 a ha⟩) hnodup.2
        (nodup_stop hlive)
      rw [unloadLoop, if_neg (not_not_intro (List.contains_iff_mem.mpr hmem.1)), List.map_cons]
      by_cases hans : answers (str e.name) = .ok
      · rw [if_neg (not_not_intro hans), hrest, List.find?_cons_of_neg (by simpa using hans),
          List.takeWhile_cons_of_pos (by simpa using hans)]
        rfl
      · rw [if_pos hans, List.find?_cons_of_pos (by simpa using hans),
          List.takeWhile_cons_of_neg (by simpa using hans)]
        rfl

/-- What `kylin_module_unload_all` returns. -/
def refusal (answers : List Char → Kerr) (ms : List (List Char)) : Kerr :=
  ((ms.find? fun a => answers a ≠ .ok).map answers).getD .ok

/-- What `kylin_module_unload_all` unloads. -/
def unloaded (answers : List Char → Kerr) (ms : List (List Char)) : List (List Char) :=
  ms.takeWhile fun a => answers a = .ok

theorem refusal_eq_ok_iff {ms : List (List Char)} :
    refusal answers ms = .ok ↔ ∀ a ∈ ms, answers a = .ok := by
  rw [refusal]
  cases hfind : ms.find? fun a => decide (answers a ≠ .ok) with
  | none => simpa using hfind
  | some a =>
      have hne : answers a ≠ .ok := by simpa using List.find?_some hfind
      exact iff_of_false hne fun hcon => hne (hcon a (List.mem_of_find?_eq_some hfind))

/-- **One call of `kylin_module_unload_all`.** -/
theorem Kept.unloadAll (K : Kept env L n) (h : Orderly env.deps L.log) (hfreed : L.freed = false)
    (answers : List Char → Kerr) (back : Bool) :
    ∃ rest, running L.log = rest ++ (unloaded answers (running L.log).reverse).reverse ∧
      ∃ L', step env L (.unloadAll answers back) =
          some (if refusal answers (running L.log).reverse = .ok then L.listDestroy back
            else some (refusal answers (running L.log).reverse), L') ∧
        L'.moduleList = L.moduleList ∧
        L'.log = L.log ++ (unloaded answers (running L.log).reverse).map .stop ∧
        Orderly env.deps L'.log ∧ running L'.log = rest ∧
        (L'.freed = true ↔ ∀ a ∈ running L.log, answers a = .ok) := by
  obtain ⟨tail, htail⟩ := List.takeWhile_prefix (fun a => decide (answers a = .ok))
    (l := (running L.log).reverse)
  have hsplit : running L.log =
      tail.reverse ++ (unloaded answers (running L.log).reverse).reverse := by
    rw [← List.reverse_append, unloaded, htail, List.reverse_reverse]
  have hlist : (L.moduleList.reverse.map fun e => str e.name) = (running L.log).reverse := by
    rw [List.map_reverse]
    exact congrArg List.reverse K.names_eq
  have hnodup : (running L.log).Nodup := K.once.nodup
  have hloop : unloadLoop answers (running L.log) L.moduleList.reverse =
      some (refusal answers (running L.log).reverse, unloaded answers (running L.log).reverse) := by
    rw [unloadLoop_eq _ _ hnodup, hlist]
    · rfl
    · rw [hlist]
      exact fun a ha => List.mem_reverse.mp ha
    · rw [hlist]
      exact List.nodup_reverse.mpr hnodup
  obtain ⟨horderly, hrunning⟩ := h.stops hsplit
  rw [List.reverse_reverse] at horderly hrunning
  refine ⟨tail.reverse, hsplit, ⟨L.moduleList,
    L.log ++ (unloaded answers (running L.log).reverse).map .stop,
    refusal answers (running L.log).reverse = .ok⟩, ?_, rfl, rfl, horderly, hrunning, ?_⟩
  · rw [step, hfreed, hloop]
    rfl
  · rw [decide_eq_true_iff, refusal_eq_ok_iff]
    simp

/-- `kylin_module_unload_all` has broken off: the last entry of the list is that of a module that
it has unloaded. -/
def Stale (L : Loader) : Prop :=
  ∃ e l, L.moduleList.reverse = e :: l ∧ str e.name ∉ running L.log

theorem Stale.not_intact (h : L.Stale) : ¬ L.Intact := by
  obtain ⟨e, l, hlist, hout⟩ := h
  intro hintact
  refine hout (hintact _ (List.mem_map_of_mem ?_))
  rw [session, ← List.mem_reverse, hlist]
  exact List.mem_cons_self

/-- Its handler cannot be called. -/
theorem Stale.unloadAll_eq_none (h : L.Stale) :
    step env L (.unloadAll answers back) = none := by
  obtain ⟨e, l, hlist, hout⟩ := h
  rw [step]
  split
  · rfl
  · rw [hlist, unloadLoop, if_pos (mt List.contains_iff_mem.mp hout)]
    rfl

/-- What holds after a run that has walked along `n` paths. -/
structure Inv (env : Env) (L : Loader) (n : ℕ) : Prop where
  orderly : Orderly env.deps L.log
  state : L.freed = true ∨ L.Stale ∨ Kept env L n

theorem Inv.kept (h : Inv env L n) (hfreed : L.freed = false) (hintact : L.Intact) :
    Kept env L n := by
  rcases h.state with hcon | hstale | K
  · rw [hfreed] at hcon
    cases hcon
  · exact absurd hintact hstale.not_intact
  · exact K

/-- Something was unloaded, and the list is as it was. -/
theorem Kept.stale {rest ms : List (List Char)} (K : Kept env L n)
    (hsplit : running L.log = rest ++ ms) (hne : ms ≠ []) (hlist : L'.moduleList = L.moduleList)
    (hrunning : running L'.log = rest) : L'.Stale := by
  have hnames : (L.moduleList.reverse.map fun e => str e.name) = ms.reverse ++ rest.reverse := by
    rw [List.map_reverse, ← List.reverse_append, ← hsplit]
    exact congrArg List.reverse K.names_eq
  cases hl : L.moduleList.reverse with
  | nil =>
      rw [hl] at hnames
      simp [hne] at hnames
  | cons e l =>
      refine ⟨e, l, by rw [hlist, hl], ?_⟩
      have hmem : str e.name ∈ ms := by
        rw [hl, List.map_cons] at hnames
        have hhead := congrArg List.head? hnames
        rw [List.head?_cons, List.head?_append_of_ne_nil _ (by simpa using hne)] at hhead
        exact List.mem_reverse.mp (List.mem_of_mem_head? hhead.symm)
      have hnodup : (running L.log).Nodup := K.once.nodup
      rw [hsplit] at hnodup
      rw [hrunning]
      exact fun hcon => List.disjoint_of_nodup_append hnodup hcon hmem

/-- Behind a call of `kylin_module_unload_all` the list is gone, or as it was, or stale. -/
theorem Kept.unloadAll_inv (K : Kept env L n) (h : Orderly env.deps L.log)
    (hfreed : L.freed = false) (answers : List Char → Kerr) (back : Bool) :
    ∃ ret L', step env L (.unloadAll answers back) = some (ret, L') ∧ Inv env L' n := by
  obtain ⟨rest, hsplit, L', hstep, hlist, -, horderly, hrunning, hfreed'⟩ :=
    K.unloadAll h hfreed answers back
  refine ⟨_, L', hstep, horderly, ?_⟩
  by_cases hall : L'.freed = true
  · exact .inl hall
  · right
    cases hms : (unloaded answers (running L.log).reverse).reverse with
    | nil =>
        -- nothing was unloaded
        right
        rw [hms, List.append_nil] at hsplit
        have hsession : L'.session = L.session := by
          rw [session, session, hlist, hrunning, ← hsplit]
        constructor
        · rw [hsession]
          exact K.walking
        · rw [hsession]
          exact K.once
        · rw [hsession]
          exact K.tidy
        · rw [hsession]
          exact K.bound
    | cons m ms =>
        left
        refine K.stale hsplit ?_ hlist hrunning
        rw [hms]
        exact List.cons_ne_nil m ms

/-- **One call.** -/
theorem Inv.step (G : env.Good) (h : Inv env L n) {act : Act} (hc : Sound env L act)
    (hn : n + walked env L act + 1 < 2 ^ 32) {ret : Option Kerr}
    (hstep : Loader.step env L act = some (ret, L')) : Inv env L' (n + walked env L act) := by
  have hfreed : L.freed = false := by
    cases hf : L.freed with
    | false => rfl
    | true =>
        rw [step_of_freed hf act] at hstep
        cases hstep
  cases act with
  | load m stack =>
      obtain ⟨hintact, hm, hz⟩ := hc
      obtain ⟨ret', L'', hstep', horderly, -, K'⟩ :=
        (h.kept hfreed hintact).load G h.orderly hfreed hm hz hn
      rw [hstep] at hstep'
      obtain ⟨-, rfl⟩ := Prod.mk.inj (Option.some.inj hstep')
      exact ⟨horderly, .inr (.inr K')⟩
  | unload m answers =>
      obtain ⟨hintact, hm, hfree⟩ := hc
      obtain ⟨ret', L'', hstep', horderly, -, K'⟩ :=
        (h.kept hfreed hintact).unload h.orderly hfreed hm hfree answers
      rw [hstep] at hstep'
      obtain ⟨-, rfl⟩ := Prod.mk.inj (Option.some.inj hstep')
      exact ⟨horderly, .inr (.inr K')⟩
  | unloadAll answers back =>
      rcases h.state with hcon | hstale | K
      · rw [hfreed] at hcon
        cases hcon
      · rw [hstale.unloadAll_eq_none] at hstep
        cases hstep
      · obtain ⟨ret', L'', hstep', hinv⟩ := K.unloadAll_inv h.orderly hfreed answers back
        rw [hstep] at hstep'
        obtain ⟨-, rfl⟩ := Prod.mk.inj (Option.some.inj hstep')
        exact hinv
  | destroy back =>
      rw [Loader.step, if_neg (by simp [hfreed])] at hstep
      obtain ⟨-, rfl⟩ := Prod.mk.inj (Option.some.inj hstep)
      exact ⟨h.orderly, .inl rfl⟩

theorem run_inv {tr : List (Step Loader Act (Option Kerr))} (G : env.Good)
    (hrun : Run (step env) (Sound env) create tr L) (hpaths : pathsWalked env tr + 1 < 2 ^ 32) :
    Inv env L (pathsWalked env tr) := by
  induction hrun with
  | nil => exact ⟨orderly_nil, .inr (.inr (kept_create env))⟩
  | @snoc tr L c ret L' hrun hc hstep ih =>
      have hsum : pathsWalked env (tr ++ [⟨L, c, ret, L'⟩]) =
          pathsWalked env tr + walked env L c := by
        simp [pathsWalked]
      rw [hsum] at hpaths ⊢
      exact (ih (by omega)).step G hc hpaths hstep

/-- **Modules that are loaded have what they depend on**, at every moment of every run of loads
that the loader supports, unloads of modules that nothing in the list depends on, and
`kylin_module_unload_all`, whatever the handlers answer.  While the list is there and all of it is
loaded, it is in the order of the loads, and every further such call returns. -/
theorem run_orderly {tr : List (Step Loader Act (Option Kerr))} (G : env.Good)
    (hrun : Run (step env) (Sound env) create tr L) (hpaths : pathsWalked env tr < 2 ^ 32 - 1) :
    Orderly env.deps L.log ∧
      (∀ pre, pre <+: L.log → (running pre).Nodup ∧
        ∀ m ∈ running pre, ∀ d ∈ env.deps m, d ∈ running pre) ∧
      (L.freed = false → L.Intact → L.session.names = running L.log ∧
        ∀ act, Sound env L act → pathsWalked env tr + walked env L act < 2 ^ 32 - 1 →
          (step env L act).isSome) := by
  have h := run_inv G hrun (by omega)
  refine ⟨h.orderly, ?_, ?_⟩
  · intro pre hpre
    exact ⟨(h.orderly.of_prefix hpre).ordered.1, h.orderly.closed hpre⟩
  · intro hfreed hintact
    have K := h.kept hfreed hintact
    refine ⟨K.names_eq, ?_⟩
    intro act hc hn
    cases act with
    | load m stack =>
        obtain ⟨ret, L', hstep, -⟩ := K.load G h.orderly hfreed hc.2.1 hc.2.2 (by omega)
        rw [hstep]
        rfl
    | unload m answers =>
        obtain ⟨ret, L', hstep, -⟩ := K.unload h.orderly hfreed hc.2.1 hc.2.2 answers
        rw [hstep]
        rfl
    | unloadAll answers back =>
        obtain ⟨ret, L', hstep, -⟩ := K.unloadAll_inv h.orderly hfreed answers back
        rw [hstep]
        rfl
    | destroy back =>
        rw [step, if_neg (by simp [hfreed])]
        rfl

/-- A module with an entry that is not loaded cannot be unloaded. -/
theorem unload_eq_none {a : List Char} (ha : Fits a) (hl : L.session.Listed a)
    (hout : a ∉ running L.log) : step env L (.unload a answers) = none := by
  obtain ⟨e, hfind⟩ := Option.isSome_iff_exists.mp hl
  have hname : e.name = pad a := by
    rw [find] at hfind
    simpa using List.find?_some hfind
  rw [step]
  split
  · rfl
  · simp only [take_name ha, hfind, hname, str_pad ha, if_neg (mt List.contains_iff_mem.mp hout)]

theorem refusal_append (ms : List (List Char)) {m : List Char} (hm : answers m ≠ .ok)
    (hms : ∀ a ∈ ms, answers a = .ok) (rest : List (List Char)) :
    refusal answers (ms ++ m :: rest) = answers m ∧ unloaded answers (ms ++ m :: rest) = ms := by
  have hnone : ms.find? (fun a => decide (answers a ≠ .ok)) = none := by
    rw [List.find?_eq_none]
    intro a ha
    simp [hms a ha]
  constructor
  · rw [refusal, List.find?_append, hnone, Option.none_or,
      List.find?_cons_of_pos (by simpa using hm)]
    rfl
  · rw [unloaded, List.takeWhile_append_of_pos (by simpa using hms),
      List.takeWhile_cons_of_neg (by simpa using hm), List.append_nil]

/-- **What `kylin_module_unload_all` does** behind every such run.  If all handlers agree, every
module is unloaded, from the end of the list, and no call on the session has a meaning any
more.  Otherwise it stops at the last module of the list whose handler refuses: those behind it are
unloaded, but they keep their entries, and unloading them again, one by one or all, calls a handler
that is gone. -/
theorem run_unloadAll {tr : List (Step Loader Act (Option Kerr))} (G : env.Good)
    (hrun : Run (step env) (Sound env) create tr L) (hpaths : pathsWalked env tr < 2 ^ 32 - 1)
    (hfreed : L.freed = false) (hintact : L.Intact) (answers : List Char → Kerr) (back : Bool) :
    ∃ ret L', step env L (.unloadAll answers back) = some (ret, L') ∧
      ((∀ a ∈ L.session.names, answers a = .ok) →
        ret = L.listDestroy back ∧ L'.log = L.log ++ L.session.names.reverse.map .stop ∧
          running L'.log = [] ∧ ∀ act, step env L' act = none) ∧
      ∀ pre m post, L.session.names = pre ++ m :: post → answers m ≠ .ok →
        (∀ a ∈ post, answers a = .ok) →
        ret = some (answers m) ∧ L'.log = L.log ++ post.reverse.map .stop ∧
          running L'.log = pre ++ [m] ∧ L'.moduleList = L.moduleList ∧
          (post ≠ [] → ∀ answers' back', step env L' (.unloadAll answers' back') = none) ∧
          ∀ a ∈ post, ∀ answers', step env L' (.unload a answers') = none := by
  have h := run_inv G hrun (by omega)
  have K := h.kept hfreed hintact
  obtain ⟨rest, hsplit, L', hstep, hlist, hlog, -, hrunning, hfreed'⟩ :=
    K.unloadAll h.orderly hfreed answers back
  refine ⟨_, L', hstep, ?_, ?_⟩
  · intro hall
    rw [K.names_eq] at hall ⊢
    have hunloaded : unloaded answers (running L.log).reverse = (running L.log).reverse := by
      rw [unloaded, List.takeWhile_eq_self_iff]
      simpa using hall
    rw [hunloaded, List.reverse_reverse] at hsplit
    rw [hunloaded] at hlog
    refine ⟨if_pos (refusal_eq_ok_iff.mpr (by simpa using hall)), hlog, ?_, ?_⟩
    · rw [hrunning]
      simpa using hsplit
    · exact fun act => step_of_freed (hfreed'.mpr hall) act
  · intro pre m post hnames hm hpost
    rw [K.names_eq] at hnames
    have hreverse : (running L.log).reverse = post.reverse ++ m :: pre.reverse := by
      rw [hnames]
      simp
    obtain ⟨hret, hunloaded⟩ := refusal_append post.reverse hm (by simpa using hpost) pre.reverse
    rw [← hreverse] at hret hunloaded
    rw [hunloaded, hnames, List.reverse_reverse] at hsplit
    rw [hunloaded] at hlog
    have hrest : rest = pre ++ [m] := by
      have happ : (pre ++ [m]) ++ post = rest ++ post := by
        rw [← hsplit]
        simp
      exact (List.append_cancel_right happ).symm
    have hnodup : ((pre ++ [m]) ++ post).Nodup := by
      have hnodup : (running L.log).Nodup := K.once.nodup
      rw [hnames] at hnodup
      simpa using hnodup
    have hout : ∀ a ∈ post, a ∉ running L'.log := by
      intro a ha hcon
      rw [hrunning, hrest] at hcon
      exact List.disjoint_of_nodup_append hnodup hcon ha
    refine ⟨?_, hlog, hrunning.trans hrest, hlist, ?_, ?_⟩
    · rw [hret, if_neg hm]
    · intro hne answers' back'
      have hsplit' : running L.log = rest ++ post := by
        rw [hrest, hnames]
        simp
      exact (K.stale hsplit' hne hlist hrunning).unloadAll_eq_none
    · intro a ha answers'
      have hmem : a ∈ L.session.loads := by
        change a ∈ running L.log
        rw [hnames]
        simp [ha]
      have hl : L'.session.Listed a := by
        have hold := (K.once.listed a hmem).2.1
        rw [Listed, find] at hold ⊢
        rw [session, hlist]
        exact hold
      exact unload_eq_none (K.once.listed a hmem).1 hl (hout a ha)

/-- The diamond is loaded; the handler of `b` will refuse. -/
def refusesB (m : List Char) : Kerr := if m = ['b'] then .inval else .ok

/-- The list and the log behind `kylin_module_load` of the top of the diamond. -/
def diamondLoaded : Loader where
  moduleList := [⟨pad ['d'], 2⟩, ⟨pad ['b'], 1⟩, ⟨pad ['c'], 1⟩, ⟨pad ['a'], 1⟩]
  log := [.start ['d'], .start ['b'], .start ['c'], .start ['a']]
  freed := false

theorem run_diamondLoaded : ∃ tr, Run (step diamond) (Sound diamond) create tr diamondLoaded ∧
    pathsWalked diamond tr < 2 ^ 32 - 1 := by
  have hstep : step diamond create (.load ['a'] (some (pad []))) =
      some (some .ok, diamondLoaded) := by
    have hload : Session.create.load diamond ['a'] (some (pad [])) =
        .ok (.ok, ⟨diamondLoaded.moduleList, [['d'], ['b'], ['c'], ['a']]⟩) := by
      decide +kernel
    have hfresh : create.session = Session.create := rfl
    rw [step, if_neg (by decide), hfresh, hload]
    rfl
  have hsound : Sound diamond create (.load ['a'] (some (pad []))) :=
    ⟨by simp [Intact, session, create, Session.names], ⟨by decide, by decide +kernel⟩,
      fun _ => zeroed_pad_nil _⟩
  exact ⟨_, Run.nil.snoc hsound hstep, by decide +kernel⟩

theorem run_orderly_diamond : Orderly diamond.deps diamondLoaded.log ∧
    diamondLoaded.session.names = running diamondLoaded.log := by
  obtain ⟨tr, hrun, hpaths⟩ := run_diamondLoaded
  have h := run_orderly diamond_good hrun hpaths
  exact ⟨h.1, (h.2.2 rfl (by unfold Intact; decide +kernel)).1⟩

theorem run_unloadAll_diamond : ∃ L', step diamond diamondLoaded (.unloadAll refusesB true) =
    some (some .inval, L') ∧ running L'.log = [['d'], ['b']] ∧
      step diamond L' (.unload ['c'] fun _ => .ok) = none := by
  obtain ⟨tr, hrun, hpaths⟩ := run_diamondLoaded
  obtain ⟨ret, L', hstep, -, hrefused⟩ := run_unloadAll diamond_good hrun hpaths rfl
    (by unfold Intact; decide +kernel) refusesB true
  obtain ⟨hret, -, hrunning, -, -, hgone⟩ := hrefused [['d']] ['b'] [['c'], ['a']]
    (by decide +kernel) (by decide) (by decide)
  rw [show ret = some .inval from hret] at hstep
  exact ⟨L', hstep, hrunning, hgone ['c'] List.mem_cons_self _⟩

end Loader

end Session

end Kylin.Kmod
