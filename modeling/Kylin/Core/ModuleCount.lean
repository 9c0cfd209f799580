import Kylin.Core.ModuleOrder
import Mathlib.Data.List.Perm.Basic

/-!
# The counts of the modules

The count of a module should be the number of listed modules that depend on it, and one
more if it was asked for itself.  The loader counts paths instead: each time it comes to
a module it walks below it again, and counts everything there once more.  Unloading takes
one entry out whoever depends on it, and gives nothing back for what that entry depended
on.

`run_counts` says when the books are right all the same: a module with dependencies of
its own is reached at most once, and only modules without dependencies and dependents
are unloaded.

## Main definitions

* `dependents` — the listed modules that depend on a module.
* `Booking` — a session and the modules that were asked for.
* `Straight`, `Booking.Sound` — the condition on one call.

## Main results

* `counts_load`, `counts_unload` — the counts after one call.
* `run_counts` — the counts after every run.
-/

namespace Kylin.Kmod

open Lib Lib.Graph

namespace Session

/-- The names in the list. -/
def names (s : Session) : List (List Char) := s.moduleList.map fun e => str e.name

/-- How many modules of the list depend directly on `x`. -/
def dependents (env : Env) (s : Session) (x : List Char) : ℕ :=
  s.names.countP fun a => x ∈ env.deps a

variable {env : Env} {s s' : Session} {m x a : List Char} {requested : List (List Char)}

theorem mem_names_iff (W : Walking env s []) (ha : Fits a) : a ∈ s.names ↔ s.Listed a := by
  rw [names, List.mem_map, Listed, find, List.find?_isSome]
  constructor
  · rintro ⟨e, he, rfl⟩
    obtain ⟨b, hb, hname⟩ := W.fits e.name (List.mem_map_of_mem he)
    refine ⟨e, he, ?_⟩
    rw [hname, str_pad hb]
    simp
  · rintro ⟨e, he, hname⟩
    refine ⟨e, he, ?_⟩
    rw [of_decide_eq_true hname, str_pad ha]

theorem fits_of_mem_names (W : Walking env s []) (ha : a ∈ s.names) : Fits a := by
  obtain ⟨e, he, rfl⟩ := List.mem_map.mp ha
  obtain ⟨b, hb, hname⟩ := W.fits e.name (List.mem_map_of_mem he)
  rw [hname, str_pad hb]
  exact hb

theorem nodup_names (W : Walking env s []) : s.names.Nodup := by
  have hmap : s.names = (s.moduleList.map Entry.name).map str := by
    rw [List.map_map]
    rfl
  rw [hmap]
  refine List.Nodup.map_on ?_ W.names
  intro b hb c hc hbc
  obtain ⟨x, hx, rfl⟩ := W.fits b hb
  obtain ⟨y, hy, rfl⟩ := W.fits c hc
  rw [str_pad hx, str_pad hy] at hbc
  rw [hbc]

/-- The books are right: the count of every module, listed or not, is that of its
listed dependents, and one if it was asked for. -/
def Counts (env : Env) (s : Session) (requested : List (List Char)) : Prop :=
  ∀ x, Fits x → s.refs x = dependents env s x + if x ∈ requested then 1 else 0

/-- A module to be loaded below which nothing is walked along twice: every dependency is
declared once, and a module with dependencies is not listed and has one path to it. -/
structure Straight (env : Env) (s : Session) (m : List Char) : Prop where
  distinct : ∀ a, Relation.ReflTransGen (Edge env.deps) m a → (env.deps a).Nodup
  fresh : ∀ a, Relation.TransGen (Edge env.deps) m a → env.deps a ≠ [] →
    ¬ s.Listed a ∧ (paths env.deps (env.files.length + 1) m).count a = 1

/-- Where dependencies are declared once, the declarations of `x` are as many as the
modules that depend on it. -/
theorem sum_count_deps (env : Env) (x : List Char) (l : List (List Char))
    (h : ∀ a ∈ l, (env.deps a).Nodup) :
    (l.map fun a => (env.deps a).count x).sum = l.countP fun a => x ∈ env.deps a := by
  induction l with
  | nil => rfl
  | cons a l ih =>
      rw [List.map_cons, List.sum_cons, ih fun b hb => h b (List.mem_cons_of_mem a hb),
        List.countP_cons]
      by_cases hx : x ∈ env.deps a
      · rw [List.count_eq_one_of_mem (h a List.mem_cons_self) hx]
        simp [hx, Nat.add_comm]
      · rw [List.count_eq_zero.mpr hx]
        simp [hx]

section Load
variable (G : env.Good) (hm : Fits m) (hl : ¬ s.Listed m) (hs : Straight env s m)
include G hl hs

/-- A module with dependencies that is walked along is not listed, and is met once. -/
theorem Straight.once (ha : a ∈ m :: paths env.deps (env.files.length + 1) m)
    (hdeps : env.deps a ≠ []) :
    ¬ s.Listed a ∧ (m :: paths env.deps (env.files.length + 1) m).count a = 1 := by
  have hout : m ∉ paths env.deps (env.files.length + 1) m :=
    fun hmem => G.acyclic m (transGen_of_mem_paths hmem)
  rw [count_visit]
  rcases List.mem_cons.mp ha with rfl | ha
  · refine ⟨hl, ?_⟩
    rw [if_pos rfl, List.count_eq_zero.mpr hout]
  · obtain ⟨hnew, hone⟩ := hs.fresh a (transGen_of_mem_paths ha) hdeps
    refine ⟨hnew, ?_⟩
    rw [if_neg, hone]
    rintro rfl
    exact hout ha

include hm

omit hl hs in
/-- The list after a walk: the modules before, and the modules walked along. -/
theorem mem_names_walked (W : Walking env s [])
    (hw : Walked env s s' [] (m :: paths env.deps (env.files.length + 1) m)) (a : List Char) :
    a ∈ s'.names ↔ a ∈ s.names ∨ a ∈ m :: paths env.deps (env.files.length + 1) m := by
  have hlisted : Fits a → (s'.Listed a ↔
      s.Listed a ∨ a ∈ m :: paths env.deps (env.files.length + 1) m) := by
    intro ha
    rw [hw.walking.listed_iff ha, W.listed_iff ha, hw.refs a ha, Nat.add_pos_iff_pos_or_pos,
      List.count_pos_iff]
  have hfits : a ∈ m :: paths env.deps (env.files.length + 1) m → Fits a := by
    intro ha
    rcases List.mem_cons.mp ha with rfl | ha
    · exact hm
    · obtain ⟨b, -, hb⟩ := Relation.TransGen.tail'_iff.mp (transGen_of_mem_paths ha)
      exact G.fits b a hb
  constructor
  · intro ha
    have hfit := fits_of_mem_names hw.walking ha
    rw [mem_names_iff W hfit]
    exact (hlisted hfit).mp ((mem_names_iff hw.walking hfit).mp ha)
  · rintro (ha | ha)
    · have hfit := fits_of_mem_names W ha
      exact (mem_names_iff hw.walking hfit).mpr
        ((hlisted hfit).mpr (.inl ((mem_names_iff W hfit).mp ha)))
    · exact (mem_names_iff hw.walking (hfits ha)).mpr ((hlisted (hfits ha)).mpr (.inr ha))

/-- The dependents after a walk: those before, and the modules walked along. -/
theorem dependents_walked (W : Walking env s [])
    (hw : Walked env s s' [] (m :: paths env.deps (env.files.length + 1) m)) (x : List Char) :
    dependents env s' x = dependents env s x +
      (m :: paths env.deps (env.files.length + 1) m).countP fun a => x ∈ env.deps a := by
  let visited := m :: paths env.deps (env.files.length + 1) m
  have honce : ∀ a ∈ visited, x ∈ env.deps a → ¬ s.Listed a ∧ visited.count a = 1 :=
    fun a ha hx => hs.once G hl ha (List.ne_nil_of_mem hx)
  have hperm : (s'.names.filter fun a => x ∈ env.deps a).Perm
      ((s.names.filter fun a => x ∈ env.deps a) ++ visited.filter fun a => x ∈ env.deps a) := by
    refine (List.perm_ext_iff_of_nodup ((nodup_names hw.walking).filter _) ?_).mpr ?_
    · rw [List.nodup_append]
      refine ⟨(nodup_names W).filter _, ?_, ?_⟩
      · rw [List.nodup_iff_count_le_one]
        intro a
        by_cases ha : a ∈ visited.filter fun a => x ∈ env.deps a
        · have hx := (List.mem_filter.mp ha).2
          rw [List.count_filter (p := fun a => x ∈ env.deps a) hx]
          exact (honce a (List.mem_filter.mp ha).1 (of_decide_eq_true hx)).2.le
        · rw [List.count_eq_zero.mpr ha]
          exact Nat.zero_le _
      · rintro a ha b hb rfl
        obtain ⟨hvisited, hx⟩ := List.mem_filter.mp hb
        have hnames := (List.mem_filter.mp ha).1
        refine (honce a hvisited (of_decide_eq_true hx)).1 ?_
        exact (mem_names_iff W (fits_of_mem_names W hnames)).mp hnames
    · intro a
      rw [List.mem_append, List.mem_filter, List.mem_filter, List.mem_filter,
        mem_names_walked G hm W hw, or_and_right]
  simp only [dependents, List.countP_eq_length_filter]
  rw [hperm.length_eq, List.length_append]

/-- **The counts after a module was loaded.** -/
theorem counts_load (W : Walking env s [])
    (hw : Walked env s s' [] (m :: paths env.deps (env.files.length + 1) m))
    (hc : Counts env s requested) : Counts env s' (m :: requested) := by
  intro x hx
  obtain ⟨rank, hbound, hrank⟩ := G.exists_rank
  have hpaths := count_paths hrank x ((hbound m).trans (Nat.le_add_right _ 1))
  have hdistinct : ∀ a ∈ m :: paths env.deps (env.files.length + 1) m, (env.deps a).Nodup := by
    intro a ha
    rcases List.mem_cons.mp ha with rfl | ha
    · exact hs.distinct a .refl
    · exact hs.distinct a (transGen_of_mem_paths ha).to_reflTransGen
  rw [sum_count_deps env x _ hdistinct] at hpaths
  have hnot : m ∉ requested := by
    intro hmem
    have hzero := hc m hm
    rw [refs_eq_zero hl, if_pos hmem] at hzero
    omega
  rw [hw.refs x hx, hc x hx, count_visit, hpaths, dependents_walked G hm hl hs W hw]
  by_cases hxm : x = m
  · rw [hxm, if_neg hnot, if_pos rfl, if_pos List.mem_cons_self]
    omega
  · rw [if_neg hxm]
    have hiff : x ∈ m :: requested ↔ x ∈ requested := by
      rw [List.mem_cons, or_iff_right hxm]
    by_cases hreq : x ∈ requested
    · rw [if_pos hreq, if_pos (hiff.mpr hreq)]
      omega
    · rw [if_neg hreq, if_neg (mt hiff.mp hreq)]
      omega

end Load

section Unload
variable (W : Walking env s []) (hm : Fits m) (hl : s.Listed m) (hun : env.unloaded m = .ok)
include W hm hl hun

/-- Unloading takes one entry out of the list. -/
theorem unload_listed : ∃ s' e l₁ l₂, s.unload env m = (.ok, s') ∧
    s.moduleList = l₁ ++ e :: l₂ ∧ s'.moduleList = l₁ ++ l₂ ∧ e.name = pad m ∧
    s'.loads = s.loads ∧ ∀ c, s'.find c = if c = pad m then none else s.find c := by
  obtain ⟨e, he⟩ := Option.isSome_iff_exists.mp hl
  have hmem := List.mem_of_find?_eq_some he
  have hname := List.find?_some he
  obtain ⟨e', l₁, l₂, hfirst, hname', hlist, herase⟩ :=
    List.exists_of_eraseP (p := fun e : Entry => decide (e.name = pad m)) hmem hname
  have hname' : e'.name = pad m := of_decide_eq_true hname'
  have hnodup := W.names
  rw [hlist, List.map_append, List.map_cons] at hnodup
  refine ⟨{ s with moduleList := s.moduleList.eraseP fun e => e.name = pad m }, e', l₁, l₂, ?_,
    hlist, herase, hname', rfl, ?_⟩
  · rw [unload, take_name hm]
    simp [he, str_pad hm, hun]
  · intro c
    change (s.moduleList.eraseP _).find? _ = if _ then _ else s.moduleList.find? _
    rw [herase, hlist, List.find?_append, List.find?_append, List.find?_cons]
    by_cases hc : c = pad m
    · have hno₁ : (l₁.find? fun e => e.name = c) = none := by
        rw [List.find?_eq_none, hc]
        exact hfirst
      have hno₂ : (l₂.find? fun e => e.name = c) = none := by
        rw [List.find?_eq_none, hc, ← hname']
        intro e he heq
        have hout := (List.nodup_cons.mp (List.Nodup.of_append_right hnodup)).1
        exact hout (of_decide_eq_true heq ▸ List.mem_map_of_mem he)
      rw [hno₁, hno₂, if_pos hc]
      rfl
    · have hne : ¬ e'.name = c := fun h => hc (h.symm.trans hname')
      simp [hc, hne]

/-- **The counts after a module was unloaded** that depends on nothing and that no
listed module depends on. -/
theorem counts_unload (hdeps : env.deps m = []) (hnone : dependents env s m = 0)
    (hc : Counts env s requested) : ∃ s', s.unload env m = (.ok, s') ∧ Walking env s' [] ∧
      Counts env s' (requested.filter (· ≠ m)) := by
  obtain ⟨s', e, l₁, l₂, hunload, hlist, hlist', hname, hloads, hfind⟩ :=
    unload_listed W hm hl hun
  have hsub : s'.moduleList.Sublist s.moduleList := by
    rw [hlist, hlist']
    exact (List.sublist_cons_self e l₂).append_left l₁
  have hlisted : ∀ x, Fits x → (s'.Listed x ↔ x ≠ m ∧ s.Listed x) := by
    intro x hx
    rw [Listed, hfind]
    by_cases hxm : x = m
    · simp [hxm]
    · rw [if_neg (fun hpad => hxm ((pad_inj hx hm).mp hpad))]
      simp [hxm, Listed]
  have hrefs : ∀ x, Fits x → s'.refs x = if x = m then 0 else s.refs x := by
    intro x hx
    rw [refs, hfind]
    by_cases hxm : x = m
    · simp [hxm]
    · rw [if_neg (fun hpad => hxm ((pad_inj hx hm).mp hpad)), if_neg hxm, refs]
  refine ⟨s', hunload, ⟨?_, ?_, ?_, ?_, ?_⟩, ?_⟩
  · exact W.names.sublist (hsub.map _)
  · exact fun buf hbuf => W.fits buf ((hsub.map _).subset hbuf)
  · intro x hx hlx
    rw [hrefs x hx, if_neg ((hlisted x hx).mp hlx).1]
    exact W.pos x hx ((hlisted x hx).mp hlx).2
  · intro x hx hlx hout
    rw [hloads]
    exact W.loaded x hx ((hlisted x hx).mp hlx).2 hout
  · rw [hloads]
    exact W.closed
  · intro x hx
    have hsame : dependents env s' x = dependents env s x := by
      rw [dependents, dependents, names, names, hlist, hlist', List.map_append, List.map_append,
        List.map_cons, List.countP_append, List.countP_append, List.countP_cons, hname,
        str_pad hm, hdeps]
      rfl
    rw [hrefs x hx, hsame]
    by_cases hxm : x = m
    · simp [hxm, hnone]
    · rw [if_neg hxm, hc x hx]
      simp [hxm]

end Unload

/-! ## Runs -/

/-- A session, and the modules that were asked for and not unloaded since. -/
structure Booking where
  session : Session
  requested : List (List Char)

namespace Booking

/-- A new session. -/
def create : Booking := ⟨Session.create, []⟩

/-- The requests after a call. -/
def request (requested : List (List Char)) : Call → List (List Char)
  | .load m _ => m :: requested
  | .unload m => requested.filter (· ≠ m)

/-- One call. -/
def step (env : Env) (b : Booking) (c : Call) : Option (Kerr × Booking) :=
  (Session.step env b.session c).map fun (ret, s) => (ret, ⟨s, request b.requested c⟩)

/-- **The books are right**: what a listed module depends on is listed, and its count is
the number of the listed modules that depend on it, and one if it was asked for. -/
def Right (env : Env) (b : Booking) : Prop :=
  ∀ e ∈ b.session.moduleList, (∀ d ∈ env.deps (str e.name), d ∈ b.session.names) ∧
    e.refcnt = dependents env b.session (str e.name) + if str e.name ∈ b.requested then 1 else 0

instance (env : Env) (b : Booking) : Decidable (b.Right env) :=
  inferInstanceAs (Decidable (∀ e ∈ _, _))

/-- The calls that keep the books right.  A module that is loaded is new and nothing is
walked along twice below it, or it was asked for before; a module that is unloaded has
neither dependencies nor dependents. -/
def Sound (env : Env) (b : Booking) : Call → Prop
  | .load m stack => env.Requested m ∧
      (b.session.Listed m → m ∈ b.requested) ∧
      (¬ b.session.Listed m → Zeroed stack m ∧ Straight env b.session m ∧
        ∀ x, Fits x → b.session.refs x +
          (m :: paths env.deps (env.files.length + 1) m).count x < 2 ^ 32)
  | .unload m => Fits m ∧ (b.session.Listed m →
      env.deps m = [] ∧ dependents env b.session m = 0)

/-- The invariant of runs. -/
structure Inv (env : Env) (b : Booking) : Prop where
  walking : Walking env b.session []
  counts : Counts env b.session b.requested

theorem inv_create (env : Env) : Inv env create where
  walking := walking_create env
  counts := fun _ _ => rfl

variable {env : Env} {b : Booking}

theorem Inv.right (G : env.Good) (h : Inv env b) : b.Right env := by
  intro e he
  obtain ⟨a, ha, hname⟩ := h.walking.fits e.name (List.mem_map_of_mem he)
  have hmem : a ∈ b.session.names := List.mem_map.mpr ⟨e, he, by rw [hname, str_pad ha]⟩
  rw [hname, str_pad ha]
  constructor
  · intro d hd
    have hfit := G.fits a d hd
    have hpos : 0 < dependents env b.session d :=
      List.countP_pos_iff.mpr ⟨a, hmem, decide_eq_true hd⟩
    rw [mem_names_iff h.walking hfit, h.walking.listed_iff hfit, h.counts d hfit]
    omega
  · obtain ⟨e', he'⟩ := Option.isSome_iff_exists.mp ((mem_names_iff h.walking ha).mp hmem)
    have hfound := List.find?_some he'
    have hsame : e' = e := by
      refine List.inj_on_of_nodup_map h.walking.names (List.mem_of_find?_eq_some he') he ?_
      rw [of_decide_eq_true hfound, hname]
    have hcount := h.counts a ha
    rw [refs, he', hsame] at hcount
    exact hcount

/-- **One call** that keeps the books right: it returns, and they are. -/
theorem Inv.step (G : env.Good) (hun : ∀ m, env.unloaded m = .ok) (h : Inv env b) {c : Call}
    (hc : Sound env b c) : ∃ ret b', Booking.step env b c = some (ret, b') ∧ Inv env b' := by
  cases c with
  | load m stack =>
      obtain ⟨hm, hold, hnew⟩ := hc
      by_cases hl : b.session.Listed m
      · refine ⟨.exist, ⟨b.session, m :: b.requested⟩, ?_, h.walking, ?_⟩
        · rw [Booking.step, Session.step, load_listed hm.1 hl]
          rfl
        · intro x hx
          rw [h.counts x hx]
          have hiff : x ∈ m :: b.requested ↔ x ∈ b.requested := by
            rw [List.mem_cons]
            constructor
            · rintro (rfl | hx)
              · exact hold hl
              · exact hx
            · exact Or.inr
          simp [hiff]
      · obtain ⟨hz, hs, hfit⟩ := hnew hl
        obtain ⟨s', hload, hw, -⟩ := load_new G h.walking hm hl hz hfit
        refine ⟨.ok, ⟨s', m :: b.requested⟩, ?_, hw.walking,
          counts_load G hm.1 hl hs h.walking hw h.counts⟩
        rw [Booking.step, Session.step, hload]
        rfl
  | unload m =>
      obtain ⟨hm, hfree⟩ := hc
      by_cases hl : b.session.Listed m
      · obtain ⟨hdeps, hnone⟩ := hfree hl
        obtain ⟨s', hunload, W, hcounts⟩ :=
          counts_unload h.walking hm hl (hun m) hdeps hnone h.counts
        refine ⟨.ok, ⟨s', b.requested.filter (· ≠ m)⟩, ?_, W, hcounts⟩
        rw [Booking.step, Session.step, hunload]
        rfl
      · refine ⟨.noent, ⟨b.session, b.requested.filter (· ≠ m)⟩, ?_, h.walking, ?_⟩
        · have hfind : b.session.find (pad m) = none := Option.not_isSome_iff_eq_none.mp hl
          rw [Booking.step, Session.step, unload, take_name hm]
          simp [hfind, request]
        · intro x hx
          have hnot : m ∉ b.requested := by
            intro hmem
            have hzero := h.counts m hm
            rw [refs_eq_zero hl, if_pos hmem] at hzero
            omega
          rw [h.counts x hx]
          by_cases hxm : x = m
          · simp [hxm, hnot]
          · simp [hxm]

/-- **The books are right** after every run of calls that keep them right, and every
further such call returns. -/
theorem run_counts {tr : List (Step Booking Call Kerr)} (G : env.Good)
    (hun : ∀ m, env.unloaded m = .ok) (hrun : Run (Booking.step env) (Sound env) create tr b) :
    b.Right env ∧ ∀ c, Sound env b c → (Booking.step env b c).isSome := by
  have hinv : Inv env b := by
    refine hrun.invariant (inv_create env) ?_
    intro b c ret b' h hc hstep
    obtain ⟨ret', b'', hstep', h'⟩ := h.step G hun hc
    rw [hstep] at hstep'
    obtain ⟨-, rfl⟩ := Prod.mk.inj (Option.some.inj hstep')
    exact h'
  refine ⟨hinv.right G, ?_⟩
  intro c hc
  obtain ⟨ret, b', hstep, -⟩ := hinv.step G hun hc
  rw [hstep]
  rfl

/-- The diamond, loaded from its top: `d` has two dependents and is counted twice. -/
theorem run_counts_diamond : ∃ tr b, Run (Booking.step diamond) (Sound diamond) create tr b ∧
    b.session.refs ['d'] = 2 ∧ b.Right diamond := by
  let s : Session :=
    ⟨[⟨pad ['d'], 2⟩, ⟨pad ['b'], 1⟩, ⟨pad ['c'], 1⟩, ⟨pad ['a'], 1⟩],
      [['d'], ['b'], ['c'], ['a']]⟩
  have hstep : Booking.step diamond create (.load ['a'] (some (pad []))) =
      some (.ok, ⟨s, [['a']]⟩) := by
    have hload : Session.create.load diamond ['a'] (some (pad [])) = .ok (.ok, s) := by
      decide +kernel
    rw [Booking.step, Session.step]
    exact congrArg (fun r => (Except.toOption r).map _) hload
  have hfiles : ∀ a ∈ diamond.files.map Prod.fst, (diamond.deps a).Nodup ∧
      (diamond.deps a ≠ [] → a ≠ ['a'] → ¬ Session.create.Listed a ∧
        (paths diamond.deps (diamond.files.length + 1) ['a']).count a = 1) := by
    decide +kernel
  have hstraight : Straight diamond Session.create ['a'] := by
    constructor
    · intro a _
      by_cases hdeps : diamond.deps a = []
      · rw [hdeps]
        exact List.nodup_nil
      · exact (hfiles a (Env.mem_files_of_deps hdeps)).1
    · intro a ha hdeps
      refine (hfiles a (Env.mem_files_of_deps hdeps)).2 hdeps ?_
      rintro rfl
      exact diamond_good.acyclic _ ha
  have hrun : Run (Booking.step diamond) (Sound diamond) create
      [⟨create, .load ['a'] (some (pad [])), .ok, ⟨s, [['a']]⟩⟩] ⟨s, [['a']]⟩ := by
    refine Run.nil.snoc ⟨⟨by decide, by decide +kernel⟩, (fun h => by cases h), ?_⟩ hstep
    intro _
    refine ⟨zeroed_pad_nil _, hstraight, ?_⟩
    intro x _
    have hlen := List.count_le_length (a := x)
      (l := ['a'] :: paths diamond.deps (diamond.files.length + 1) ['a'])
    have hfive : (['a'] :: paths diamond.deps (diamond.files.length + 1) ['a']).length = 5 := by
      decide +kernel
    have hzero : create.session.refs x = 0 := rfl
    omega
  exact ⟨_, _, hrun, by decide +kernel, (run_counts diamond_good (fun _ => rfl) hrun).1⟩

/-- The diamond with a module `e` below `d`. -/
def pendant : Env where
  files :=
    [(['a'], ["a_depend_on_b".toList, "a_depend_on_c".toList]),
      (['b'], ["b_depend_on_d".toList]), (['c'], ["c_depend_on_d".toList]),
      (['d'], ["d_depend_on_e".toList]), (['e'], [])]
  loaded := fun _ => .ok
  unloaded := fun _ => .ok

/-- Loading `a` walks below `d` twice: `e` has one dependent and the count two. -/
theorem pendant_counted_twice : pendant.Good ∧
    ∃ b, Booking.step pendant create (.load ['a'] (some (pad []))) = some (.ok, b) ∧
      dependents pendant b.session ['e'] = 1 ∧ b.session.refs ['e'] = 2 ∧
      b.requested = [['a']] ∧ ¬ b.Right pendant := by
  refine ⟨Env.good_of_files (fun m => if m = ['a'] then 3 else if m = ['d'] then 1 else
    if m = ['e'] then 0 else 2) (fun _ => rfl) (by decide +kernel), ?_⟩
  let s : Session :=
    ⟨[⟨pad ['e'], 2⟩, ⟨pad ['d'], 2⟩, ⟨pad ['b'], 1⟩, ⟨pad ['c'], 1⟩, ⟨pad ['a'], 1⟩],
      [['e'], ['d'], ['b'], ['c'], ['a']]⟩
  refine ⟨⟨s, [['a']]⟩, ?_, by decide +kernel, by decide +kernel, rfl, by decide +kernel⟩
  have hload : Session.create.load pendant ['a'] (some (pad [])) = .ok (.ok, s) := by
    decide +kernel
  rw [Booking.step, Session.step]
  exact congrArg (fun r => (Except.toOption r).map _) hload

end Booking

end Session

end Kylin.Kmod
