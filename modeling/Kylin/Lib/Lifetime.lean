import Mathlib.Data.List.Induction
import Mathlib.Data.List.Nodup
import Mathlib.Tactic.Common

/-!
# Lifetimes of things that depend on each other

Things are started and stopped one at a time, and a log has the starts and stops.  It is orderly
if each start is of something that does not run, when all that it depends on does, and each stop
is of something that runs, when nothing that runs depends on it.

## Main definitions

* `Event`, `running` — what is logged, and what runs behind a log, in the order of the starts.
* `Ordered` — a list in which everything stands behind what it depends on.
* `Orderly` — the logs.

## Main results

* `Orderly.ordered`, `Orderly.closed` — what runs has what it depends on, behind every part of
  an orderly log.
* `Orderly.starts`, `Orderly.stops` — an ordered list is started from its front and stopped from
  its end.
-/

namespace Lib.Lifetime

/-- Something starts or stops. -/
inductive Event (V : Type)
  | start (v : V)
  | stop (v : V)
  deriving DecidableEq

variable {V : Type}

/-- Everything in the list stands behind what it depends on. -/
def Ordered (deps : V → List V) (l : List V) : Prop :=
  ∀ pre x post, l = pre ++ x :: post → ∀ d ∈ deps x, d ∈ pre

variable {deps : V → List V} {l l' : List V} {v : V}

theorem Ordered.mem (h : Ordered deps l) (hv : v ∈ l) : ∀ d ∈ deps v, d ∈ l := by
  obtain ⟨pre, post, rfl⟩ := List.append_of_mem hv
  intro d hd
  exact List.mem_append_left _ (h pre v post rfl d hd)

theorem ordered_nil : Ordered deps [] := by
  intro pre x post h
  simp at h

theorem Ordered.of_append (h : Ordered deps (l ++ l')) : Ordered deps l := by
  intro pre x post hl
  refine h pre x (post ++ l') ?_
  rw [hl, List.append_assoc, List.cons_append]

theorem ordered_concat : Ordered deps (l ++ [v]) ↔ Ordered deps l ∧ ∀ d ∈ deps v, d ∈ l := by
  constructor
  · intro h
    exact ⟨h.of_append, h l v [] rfl⟩
  · rintro ⟨h, hv⟩ pre x post hsplit
    rcases List.eq_nil_or_concat post with rfl | ⟨post', y, rfl⟩
    · obtain ⟨rfl, hx⟩ := List.append_inj' hsplit rfl
      obtain rfl := (List.cons.inj hx).1
      exact hv
    · rw [List.concat_eq_append, ← List.cons_append, ← List.append_assoc] at hsplit
      exact h pre x post' (List.append_inj' hsplit rfl).1

section Logs
variable [DecidableEq V]

/-- What runs behind one more event. -/
def apply (l : List V) : Event V → List V
  | .start v => l ++ [v]
  | .stop v => l.erase v

/-- What runs behind a log, in the order of the starts. -/
def running (log : List (Event V)) : List V := log.foldl apply []

/-- The event may come now. -/
def Admits (deps : V → List V) (l : List V) : Event V → Prop
  | .start v => v ∉ l ∧ ∀ d ∈ deps v, d ∈ l
  | .stop v => v ∈ l ∧ ∀ u ∈ l, v ∉ deps u

/-- Every event comes when it may. -/
def Orderly (deps : V → List V) (log : List (Event V)) : Prop :=
  ∀ pre e post, log = pre ++ e :: post → Admits deps (running pre) e

variable {log : List (Event V)} {e : Event V}

theorem running_concat : running (log ++ [e]) = apply (running log) e := by
  rw [running, List.foldl_append]
  rfl

theorem orderly_nil : Orderly deps ([] : List (Event V)) := by
  intro pre e post h
  simp at h

theorem orderly_concat :
    Orderly deps (log ++ [e]) ↔ Orderly deps log ∧ Admits deps (running log) e := by
  constructor
  · intro h
    refine ⟨?_, h log e [] rfl⟩
    intro pre e' post hl
    refine h pre e' (post ++ [e]) ?_
    rw [hl, List.append_assoc, List.cons_append]
  · rintro ⟨h, he⟩ pre e' post hsplit
    rcases List.eq_nil_or_concat post with rfl | ⟨post', e'', rfl⟩
    · obtain ⟨rfl, hx⟩ := List.append_inj' hsplit rfl
      obtain rfl := (List.cons.inj hx).1
      exact he
    · rw [List.concat_eq_append, ← List.cons_append, ← List.append_assoc] at hsplit
      exact h pre e' post' (List.append_inj' hsplit rfl).1

theorem Orderly.of_prefix {pre : List (Event V)} (h : Orderly deps log) (hpre : pre <+: log) :
    Orderly deps pre := by
  obtain ⟨rest, rfl⟩ := hpre
  intro pre' e post hl
  refine h pre' e (post ++ rest) ?_
  rw [hl, List.append_assoc, List.cons_append]

theorem apply_stop {l₁ l₂ : List V} (hout : v ∉ l₁) :
    apply (l₁ ++ v :: l₂) (.stop v) = l₁ ++ l₂ := by
  rw [apply, List.erase_append_right _ hout, List.erase_cons_head]

theorem mem_stop {u : V} (hnodup : l.Nodup) : u ∈ apply l (.stop v) ↔ u ≠ v ∧ u ∈ l :=
  hnodup.mem_erase_iff

theorem nodup_stop (hnodup : l.Nodup) : (apply l (.stop v)).Nodup := hnodup.erase v

/-- Something that nothing depends on is stopped. -/
theorem Ordered.stop (h : Ordered deps l) (hnodup : l.Nodup) (hv : v ∈ l)
    (hfree : ∀ u ∈ l, v ∉ deps u) : Ordered deps (apply l (.stop v)) := by
  obtain ⟨l₁, l₂, rfl⟩ := List.append_of_mem hv
  have hout : v ∉ l₁ := fun hmem => List.disjoint_of_nodup_append hnodup hmem List.mem_cons_self
  rw [apply_stop hout]
  intro pre x post hsplit d hd
  have hx : x ∈ l₁ ++ v :: l₂ := by
    have hmem : x ∈ l₁ ++ l₂ := by
      rw [hsplit]
      exact List.mem_append_right _ List.mem_cons_self
    rcases List.mem_append.mp hmem with hmem | hmem
    · exact List.mem_append_left _ hmem
    · exact List.mem_append_right _ (List.mem_cons_of_mem v hmem)
  have hne : d ≠ v := by
    rintro rfl
    exact hfree x hx hd
  rcases List.append_eq_append_iff.mp hsplit with ⟨as, rfl, hl₂⟩ | ⟨bs, rfl, hbs⟩
  · -- `x` stands behind the place
    have hmem := h (l₁ ++ v :: as) x post (by rw [hl₂, List.append_assoc, List.cons_append]) d hd
    rcases List.mem_append.mp hmem with hmem | hmem
    · exact List.mem_append_left _ hmem
    · exact List.mem_append_right _ ((List.mem_cons.mp hmem).resolve_left hne)
  · cases bs with
    | nil =>
        rw [List.append_nil, ← List.nil_append l₂, ← hbs] at h
        have hmem := h (pre ++ [v]) x post (by simp) d hd
        rcases List.mem_append.mp hmem with hmem | hmem
        · exact hmem
        · exact absurd (List.mem_singleton.mp hmem) hne
    | cons b bs =>
        obtain ⟨rfl, hpost⟩ := List.cons.inj hbs
        exact h pre x (bs ++ v :: l₂) (by rw [List.append_assoc, List.cons_append]) d hd

/-- **What runs behind an orderly log** has what it depends on, and runs once. -/
theorem Orderly.ordered (h : Orderly deps log) :
    (running log).Nodup ∧ Ordered deps (running log) := by
  induction log using List.reverseRecOn with
  | nil => exact ⟨List.nodup_nil, ordered_nil⟩
  | append_singleton log e ih =>
      obtain ⟨h, he⟩ := orderly_concat.mp h
      obtain ⟨hnodup, hord⟩ := ih h
      rw [running_concat]
      cases e with
      | start v =>
          refine ⟨?_, ordered_concat.mpr ⟨hord, he.2⟩⟩
          exact List.nodup_append.mpr ⟨hnodup, List.nodup_singleton v, by
            rintro a ha b hb rfl
            rw [List.mem_singleton.mp hb] at ha
            exact he.1 ha⟩
      | stop v => exact ⟨nodup_stop hnodup, hord.stop hnodup he.1 he.2⟩

/-- At every moment, what runs has what it depends on. -/
theorem Orderly.closed {pre : List (Event V)} (h : Orderly deps log) (hpre : pre <+: log) :
    ∀ v ∈ running pre, ∀ d ∈ deps v, d ∈ running pre :=
  fun _ hv => (h.of_prefix hpre).ordered.2.mem hv

/-- An ordered list is started from its front. -/
theorem Orderly.starts {ms : List V} (h : Orderly deps log) (hnodup : (running log ++ ms).Nodup)
    (hord : Ordered deps (running log ++ ms)) :
    Orderly deps (log ++ ms.map .start) ∧ running (log ++ ms.map .start) = running log ++ ms := by
  induction ms generalizing log with
  | nil => simpa using h
  | cons v ms ih =>
      have hsplit : running log ++ v :: ms = running log ++ [v] ++ ms := by simp
      rw [hsplit] at hnodup hord
      have hv : v ∉ running log := fun hmem =>
        List.disjoint_of_nodup_append hnodup.of_append_left hmem (List.mem_singleton_self v)
      have hone : Orderly deps (log ++ [.start v]) :=
        orderly_concat.mpr ⟨h, hv, (ordered_concat.mp hord.of_append).2⟩
      have hrun : running (log ++ [.start v]) = running log ++ [v] := running_concat
      obtain ⟨hrest, hrunning⟩ := ih hone (by rwa [hrun]) (by rwa [hrun])
      rw [hrun] at hrunning
      rw [List.map_cons, ← List.singleton_append, ← List.append_assoc, hsplit]
      exact ⟨hrest, hrunning⟩

/-- It is stopped from its end. -/
theorem Orderly.stops {ms : List V} (h : Orderly deps log) (hrun : running log = l ++ ms) :
    Orderly deps (log ++ ms.reverse.map .stop) ∧ running (log ++ ms.reverse.map .stop) = l := by
  induction ms using List.reverseRecOn generalizing log with
  | nil =>
      rw [List.append_nil] at hrun
      simpa using ⟨h, hrun⟩
  | append_singleton ms v ih =>
      obtain ⟨hnodup, hord⟩ := h.ordered
      rw [hrun, ← List.append_assoc] at hnodup hord
      have hv : v ∈ running log := by
        rw [hrun]
        simp
      have hout : v ∉ l ++ ms := fun hmem =>
        List.disjoint_of_nodup_append hnodup hmem (List.mem_singleton_self v)
      have hfree : ∀ u ∈ running log, v ∉ deps u := by
        intro u hu hd
        rw [hrun, ← List.append_assoc] at hu
        obtain ⟨pre, post, hsplit⟩ := List.append_of_mem hu
        have hmem := hord pre u post hsplit v hd
        -- `v` stands at the end, and nowhere else
        rcases List.eq_nil_or_concat post with rfl | ⟨post', y, rfl⟩
        · obtain ⟨rfl, -⟩ := List.append_inj' hsplit rfl
          exact hout hmem
        · rw [List.concat_eq_append, ← List.cons_append, ← List.append_assoc] at hsplit
          obtain ⟨heq, -⟩ := List.append_inj' hsplit rfl
          rw [heq] at hout
          exact hout (List.mem_append_left _ hmem)
      have hone : Orderly deps (log ++ [.stop v]) := orderly_concat.mpr ⟨h, hv, hfree⟩
      have hrun' : running (log ++ [.stop v]) = l ++ ms := by
        rw [running_concat, hrun, ← List.append_assoc, apply_stop hout, List.append_nil]
      obtain ⟨hrest, hrunning⟩ := ih hone hrun'
      rw [List.reverse_append, List.reverse_singleton, List.singleton_append, List.map_cons,
        ← List.singleton_append, ← List.append_assoc]
      exact ⟨hrest, hrunning⟩

end Logs

end Lib.Lifetime
