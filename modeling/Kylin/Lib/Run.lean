import Mathlib.Data.List.Basic
import Mathlib.Tactic.Common

/-!
# Runs of partial machines

A component with an interface is a step function `σ → α → Option (ρ × σ)`: in
state `s` the call `a` either returns a result and a new state, or is `none`
because its behaviour is undefined there (a fault) or it does not return.

`Run step ok s₀ tr s` says that `s` is reached from `s₀` by the calls recorded in
`tr`, each of them admitted by the side condition `ok` in the state it was made
in.  The side condition is the place for what callers promise, and for the
condition under which a defective call behaves.

The history is extended at its end, so that an invariant of all runs is proved by
one induction, `Run.induct`, whose step is a fact about a single call.

## Main definitions

* `Step` — one recorded call.
* `Run` — the runs of a machine whose calls all meet a side condition.
* `Run.split` — a run up to one of its calls.
* `Run.invariant` — an invariant kept by every admitted call holds after every
  run.
* `Run.invariant_steps` — the same with a property of the recorded calls.
* `Run.forall_mem_iff` — which runs have a property, when the calls that have it keep an
  invariant.
* `Run.induct_counted` — induction along runs that are too short for a counter to wrap.
* `specRun` and `Run.simulates` — runs of a total reference machine, and the rule
  that reduces refinement to one call.
* `runList` — a run given as a list of calls; `run_of_runList` records it, and
  `exists_run_of_eval` evaluates it.
* `runList_simulates`, `runList_eq_none_iff` — refinement of such runs, and which of them fault.
-/

namespace Lib

variable {σ α ρ : Type}

/-- One call of a run: the state it was made in, its result and the state after. -/
structure Step (σ α ρ : Type) where
  before : σ
  call : α
  result : ρ
  after : σ

/-- The runs of `step` from `s₀` in which every call meets `ok` where it is made. -/
inductive Run (step : σ → α → Option (ρ × σ)) (ok : σ → α → Prop) (s₀ : σ) :
    List (Step σ α ρ) → σ → Prop
  | nil : Run step ok s₀ [] s₀
  | snoc {tr s a r s'} : Run step ok s₀ tr s → ok s a → step s a = some (r, s') →
      Run step ok s₀ (tr ++ [⟨s, a, r, s'⟩]) s'

namespace Run
variable {step : σ → α → Option (ρ × σ)} {ok : σ → α → Prop} {s₀ s : σ}
  {tr : List (Step σ α ρ)}

/-- **Induction along a run.**  A predicate on histories and states that holds at
the start and is kept by every admitted call holds after every run. -/
theorem induct {P : List (Step σ α ρ) → σ → Prop} (h : Run step ok s₀ tr s) (h0 : P [] s₀)
    (hstep : ∀ tr s a r s', Run step ok s₀ tr s → P tr s → ok s a → step s a = some (r, s') →
      P (tr ++ [⟨s, a, r, s'⟩]) s') : P tr s := by
  induction h with
  | nil => exact h0
  | snoc hr hok hs ih => exact hstep _ _ _ _ _ hr ih hok hs

/-- An invariant of the states: kept by every admitted call, it holds after every
run. -/
theorem invariant {I : σ → Prop} (h : Run step ok s₀ tr s) (h0 : I s₀)
    (hstep : ∀ s a r s', I s → ok s a → step s a = some (r, s') → I s') : I s :=
  h.induct (P := fun _ s => I s) h0 fun _ s a r s' _ hI hok hs => hstep s a r s' hI hok hs

/-- Induction along a run with fewer than `N` calls of a kind, in a machine with a counter
that such calls alone move, by at most one: each finds the counter below its bound. -/
theorem induct_counted {P : List (Step σ α ρ) → σ → Prop} {p : α → Bool} {c : σ → ℕ} {N : ℕ}
    (h : Run step ok s₀ tr s) (hfew : tr.countP (fun e => p e.call) < N)
    (h0 : P [] s₀) (hc : c s₀ = 0)
    (hstep : ∀ tr s a r s', P tr s → ok s a → (p a = true → c s + 1 < N) →
      step s a = some (r, s') → P (tr ++ [⟨s, a, r, s'⟩]) s' ∧
        c s' ≤ c s + if p a then 1 else 0) : P tr s := by
  have hinv : P tr s ∧ c s ≤ tr.countP fun e => p e.call := by
    refine h.induct (P := fun tr s => tr.countP (fun e => p e.call) < N →
      P tr s ∧ c s ≤ tr.countP fun e => p e.call) ?_ ?_ hfew
    · exact fun _ => ⟨h0, Nat.le_of_eq hc⟩
    · intro tr s a r s' _ ih hok hs hfew
      rw [List.countP_append, List.countP_singleton] at hfew ⊢
      obtain ⟨hP, hle⟩ := ih (by omega)
      have hroom : p a = true → c s + 1 < N := by
        intro ha
        simp only [ha, if_true] at hfew
        exact Nat.lt_of_le_of_lt (Nat.succ_le_succ hle) hfew
      obtain ⟨hP', hle'⟩ := hstep tr s a r s' hP hok hroom hs
      exact ⟨hP', Nat.le_trans hle' (Nat.add_le_add_right hle _)⟩
  exact hinv.1

/-- A weaker side condition. -/
theorem mono {ok' : σ → α → Prop} (h : Run step ok s₀ tr s) (himp : ∀ s a, ok s a → ok' s a) :
    Run step ok' s₀ tr s := by
  induction h with
  | nil => exact .nil
  | snoc _ hok hs ih => exact ih.snoc (himp _ _ hok) hs

/-- A recorded call was made in the state that the calls before it lead to. -/
theorem split (h : Run step ok s₀ tr s) {pre post : List (Step σ α ρ)} {e : Step σ α ρ}
    (htr : tr = pre ++ e :: post) :
    Run step ok s₀ pre e.before ∧ ok e.before e.call ∧
      step e.before e.call = some (e.result, e.after) := by
  induction h generalizing post with
  | nil => simp at htr
  | snoc hr hok hs ih =>
      rcases List.eq_nil_or_concat post with rfl | ⟨post', e', rfl⟩
      · obtain ⟨rfl, he⟩ := List.append_inj' htr rfl
        obtain rfl := (List.cons.inj he).1
        exact ⟨hr, hok, hs⟩
      · rw [List.concat_eq_append, ← List.cons_append, ← List.append_assoc] at htr
        exact ih (List.append_inj' htr rfl).1

/-- A property of every call that is made in a reachable state. -/
theorem forall_mem {Q : Step σ α ρ → Prop} (h : Run step ok s₀ tr s)
    (hQ : ∀ tr s a r s', Run step ok s₀ tr s → ok s a → step s a = some (r, s') →
      Q ⟨s, a, r, s'⟩) : ∀ e ∈ tr, Q e := by
  intro e he
  obtain ⟨pre, post, htr⟩ := List.append_of_mem he
  obtain ⟨hpre, hok, hs⟩ := h.split htr
  exact hQ pre e.before e.call e.result e.after hpre hok hs

/-- An invariant of the states, with what it says about the calls. -/
theorem invariant_steps {I : σ → Prop} {Q : Step σ α ρ → Prop} (h : Run step ok s₀ tr s)
    (h0 : I s₀) (hstep : ∀ s a r s', I s → ok s a → step s a = some (r, s') →
      I s' ∧ Q ⟨s, a, r, s'⟩) : I s ∧ ∀ e ∈ tr, Q e := by
  have hI : ∀ {tr : List (Step σ α ρ)} {s : σ}, Run step ok s₀ tr s → I s := fun h =>
    h.invariant h0 fun s a r s' hs hok hstep' => (hstep s a r s' hs hok hstep').1
  refine ⟨hI h, h.forall_mem ?_⟩
  intro tr s a r s' hrun hok hs
  exact (hstep s a r s' (hI hrun) hok hs).2

/-- **Which runs are right.**  If in the states of an invariant a call is right exactly when it
meets a condition, and then keeps the invariant, the calls of a run are all right exactly
when they all meet the condition. -/
theorem forall_mem_iff {I : σ → Prop} {Q B : Step σ α ρ → Prop} (h : Run step ok s₀ tr s)
    (h0 : I s₀) (hstep : ∀ s a r s', I s → ok s a → step s a = some (r, s') →
      (Q ⟨s, a, r, s'⟩ ↔ B ⟨s, a, r, s'⟩) ∧ (Q ⟨s, a, r, s'⟩ → I s')) :
    (∀ e ∈ tr, Q e) ↔ ∀ e ∈ tr, B e := by
  have hinv : ((∀ e ∈ tr, Q e) ↔ ∀ e ∈ tr, B e) ∧ ((∀ e ∈ tr, Q e) → I s) := by
    refine h.induct (P := fun tr s =>
      ((∀ e ∈ tr, Q e) ↔ ∀ e ∈ tr, B e) ∧ ((∀ e ∈ tr, Q e) → I s)) ⟨by simp, fun _ => h0⟩ ?_
    intro tr s a r s' _ ⟨hiff, hI⟩ hok hs
    simp only [List.forall_mem_append, List.forall_mem_singleton]
    constructor
    · rw [← hiff]
      exact and_congr_right fun hall => (hstep s a r s' (hI hall) hok hs).1
    · intro ⟨hall, hlast⟩
      exact (hstep s a r s' (hI hall) hok hs).2 hlast
  exact hinv.1

end Run

/-- The results of a total reference machine on a list of calls, and its last
state. -/
def specRun {τ : Type} (spec : τ → α → ρ × τ) : τ → List α → List ρ × τ
  | t, [] => ([], t)
  | t, a :: as => ((spec t a).1 :: (specRun spec (spec t a).2 as).1,
      (specRun spec (spec t a).2 as).2)

theorem specRun_append {τ : Type} (spec : τ → α → ρ × τ) (t : τ) (as bs : List α) :
    specRun spec t (as ++ bs) =
      ((specRun spec t as).1 ++ (specRun spec (specRun spec t as).2 bs).1,
        (specRun spec (specRun spec t as).2 bs).2) := by
  induction as generalizing t with
  | nil => simp [specRun]
  | cons a as ih => simp [specRun, ih]

/-- **Refinement, one call at a time.**  If related states give the same result on
every admitted call and stay related, the results of a run are those of the
reference machine. -/
theorem Run.simulates {τ : Type} {step : σ → α → Option (ρ × σ)} {ok : σ → α → Prop}
    {s₀ s : σ} {tr : List (Step σ α ρ)} {spec : τ → α → ρ × τ} {R : σ → τ → Prop} {t₀ : τ}
    (h : Run step ok s₀ tr s) (h0 : R s₀ t₀)
    (hstep : ∀ s a r s' t, R s t → ok s a → step s a = some (r, s') →
      (spec t a).1 = r ∧ R s' (spec t a).2) :
    ∃ t, specRun spec t₀ (tr.map Step.call) = (tr.map Step.result, t) ∧ R s t := by
  refine h.induct (P := fun tr s =>
    ∃ t, specRun spec t₀ (tr.map Step.call) = (tr.map Step.result, t) ∧ R s t)
    ⟨t₀, rfl, h0⟩ ?_
  rintro tr s a r s' - ⟨t, hrun, hR⟩ hok hs
  obtain ⟨hres, hR'⟩ := hstep s a r s' t hR hok hs
  refine ⟨(spec t a).2, ?_, hR'⟩
  simp [specRun_append, hrun, specRun, hres]

/-- Make the calls of a list in order, recording each of them. -/
def runList (step : σ → α → Option (ρ × σ)) : σ → List α → Option (List (Step σ α ρ) × σ)
  | s, [] => some ([], s)
  | s, a :: as => do
      let (r, s') ← step s a
      let (tr, t) ← runList step s' as
      some (⟨s, a, r, s'⟩ :: tr, t)

private theorem run_append {step : σ → α → Option (ρ × σ)} {ok : σ → α → Prop} {s₀ : σ} :
    ∀ {as : List α} {pre tr : List (Step σ α ρ)} {s t : σ}, Run step ok s₀ pre s →
      runList step s as = some (tr, t) → (∀ e ∈ tr, ok e.before e.call) →
      Run step ok s₀ (pre ++ tr) t := by
  intro as
  induction as with
  | nil =>
      intro pre tr s t hr h _
      simp only [runList, Option.some.injEq, Prod.mk.injEq] at h
      obtain ⟨rfl, rfl⟩ := h
      simpa using hr
  | cons a as ih =>
      intro pre tr s t hr h hok
      simp only [runList, Option.bind_eq_bind, Option.bind_eq_some_iff, Option.some.injEq,
        Prod.mk.injEq] at h
      obtain ⟨⟨r, s'⟩, hs, ⟨tr', t'⟩, hrest, rfl, rfl⟩ := h
      have hnext := hr.snoc (hok ⟨s, a, r, s'⟩ (by simp)) hs
      have := ih hnext hrest (fun e he => hok e (by simp [he]))
      simpa using this

/-- The calls of a list, when they all return and are all admitted, are a run. -/
theorem run_of_runList {step : σ → α → Option (ρ × σ)} {ok : σ → α → Prop} {s₀ t : σ}
    (as : List α) {tr : List (Step σ α ρ)} (h : runList step s₀ as = some (tr, t))
    (hok : ∀ e ∈ tr, ok e.before e.call) : Run step ok s₀ tr t := by
  simpa using run_append .nil h hok

/-- A run whose calls are admitted and whose last state has a property, by evaluation. -/
theorem exists_run_of_eval {step : σ → α → Option (ρ × σ)} {ok : σ → α → Prop} {P : σ → Prop}
    [∀ s a, Decidable (ok s a)] [DecidablePred P] {s₀ : σ} (as : List α)
    (h : (runList step s₀ as).map
      (fun p => decide ((∀ e ∈ p.1, ok e.before e.call) ∧ P p.2)) = some true) :
    ∃ tr t, Run step ok s₀ tr t ∧ P t := by
  rcases Option.map_eq_some_iff.mp h with ⟨⟨tr, t⟩, hlist, hp⟩
  rw [decide_eq_true_iff] at hp
  exact ⟨tr, t, run_of_runList as hlist hp.1, hp.2⟩

/-- The calls of a list that a reference machine admits one after the other. -/
def Admitted {τ : Type} (spec : τ → α → ρ × τ) (pre : τ → α → Prop) : τ → List α → Prop
  | _, [] => True
  | t, a :: as => pre t a ∧ Admitted spec pre (spec t a).2 as

theorem Admitted.mono {τ : Type} {spec : τ → α → ρ × τ} {pre pre' : τ → α → Prop} {as : List α}
    {t : τ} (h : Admitted spec pre t as) (himp : ∀ t, ∀ a ∈ as, pre t a → pre' t a) :
    Admitted spec pre' t as := by
  induction as generalizing t with
  | nil => trivial
  | cons a as ih =>
      refine ⟨himp t a (List.mem_cons_self ..) h.1, ih h.2 fun t b hb => ?_⟩
      exact himp t b (List.mem_cons_of_mem _ hb)

/-- A condition on the calls alone. -/
theorem admitted_iff {τ : Type} {spec : τ → α → ρ × τ} {p : α → Prop} {as : List α} {t : τ} :
    Admitted spec (fun _ a => p a) t as ↔ ∀ a ∈ as, p a := by
  induction as generalizing t with
  | nil => exact ⟨fun _ _ hmem => (List.not_mem_nil hmem).elim, fun _ => trivial⟩
  | cons a as ih => rw [Admitted, ih, List.forall_mem_cons]

/-- **Total refinement.**  If every call that the reference machine admits returns with its
result and keeps the states related, so does every list of such calls. -/
theorem runList_simulates {τ : Type} {step : σ → α → Option (ρ × σ)} {spec : τ → α → ρ × τ}
    {pre : τ → α → Prop} {R : σ → τ → Prop}
    (hstep : ∀ s t a, R s t → pre t a →
      ∃ s', step s a = some ((spec t a).1, s') ∧ R s' (spec t a).2)
    {as : List α} {s : σ} {t : τ} (hR : R s t) (ha : Admitted spec pre t as) :
    ∃ tr s', runList step s as = some (tr, s') ∧
      (specRun spec t as).1 = tr.map Step.result ∧ R s' (specRun spec t as).2 := by
  induction as generalizing s t with
  | nil => exact ⟨[], s, rfl, rfl, hR⟩
  | cons a as ih =>
      obtain ⟨s', hs, hR'⟩ := hstep s t a hR ha.1
      obtain ⟨tr, s'', hlist, hres, hR''⟩ := ih hR' ha.2
      refine ⟨⟨s, a, (spec t a).1, s'⟩ :: tr, s'', ?_, ?_, hR''⟩
      · simp [runList, hs, hlist]
      · simp [specRun, hres]

/-- If moreover every other call faults, so does every other list. -/
theorem runList_eq_none_iff {τ : Type} {step : σ → α → Option (ρ × σ)} {spec : τ → α → ρ × τ}
    {pre : τ → α → Prop} {R : σ → τ → Prop}
    (hstep : ∀ s t a, R s t → pre t a →
      ∃ s', step s a = some ((spec t a).1, s') ∧ R s' (spec t a).2)
    (hnone : ∀ s t a, R s t → ¬ pre t a → step s a = none)
    {as : List α} {s : σ} {t : τ} (hR : R s t) :
    runList step s as = none ↔ ¬ Admitted spec pre t as := by
  induction as generalizing s t with
  | nil => simp [runList, Admitted]
  | cons a as ih =>
      by_cases ha : pre t a
      · obtain ⟨s', hs, hR'⟩ := hstep s t a hR ha
        rw [Admitted, and_iff_right ha, ← ih hR', runList, hs]
        cases hrest : runList step s' as <;> simp [hrest]
      · rw [Admitted, runList, hnone s t a hR ha]
        simp [ha]

end Lib
