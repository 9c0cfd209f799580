import Mathlib.Data.Nat.Find
import Kylin.Lib.Ensures
import Kylin.Math.ListLinks

/-!
# Tearing a list down and copying it

`kylin_list_clear`, `kylin_list_destroy` and `kylin_list_dup`
(`lib/core/math/kylin_list.c`).

`kylin_list_clear` destroys the value of the head and then calls `kylin_list_remove` with
the head *node* for a key: the callback `match` compares a node with the values of the list,
and the node that it accepts has its value destroyed, for the head a second time.
`kylin_list_dup` inserts the nodes of a list as the values of its copy and takes the result
of a successful insertion for a failure.

What a callback sees of a node handed over as a `void *` is the parameter `nodePtr`.

## Main definitions

* `World.clear`, `World.destroy`, `World.dup` — the functions.
* `Removes` — all that `kylin_list_remove_raw` does.
* `Clears`, `Dups` — what clearing and copying are for.

## Main results

* `clear_iff`, `dup_iff` — when the code does it.
-/

namespace Kylin.Klist.World

open Lib

variable {α : Type} {w w' w₁ : World α} {l l₁ l₂ : List ℕ} {a : ℕ}

/-! ## What a removal does -/

/-- The values of the nodes on the heap. -/
def vals (w : World α) (a : ℕ) : Option (KmathVal α) := (w.heap.get a).map KlistNode.val

/-- Only links have changed, and only those of nodes in `s`. -/
structure Relinks (s : ℕ → Prop) (w w' : World α) : Prop where
  opts_eq : w'.guard.opts = w.guard.opts
  destroyed_eq : w'.destroyed = w.destroyed
  vals_eq : ∀ b, w'.vals b = w.vals b
  get_eq : ∀ b, ¬ s b → w'.heap.get b = w.heap.get b

namespace Relinks
variable {s t : ℕ → Prop}

theorem trans (h : Relinks s w w₁) (h' : Relinks s w₁ w') : Relinks s w w' where
  opts_eq := h'.opts_eq.trans h.opts_eq
  destroyed_eq := h'.destroyed_eq.trans h.destroyed_eq
  vals_eq b := (h'.vals_eq b).trans (h.vals_eq b)
  get_eq b hb := (h'.get_eq b hb).trans (h.get_eq b hb)

theorem mono (h : Relinks s w w') (hst : ∀ b, s b → t b) : Relinks t w w' where
  __ := h
  get_eq b hb := h.get_eq b fun hs => hb (hst b hs)

/-- A store to a link. -/
theorem of_modify {f : KlistNode α → KlistNode α} (hf : ∀ x, (f x).val = x.val) {p : Option ℕ} :
    Ensures ((w.heap.modify p f).map fun h => { w with heap := h }) (Relinks (p = some ·) w) := by
  refine Ensures.map fun h hh => ?_
  cases p with
  | none => cases hh
  | some a =>
      rw [Heap.modify, Option.bind_some] at hh
      split at hh
      · cases hh
        refine ⟨rfl, rfl, fun b => ?_, fun b hb => ?_⟩
        · rw [vals, vals, Heap.get_map]
          split <;> simp [Function.comp_def, hf]
        · exact Heap.get_map_of_ne _ _ _ fun e => hb (congrArg some e.symm)
      · cases hh

theorem bypassNext (p q : Option ℕ) : Ensures (w.bypassNext p q) (Relinks (p = some ·) w) := by
  cases p with
  | none => exact Ensures.some ⟨rfl, rfl, fun _ => rfl, fun _ _ => rfl⟩
  | some p => exact of_modify (f := fun x => { x with next := q }) fun _ => rfl

theorem bypassPrev (p q : Option ℕ) : Ensures (w.bypassPrev p q) (Relinks (q = some ·) w) := by
  cases q with
  | none => exact Ensures.some ⟨rfl, rfl, fun _ => rfl, fun _ _ => rfl⟩
  | some q => exact of_modify (f := fun x => { x with prev := p }) fun _ => rfl

theorem setCount (h : Relinks s w w') (n : ℕ) : Relinks s w (w'.setCount n) :=
  ⟨h.opts_eq, h.destroyed_eq, h.vals_eq, h.get_eq⟩

/-- Linking a node in at the head changes links only. -/
theorem insertHeadRaw (a : ℕ) : Ensures (w.insertHeadRaw a) (Relinks (fun _ => True) w) := by
  have hprev : ∀ (w : World α) p q, Ensures (w.setPrev p q) (Relinks (fun _ => True) w) :=
    fun w p q => (of_modify (f := fun x => { x with prev := q }) fun _ => rfl).mono
      fun _ h => h.mono fun _ _ => trivial
  have hnext : ∀ (w : World α) p q, Ensures (w.setNext p q) (Relinks (fun _ => True) w) :=
    fun w p q => (of_modify (f := fun x => { x with next := q }) fun _ => rfl).mono
      fun _ h => h.mono fun _ _ => trivial
  have hguard : ∀ p q, Relinks (fun _ => True) w ((w.setHead p).setTail q) :=
    fun _ _ => ⟨rfl, rfl, fun _ => rfl, fun _ _ => rfl⟩
  refine Ensures.ite ?_ ?_
  · refine (hprev _ _ _).bind fun w₁ h₁ => (hnext _ _ _).bind fun w₂ h₂ => ?_
    exact .some ((((hguard _ _).trans h₁).trans h₂).setCount _)
  · refine (hprev _ _ _).bind fun w₁ h₁ => (hnext _ _ _).bind fun w₂ h₂ =>
      (hprev _ _ _).bind fun w₃ h₃ => ?_
    have h := (h₁.trans h₂).trans h₃
    exact .some ⟨h.opts_eq, h.destroyed_eq, h.vals_eq, h.get_eq⟩

end Relinks

/-- Taking a node out changes the links of its neighbours. -/
theorem Holds.detach_relinks (H : Holds w (l₁ ++ a :: l₂)) :
    Ensures (w.detach a) (Relinks (· ∈ l₁ ++ l₂) w) := by
  obtain ⟨v, hget⟩ := get_of_links H.chain.link
  have ha := H.notMem_of_middle
  have hprev : ∀ b, l₁.getLast? = some b → b ∈ l₁ ++ l₂ := fun b hb =>
    List.mem_append_left _ (List.mem_of_getLast? hb)
  have hnext : ∀ b, l₂.head? = some b → b ∈ l₁ ++ l₂ := fun b hb =>
    List.mem_append_right _ (List.mem_of_head? hb)
  rw [detach, hget, Option.bind_eq_bind, Option.bind_some]
  refine Ensures.bind ((Relinks.bypassNext _ _).mono fun w₁ h => h.mono hprev) fun w₁ h₁ => ?_
  rw [h₁.get_eq a ha, hget, Option.bind_eq_bind, Option.bind_some]
  refine Ensures.bind ((Relinks.bypassPrev _ _).mono fun w₂ h => h.mono hnext) fun w₂ h₂ => ?_
  exact Ensures.some ((h₁.trans h₂).setCount _)

/-- All that `kylin_list_remove_raw` does to the list `l` beside taking the node `a` out of
its chain. -/
structure Removes (l : List ℕ) (a : ℕ) (w w' : World α) : Prop where
  opts_eq : w'.guard.opts = w.guard.opts
  destroyed_eq : ∀ v, w.vals a = some v →
    w'.destroyed = w.destroyed ++ kmathValDtor v w.guard.opts.valType
  get_self : w'.heap.get a = none
  vals_eq : ∀ b, b ≠ a → w'.vals b = w.vals b
  get_eq : ∀ b, b ∉ l → w'.heap.get b = w.heap.get b

/-- **Removing a node** destroys its value and frees it, and keeps every other value. -/
theorem Holds.removeRaw_removes (H : Holds w (l₁ ++ a :: l₂)) :
    Ensures (w.removeRaw a) (Removes (l₁ ++ a :: l₂) a w) := by
  refine Ensures.bind H.detach_relinks fun w₁ h₁ => ?_
  obtain ⟨v, hget⟩ := get_of_links H.chain.link
  have hget₁ : w₁.heap.get a = w.heap.get a := h₁.get_eq a H.notMem_of_middle
  rw [hget₁, hget, Option.bind_eq_bind, Option.bind_some, nodeFree,
    Heap.free_of_isSome _ (by simp [hget₁, hget]), Option.map_some]
  refine Ensures.some ⟨h₁.opts_eq, ?_, ?_, ?_, ?_⟩
  · intro v' hv'
    rw [vals, hget] at hv'
    cases hv'
    rw [← h₁.opts_eq, ← h₁.destroyed_eq]
  · simp
  · intro b hb
    rw [← h₁.vals_eq b]
    exact congrArg (Option.map KlistNode.val) (Function.update_of_ne hb _ _)
  · intro b hb
    have hba : b ≠ a := fun e => hb (by simp [e])
    refine (Function.update_of_ne hba _ _).trans (h₁.get_eq b fun hb' => hb ?_)
    rw [List.mem_append] at hb' ⊢
    exact hb'.imp_right (List.mem_cons_of_mem a)

/-! ## Clearing -/

/-- A node of the list is removed by a search, or none. -/
theorem Holds.remove_cases (H : Holds w l) (key : KPtr α) :
    (l.find? (w.matchesKey key) = none ∧ w.remove key = some { w with kerrno := .inval }) ∨
      ∃ l₁ a l₂ w', l = l₁ ++ a :: l₂ ∧ l.find? (w.matchesKey key) = some a ∧
        w.remove key = some w' ∧ Holds w' (l₁ ++ l₂) ∧ Removes l a w w' := by
  rcases find_cases w l key with ⟨hnone, -⟩ | ⟨l₁, a, l₂, rfl, hsome, -⟩
  · exact Or.inl ⟨hnone, by simp [remove, H.findRaw_eq, hnone]⟩
  · obtain ⟨w', hrun, -, H'⟩ := H.removeRaw_spec
    refine Or.inr ⟨l₁, a, l₂, w', rfl, hsome, ?_, H', H.removeRaw_removes w' hrun⟩
    simp [remove, H.findRaw_eq, hsome, hrun]

theorem Holds.remove_head (H : Holds w (a :: l)) {key : KPtr α} (ha : w.matchesKey key a = true) :
    ∃ w', w.remove key = some w' ∧ Holds w' l ∧ Removes (a :: l) a w w' := by
  have H₀ : Holds w ([] ++ a :: l) := H
  have hfind : (a :: l).find? (w.matchesKey key) = some a := List.find?_cons_of_pos ha
  obtain ⟨w', hrun, -, H'⟩ := H₀.removeRaw_spec
  refine ⟨w', ?_, H', H₀.removeRaw_removes w' hrun⟩
  simp [remove, H.findRaw_eq, hfind, hrun]

section Clear
variable (nodePtr : ℕ → KPtr α)

/-- One turn of the loop of `kylin_list_clear`. -/
def clearTurn (w : World α) (node : ℕ) : Option (World α) := do
  let x ← w.heap.get node
  let w := { w with destroyed := w.destroyed ++ kmathValDtor x.val w.guard.opts.valType }
  w.remove (nodePtr node)

/-- `kylin_list_clear`; `none` when `fuel` turns were not enough. -/
def clear : ℕ → World α → Option (World α)
  | 0, w => if w.guard.head = none then some w else none
  | fuel + 1, w =>
      match w.guard.head with
      | none => some w
      | some node => do
          let w ← w.clearTurn nodePtr node
          clear fuel w

/-- The pointers that destroying the value of a node hands to a destructor. -/
def dtors (w : World α) (a : ℕ) : List (KPtr α) :=
  (w.vals a).elim [] fun v => kmathValDtor v w.guard.opts.valType

/-- What clearing is for: it returns, the list is empty, and every element has had its
value destroyed and its node freed once. -/
def Clears (w : World α) (l : List ℕ) : Prop :=
  ∃ fuel w', clear nodePtr fuel w = some w' ∧
    w'.guard.head = none ∧ w'.guard.tail = none ∧ w'.guard.count = 0 ∧
    w'.destroyed.Perm (w.destroyed ++ l.flatMap w.dtors) ∧
    (∀ a ∈ l, w'.heap.get a = none) ∧ ∀ b, b ∉ l → w'.heap.get b = w.heap.get b

/-- `match` accepts a node for its own value. -/
def Accepts (w : World α) (a : ℕ) : Prop := w.matchesKey (nodePtr a) a = true

/-- What clearing does when it returns: every value is destroyed twice. -/
structure Cleared (l : List ℕ) (w w' : World α) : Prop where
  holds : Holds w' []
  destroyed_eq : w'.destroyed = w.destroyed ++ l.flatMap fun a => w.dtors a ++ w.dtors a
  get_mem : ∀ a ∈ l, w'.heap.get a = none
  get_eq : ∀ b, b ∉ l → w'.heap.get b = w.heap.get b

theorem matchesKey_eq (w : World α) (key : KPtr α) (a : ℕ) :
    w.matchesKey key a = (w.vals a).elim false fun v => w.guard.opts.valMatch key v.ptr == 0 := by
  rw [matchesKey, vals]
  cases w.heap.get a <;> rfl

theorem accepts_congr (hopts : w'.guard.opts = w.guard.opts) (hvals : w'.vals a = w.vals a) :
    Accepts nodePtr w' a ↔ Accepts nodePtr w a := by
  rw [Accepts, Accepts, matchesKey_eq, matchesKey_eq, hopts, hvals]

theorem dtors_congr (hopts : w'.guard.opts = w.guard.opts) (hvals : w'.vals a = w.vals a) :
    w'.dtors a = w.dtors a := by
  rw [dtors, dtors, hopts, hvals]

variable {nodePtr}

/-- A turn with a head that `match` accepts removes it. -/
theorem Holds.clearTurn_accepts (H : Holds w (a :: l)) (ha : Accepts nodePtr w a) :
    ∃ w', w.clearTurn nodePtr a = some w' ∧ Holds w' l ∧ w'.guard.opts = w.guard.opts ∧
      w'.destroyed = w.destroyed ++ (w.dtors a ++ w.dtors a) ∧ w'.heap.get a = none ∧
      (∀ b, b ≠ a → w'.vals b = w.vals b) ∧
      ∀ b, b ∉ a :: l → w'.heap.get b = w.heap.get b := by
  obtain ⟨v, hget⟩ := get_of_links H.chain.1
  have hvals : w.vals a = some v := by rw [vals, hget, Option.map_some]
  have hd : w.dtors a = kmathValDtor v w.guard.opts.valType := by
    rw [dtors, hvals, Option.elim_some]
  have Hd : Holds { w with destroyed := w.destroyed ++ w.dtors a } (a :: l) :=
    H.frame rfl rfl rfl fun _ _ => rfl
  obtain ⟨w', hrun, H', h⟩ := Hd.remove_head ha
  refine ⟨w', ?_, H', h.opts_eq, ?_, h.get_self, h.vals_eq, h.get_eq⟩
  · rw [clearTurn, hget, Option.bind_eq_bind, Option.bind_some, ← hd]
    exact hrun
  · rw [h.destroyed_eq v hvals, List.append_assoc, ← hd]

/-- A turn with a head that `match` does not accept keeps it. -/
theorem Holds.clearTurn_rejects (H : Holds w (a :: l)) (ha : ¬ Accepts nodePtr w a) :
    ∃ w' l', w.clearTurn nodePtr a = some w' ∧ Holds w' (a :: l') ∧ ¬ Accepts nodePtr w' a := by
  obtain ⟨v, hget⟩ := get_of_links H.chain.1
  have Hd : Holds { w with destroyed := w.destroyed ++ kmathValDtor v w.guard.opts.valType }
      (a :: l) := H.frame rfl rfl rfl fun _ _ => rfl
  have hturn : w.clearTurn nodePtr a = World.remove { w with
      destroyed := w.destroyed ++ kmathValDtor v w.guard.opts.valType } (nodePtr a) := by
    rw [clearTurn, hget, Option.bind_eq_bind, Option.bind_some]
  rcases Hd.remove_cases (nodePtr a) with ⟨-, hrun⟩ | ⟨l₁, c, l₂, w', hsplit, hsome, hrun, H', h⟩
  · exact ⟨_, l, hturn.trans hrun, H.frame rfl rfl rfl fun _ _ => rfl, ha⟩
  · have hac : a ≠ c := by
      rintro rfl
      exact ha (List.find?_some hsome)
    cases l₁ with
    | nil => exact absurd (List.cons.inj hsplit).1 hac
    | cons d l₁ =>
        obtain rfl : a = d := (List.cons.inj hsplit).1
        refine ⟨w', l₁ ++ l₂, hturn.trans hrun, H', ?_⟩
        rwa [accepts_congr nodePtr h.opts_eq (h.vals_eq a hac)]

/-- More turns do not change what clearing returns. -/
theorem clear_mono {fuel fuel' : ℕ} (h : clear nodePtr fuel w = some w') (hle : fuel ≤ fuel') :
    clear nodePtr fuel' w = some w' := by
  induction fuel generalizing w fuel' with
  | zero =>
      rw [clear] at h
      split at h
      · cases fuel' <;> simp_all [clear]
      · cases h
  | succ fuel ih =>
      obtain ⟨fuel', rfl⟩ : ∃ k, fuel' = k + 1 := ⟨fuel' - 1, by omega⟩
      rw [clear] at h ⊢
      split at h
      · exact h
      · obtain ⟨w₁, hturn, hrest⟩ := Option.bind_eq_some_iff.mp h
        exact Option.bind_eq_some_iff.mpr ⟨w₁, hturn, ih hrest (by omega)⟩

/-- A head that `match` does not accept is never removed. -/
theorem Holds.clear_stuck (H : Holds w (a :: l)) (ha : ¬ Accepts nodePtr w a) (fuel : ℕ) :
    clear nodePtr fuel w = none := by
  have hhead : w.guard.head = some a := H.head_eq
  induction fuel generalizing w l with
  | zero => simp [clear, hhead]
  | succ fuel ih =>
      obtain ⟨w₁, l', hturn, H₁, ha₁⟩ := H.clearTurn_rejects ha
      simp [clear, hhead, hturn, ih H₁ ha₁ H₁.head_eq]

/-- **Clearing returns when `match` accepts every node for its own value.** -/
theorem Holds.clear_spec (H : Holds w l) (hl : ∀ a ∈ l, Accepts nodePtr w a) :
    ∃ w', clear nodePtr l.length w = some w' ∧ Cleared l w w' := by
  induction l generalizing w with
  | nil => exact ⟨w, if_pos H.head_eq, H, by simp, by simp, fun _ _ => rfl⟩
  | cons a l ih =>
      have hhead : w.guard.head = some a := H.head_eq
      obtain ⟨ha, hrest⟩ := List.forall_mem_cons.mp hl
      have hnot : a ∉ l := (List.nodup_cons.mp H.nodup).1
      have hne : ∀ b ∈ l, b ≠ a := fun b hb e => hnot (e ▸ hb)
      obtain ⟨w₁, hturn, H₁, hopts, hdes, hself, hvals, hget⟩ := H.clearTurn_accepts ha
      have hacc : ∀ b ∈ l, Accepts nodePtr w₁ b := fun b hb =>
        (accepts_congr nodePtr hopts (hvals b (hne b hb))).mpr (hrest b hb)
      obtain ⟨w', hrun, h⟩ := ih H₁ hacc
      refine ⟨w', ?_, h.holds, ?_, ?_, ?_⟩
      · simp [clear, hhead, hturn, hrun]
      · have hsame : (l.flatMap fun b => w₁.dtors b ++ w₁.dtors b) =
            l.flatMap fun b => w.dtors b ++ w.dtors b := by
          refine List.flatMap_congr fun b hb => ?_
          rw [dtors_congr hopts (hvals b (hne b hb))]
        rw [h.destroyed_eq, hsame, hdes, List.flatMap_cons, List.append_assoc]
      · refine List.forall_mem_cons.mpr ⟨?_, h.get_mem⟩
        rw [h.get_eq a hnot, hself]
      · intro b hb
        rw [h.get_eq b fun hb' => hb (List.mem_cons_of_mem a hb'), hget b hb]

/-- It returns in no other case. -/
theorem Holds.accepts_of_clear (H : Holds w l) {fuel : ℕ} (h : clear nodePtr fuel w = some w') :
    ∀ a ∈ l, Accepts nodePtr w a := by
  induction l generalizing w fuel with
  | nil => simp
  | cons a l ih =>
      by_cases ha : Accepts nodePtr w a
      · obtain ⟨w₁, hturn, H₁, hopts, -, -, hvals, -⟩ := H.clearTurn_accepts ha
        have hhead : w.guard.head = some a := H.head_eq
        cases fuel with
        | zero => simp [clear, hhead] at h
        | succ fuel =>
            simp only [clear, hhead, hturn, Option.bind_eq_bind, Option.bind_some] at h
            refine List.forall_mem_cons.mpr ⟨ha, fun b hb => ?_⟩
            have hba : b ≠ a := fun e => (List.nodup_cons.mp H.nodup).1 (e ▸ hb)
            exact (accepts_congr nodePtr hopts (hvals b hba)).mp (ih H₁ h b hb)
      · rw [H.clear_stuck ha] at h
        cases h

/-- **What clearing does** whenever it returns. -/
theorem Holds.cleared_of_clear (H : Holds w l) {fuel : ℕ} (h : clear nodePtr fuel w = some w') :
    Cleared l w w' := by
  obtain ⟨w₁, hrun, hc⟩ := H.clear_spec (H.accepts_of_clear h)
  have h₁ := clear_mono hrun (Nat.le_max_left l.length fuel)
  have h₂ := clear_mono h (Nat.le_max_right l.length fuel)
  obtain rfl : w₁ = w' := Option.some.inj (h₁.symm.trans h₂)
  exact hc

theorem length_flatMap_of_forall {β : Type} {f : ℕ → List β} {n : ℕ}
    (h : ∀ a ∈ l, (f a).length = n) : (l.flatMap f).length = l.length * n := by
  rw [List.length_flatMap, List.map_congr_left h, List.map_const', List.sum_replicate_nat]

/-- **Clearing a list** does what it is for exactly when the list is empty, or its values
need no destructor and `match` accepts every node for its own value.  With a destructor
every value is destroyed twice, and a node that is not accepted stays the head for ever. -/
theorem clear_iff (nodePtr : ℕ → KPtr α) (H : Holds w l) :
    Clears nodePtr w l ↔
      l = [] ∨ w.guard.opts.valType.IsInt ∧ ∀ a ∈ l, Accepts nodePtr w a := by
  have hlen : ∀ a ∈ l, (w.dtors a).length = if w.guard.opts.valType.IsInt then 0 else 1 := by
    intro a ha
    obtain ⟨x, hx⟩ := Option.isSome_iff_exists.mp (H.isSome ha)
    rw [dtors, vals, hx, Option.map_some, Option.elim_some]
    cases w.guard.opts.valType <;> rfl
  constructor
  · rintro ⟨fuel, w', hrun, -, -, -, hperm, -⟩
    have hc := H.cleared_of_clear hrun
    by_cases hint : w.guard.opts.valType.IsInt
    · exact Or.inr ⟨hint, H.accepts_of_clear hrun⟩
    · left
      have hone : ∀ a ∈ l, (w.dtors a).length = 1 := fun a ha => (hlen a ha).trans (if_neg hint)
      have htwo : ∀ a ∈ l, (w.dtors a ++ w.dtors a).length = 2 := fun a ha => by
        rw [List.length_append, hone a ha]
      have hsum := hperm.length_eq
      rw [hc.destroyed_eq, List.length_append, List.length_append,
        length_flatMap_of_forall hone, length_flatMap_of_forall htwo] at hsum
      exact List.length_eq_zero_iff.mp (by omega)
  · rintro (rfl | ⟨hint, hacc⟩)
    · exact ⟨0, w, if_pos H.head_eq, H.head_eq, H.tail_eq, H.count_eq, by simp, by simp,
        fun _ _ => rfl⟩
    · obtain ⟨w', hrun, hc⟩ := H.clear_spec hacc
      refine ⟨l.length, w', hrun, hc.holds.head_eq, hc.holds.tail_eq, hc.holds.count_eq, ?_,
        hc.get_mem, hc.get_eq⟩
      have hnil : ∀ a ∈ l, w.dtors a = [] := fun a ha =>
        List.length_eq_zero_iff.mp ((hlen a ha).trans (if_pos hint))
      have hnil' : ∀ a ∈ l, w.dtors a ++ w.dtors a = [] := fun a ha => by rw [hnil a ha]; rfl
      rw [hc.destroyed_eq, List.flatMap_eq_nil_iff.mpr hnil, List.flatMap_eq_nil_iff.mpr hnil']

end Clear

/-- A list of one node, with a `match` that always answers `r`. -/
def single (type : Kobj) (v : KmathVal ℕ) (r : ℤ) : World ℕ where
  guard := ⟨some 1, some 1, ⟨type, false, fun _ _ => r⟩, 1⟩
  heap := ⟨fun a => if a = 1 then some ⟨none, none, v⟩ else none⟩
  destroyed := []
  kerrno := .ok

theorem holds_single (type : Kobj) (v : KmathVal ℕ) (r : ℤ) : Holds (single type v r) [1] :=
  ⟨⟨rfl, trivial⟩, rfl, rfl, rfl, by decide⟩

/-- A list of two integers, with a `match` that accepts everything. -/
def pair : World ℕ where
  guard := ⟨some 1, some 2, ⟨.int32, false, fun _ _ => 0⟩, 2⟩
  heap := ⟨fun a =>
    if a = 1 then some ⟨none, some 2, .word 5⟩
    else if a = 2 then some ⟨some 1, none, .word 7⟩ else none⟩
  destroyed := []
  kerrno := .ok

theorem holds_pair : Holds pair [1, 2] :=
  ⟨⟨rfl, rfl, trivial⟩, rfl, rfl, rfl, by decide⟩

/-- Both integers go. -/
theorem clear_iff_int : Clears (fun _ => .copy (.int 0)) pair [1, 2] := by
  refine (clear_iff _ holds_pair).mpr (Or.inr ⟨trivial, ?_⟩)
  intro a ha
  obtain rfl | rfl : a = 1 ∨ a = 2 := by simpa using ha
  · rfl
  · rfl

/-- A list of pointers with such a `match`: the value is destroyed twice. -/
theorem clear_twice :
    (∃ w', clear (fun _ => .copy (.int 0)) 1 (single .others (.v (.user (.obj 10))) 0) = some w' ∧
      w'.destroyed = [.user (.obj 10), .user (.obj 10)]) ∧
      ¬ Clears (fun _ => .copy (.int 0)) (single .others (.v (.user (.obj 10))) 0) [1] := by
  have hrun : ∃ w', clear (fun _ => .copy (.int 0)) 1 (single .others (.v (.user (.obj 10))) 0) =
      some w' ∧ w'.destroyed = [.user (.obj 10), .user (.obj 10)] := ⟨_, rfl, rfl⟩
  refine ⟨hrun, ?_⟩
  rintro ⟨fuel, w', hclear, -, -, -, hperm, -⟩
  have h := (holds_single .others (.v (.user (.obj 10))) 0).cleared_of_clear hclear
  have hlen := hperm.length_eq
  rw [h.destroyed_eq] at hlen
  cases hlen

/-! ## Copying -/

/-- The value constructor of a list is called for its values. -/
def CopiesVal (opts : KlistOpts α) : Prop :=
  opts.valCtor = true ∧ opts.valType ∈ [Kobj.string, .kmap, .kset, .kstr, .others]

instance (opts : KlistOpts α) : Decidable (CopiesVal opts) := inferInstanceAs (Decidable (_ ∧ _))

/-- `kylin_list_insert_tail` with the answers of the node allocator and of the value
constructor.  `kmath_val_ctor` copies to what the constructor returned, so that a null
pointer is a fault. -/
def insertCopy (d : World α) (node : Option ℕ) (copy : Bool) (val : KPtr α) :
    Option (KPtr α × World α) :=
  if node.isSome ∧ CopiesVal d.guard.opts ∧ copy = false then none else d.insertTail node val

section Dup
variable (nodePtr : ℕ → KPtr α) (nodes : ℕ → Option ℕ) (copies : ℕ → Bool)

/-- `kylin_list_destroy`.  What is left is the memory around the guard, which is freed. -/
def destroy (fuel : ℕ) (w : World α) : Option (World α) := clear nodePtr fuel w

/-- The loop of `kylin_list_dup`, with the list that it builds and the number of insertions
made so far; the allocators' answers to the `n`-th are `nodes n` and `copies n`. -/
def dupLoop (fuel : ℕ) :
    ℕ → World α → ℕ → Option ℕ → Option (Option (Klist α) × World α × ℕ)
  | _, d, n, none => some (some d.guard, d, n)
  | 0, _, _, some _ => none
  | k + 1, d, n, some tmp => do
      let (r, d) ← d.insertCopy (nodes n) (copies n) (nodePtr tmp)
      match r with
      | .null => do
          let tmp ← d.next (some tmp)
          dupLoop fuel k d (n + 1) tmp
      | _ => do
          let d ← destroy nodePtr fuel d
          some (none, d, n + 1)

/-- `kylin_list_dup`; `mem` is the answer of the guard allocator.  The result is the new
list or a null pointer, with the memory around the old list and the number of insertions. -/
def dup (fuel : ℕ) (w : World α) (mem : Bool) : Option (Option (Klist α) × World α × ℕ) :=
  if mem then do
    let (r, d, n) ← dupLoop nodePtr nodes copies fuel w.guard.count
      (w.withGuard (create w.guard.opts w.heap).guard) 0 w.guard.head
    some (r, d.withGuard w.guard, n)
  else some (none, { w with kerrno := .nomem }, 0)

/-- An allocation of the `i`-th insertion fails. -/
def AllocFails (w : World α) (i : ℕ) : Prop :=
  nodes i = none ∨ CopiesVal w.guard.opts ∧ copies i = false

/-- What copying is for: a new list of the same values, or after a failed allocation a null
pointer, with the nodes freed and no more values destroyed than were built. -/
def Dups (w : World α) (l : List ℕ) (mem : Bool) : Prop :=
  ∃ fuel r w' n, dup nodePtr nodes copies fuel w mem = some (r, w', n) ∧
    w'.guard = w.guard ∧ (∀ b, (w.heap.get b).isSome → w'.heap.get b = w.heap.get b) ∧
    ((mem = true ∧ ∀ i < n, ¬ AllocFails nodes copies w i) →
      ∃ d l', r = some d ∧ Holds (w'.withGuard d) l' ∧ l'.Disjoint l ∧ d.count = w.guard.count ∧
        l'.map ((w'.withGuard d).val ∘ some) = l.map (w.val ∘ some) ∧
        w'.destroyed = w.destroyed) ∧
    (¬ (mem = true ∧ ∀ i < n, ¬ AllocFails nodes copies w i) →
      r = none ∧ w'.heap = w.heap ∧
        w'.destroyed.length ≤
          w.destroyed.length + ((List.range n).filter fun i => (nodes i).isSome).length)

/-- The list that copying has built before the first insertion that gets a node. -/
structure Blank (w d : World α) : Prop where
  guard_eq : d.guard = (create w.guard.opts w.heap).guard
  heap_eq : d.heap = w.heap
  destroyed_eq : d.destroyed = w.destroyed

variable {nodePtr nodes copies} {d : World α} {n k c : ℕ} {v : KmathVal α}

theorem dupLoop_none {fuel m : ℕ} {x : KlistNode α} (hn : nodes n = none)
    (hget : d.heap.get a = some x) :
    dupLoop nodePtr nodes copies fuel (m + 1) d n (some a) =
      dupLoop nodePtr nodes copies fuel m { d with kerrno := .nomem } (n + 1) x.next := by
  simp [dupLoop, insertCopy, insertTail, insertWith, hn, next, Heap.load, hget]

/-- Insertions without a node are passed over. -/
theorem dupLoop_skip {fuel m : ℕ} {p : Option ℕ} (hd : Blank w d) (h : Chain w.links p l none)
    (hk : k ≤ l.length) (hm : l.length ≤ m) (hnone : ∀ i < k, nodes (n + i) = none) :
    ∃ d', Blank w d' ∧ dupLoop nodePtr nodes copies fuel m d n l.head? =
      dupLoop nodePtr nodes copies fuel (m - k) d' (n + k) (l.drop k).head? := by
  induction k generalizing d l n m p with
  | zero => exact ⟨d, hd, rfl⟩
  | succ k ih =>
      cases l with
      | nil => simp at hk
      | cons a l =>
          obtain ⟨m, rfl⟩ : ∃ m', m = m' + 1 := ⟨m - 1, by simp at hm; omega⟩
          obtain ⟨v, hget⟩ := get_of_links h.1
          have hd₁ : Blank w { d with kerrno := .nomem } :=
            ⟨hd.guard_eq, hd.heap_eq, hd.destroyed_eq⟩
          have hnone₁ : ∀ i < k, nodes (n + 1 + i) = none := by
            intro i hi
            rw [Nat.add_assoc, Nat.add_comm 1 i]
            exact hnone (i + 1) (by omega)
          obtain ⟨d', hd', hrun⟩ :=
            ih hd₁ h.2 (Nat.le_of_succ_le_succ hk) (Nat.le_of_succ_le_succ hm) hnone₁
          have hn : nodes n = none := hnone 0 (by omega)
          refine ⟨d', hd', ?_⟩
          rw [List.head?_cons, dupLoop_none hn (hd.heap_eq ▸ hget),
            Option.or_none, hrun, Nat.add_sub_add_right, Nat.add_assoc, Nat.add_comm 1 k,
            List.drop_succ_cons]

/-- What is built of a node is not a null pointer. -/
theorem kmathValGet_ctor_ne_null {p : KPtr α} {type : Kobj} {ctor : Bool}
    (hp : p.load.isSome) (hv : kmathValCtor p type ctor = some v) : kmathValGet v type ≠ .null := by
  have hnull : p ≠ .null := by
    rintro rfl
    cases hp
  cases type <;> cases ctor <;> simp only [kmathValCtor, Option.map_eq_some_iff, if_true] at hv <;>
    first
    | cases hv
      exact hnull
    | obtain ⟨x, -, rfl⟩ := hv
      simp [kmathValGet]

/-- The list after an insertion into an empty one. -/
def inserted (d : World α) (a : ℕ) : World α :=
  ((((d.setHead (some a)).setTail (some a)).putPrev a none).putNext a none).setCount 1

theorem insertTailRaw_of_empty (hc : d.guard.count = 0) (ha : (d.heap.get a).isSome) :
    d.insertTailRaw a = some (d.inserted a) := by
  simp [insertTailRaw, inserted, hc, ha]

theorem get_inserted {x : KlistNode α} (ha : d.heap.get a = some x) :
    (d.inserted a).heap.get a = some ⟨none, none, x.val⟩ := by
  simp [inserted, putNext, putPrev, ha]

theorem get_inserted_of_ne {b : ℕ} (hb : b ≠ a) : (d.inserted a).heap.get b = d.heap.get b := by
  rw [inserted, heap_setCount, get_putNext_of_ne _ hb, get_putPrev_of_ne _ hb]
  rfl

/-- The first insertion that gets a node makes a list of it. -/
theorem Blank.insertTail_spec (hd : Blank w d) (a : ℕ) {p : KPtr α}
    (hv : kmathValCtor p w.guard.opts.valType w.guard.opts.valCtor = some v) :
    ∃ d', d.insertTail (some a) p = some (kmathValGet v w.guard.opts.valType, d') ∧
      Holds d' [a] ∧ d'.guard.opts = w.guard.opts ∧ d'.destroyed = w.destroyed ∧
      d'.vals a = some v ∧ ∀ b, b ≠ a → d'.heap.get b = w.heap.get b := by
  have hcount : d.guard.count = 0 := by rw [hd.guard_eq]; rfl
  have hopts : d.guard.opts = w.guard.opts := by rw [hd.guard_eq]; rfl
  have hget := get_inserted (d := { d with heap := d.heap.alloc a ⟨none, none, v⟩ })
    (Heap.get_alloc_self _ _ _)
  have hraw := insertTailRaw_of_empty (d := { d with heap := d.heap.alloc a ⟨none, none, v⟩ })
    (a := a) hcount (by simp)
  refine ⟨inserted { d with heap := d.heap.alloc a ⟨none, none, v⟩ } a, ?_, ?_, hopts,
    hd.destroyed_eq, ?_, fun b hb => ?_⟩
  · simp only [insertTail, insertWith, hopts, hv, hraw, hget, Option.bind_eq_bind,
      Option.bind_some]
    rw [← hopts]
    rfl
  · refine ⟨⟨?_, trivial⟩, rfl, rfl, rfl, List.nodup_singleton a⟩
    rw [links, hget]
    rfl
  · rw [vals, hget, Option.map_some]
  · rw [get_inserted_of_ne hb, Heap.get_alloc_of_ne _ _ _ hb, hd.heap_eq]

/-- The turn of the loop whose insertion gets a node: it tears the new list down. -/
theorem Blank.dupLoop_some (hd : Blank w d) {fuel m : ℕ} (hn : nodes n = some a)
    (hload : (nodePtr c).load.isSome)
    (hv : kmathValCtor (nodePtr c) w.guard.opts.valType w.guard.opts.valCtor = some v) :
    ∃ d', Holds d' [a] ∧ d'.guard.opts = w.guard.opts ∧ d'.destroyed = w.destroyed ∧
      d'.vals a = some v ∧ (∀ b, b ≠ a → d'.heap.get b = w.heap.get b) ∧
      dupLoop nodePtr nodes copies fuel (m + 1) d n (some c) =
        if CopiesVal w.guard.opts ∧ copies n = false then none
        else (clear nodePtr fuel d').map fun d => (none, d, n + 1) := by
  obtain ⟨d', hrun, H, hopts, hdes, hvals, hget⟩ := hd.insertTail_spec a hv
  have hnull := kmathValGet_ctor_ne_null hload hv
  refine ⟨d', H, hopts, hdes, hvals, hget, ?_⟩
  have hopts' : d.guard.opts = w.guard.opts := by rw [hd.guard_eq]; rfl
  rw [dupLoop, insertCopy, hn, hopts', hrun]
  by_cases hfail : CopiesVal w.guard.opts ∧ copies n = false
  · simp [hfail]
  · rw [if_neg fun h => hfail h.2, if_neg hfail, Option.bind_eq_bind, Option.bind_some,
      Option.map_eq_bind]
    cases hr : kmathValGet v w.guard.opts.valType with
    | null => exact absurd hr hnull
    | user | copy | raw => rfl

/-- A torn down list of one node leaves the memory as it was before. -/
theorem heap_of_cleared (ha : w.heap.get a = none)
    (hget : ∀ b, b ≠ a → w₁.heap.get b = w.heap.get b) (h : Cleared [a] w₁ w') :
    w'.heap = w.heap := by
  have hall : w'.heap.get = w.heap.get := by
    funext b
    by_cases hb : b = a
    · rw [hb, h.get_mem a List.mem_cons_self, ha]
    · rw [h.get_eq b (by simpa using hb), hget b hb]
  exact congrArg Heap.mk hall

theorem isSome_kmathValCtor {p : KPtr α} (hp : p.load.isSome) (type : Kobj) (ctor : Bool) :
    (kmathValCtor p type ctor).isSome := by
  have hderef : p.deref.isSome := by
    cases p <;> first | rfl | cases hp
  cases type <;> cases ctor <;> simp [kmathValCtor, hp, hderef]

/-- Copying, from the first insertion that may get a node on. -/
theorem Holds.dup_eq (nodePtr : ℕ → KPtr α) (copies : ℕ → Bool) (H : Holds w l) (fuel : ℕ)
    (hk : k ≤ l.length) (hnone : ∀ i < k, nodes i = none) :
    ∃ d, Blank w d ∧ dup nodePtr nodes copies fuel w true =
      (dupLoop nodePtr nodes copies fuel (l.length - k) d k (l.drop k).head?).map
        fun r => (r.1, r.2.1.withGuard w.guard, r.2.2) := by
  have hskip : ∃ d', Blank w d' ∧ dupLoop nodePtr nodes copies fuel l.length
      (w.withGuard (create w.guard.opts w.heap).guard) 0 l.head? = _ :=
    dupLoop_skip ⟨rfl, rfl, rfl⟩ H.chain hk (Nat.le_refl l.length) (by simpa using hnone)
  obtain ⟨d, hd, hrun⟩ := hskip
  rw [Nat.zero_add] at hrun
  refine ⟨d, hd, ?_⟩
  rw [dup, if_pos rfl, H.count_eq, H.head_eq, hrun, Option.map_eq_bind]
  rfl

/-- Without a node for any insertion the copy is empty. -/
theorem Holds.dup_refused (nodePtr : ℕ → KPtr α) (copies : ℕ → Bool) (H : Holds w l) (fuel : ℕ)
    (hnone : ∀ i < l.length, nodes i = none) :
    ∃ r w', dup nodePtr nodes copies fuel w true = some (some r, w', l.length) ∧
      w'.guard = w.guard ∧ w'.heap = w.heap ∧ w'.destroyed = w.destroyed ∧
      Holds (w'.withGuard r) [] := by
  obtain ⟨d, hd, hrun⟩ := H.dup_eq nodePtr copies fuel (Nat.le_refl l.length) hnone
  refine ⟨d.guard, d.withGuard w.guard, ?_, rfl, hd.heap_eq, hd.destroyed_eq, ?_⟩
  · rw [hrun, List.drop_length, List.head?_nil]
    simp [dupLoop]
  · rw [hd.guard_eq]
    exact ⟨trivial, rfl, rfl, rfl, List.nodup_nil⟩

/-- With a node for an insertion the copy is torn down. -/
theorem Holds.dup_granted (H : Holds w l) (fuel : ℕ) (hnone : ∀ i < k, nodes i = none)
    (ha : nodes k = some a) (hc : l[k]? = some c) (hload : (nodePtr c).load.isSome)
    (hv : kmathValCtor (nodePtr c) w.guard.opts.valType w.guard.opts.valCtor = some v) :
    ∃ d, Holds d [a] ∧ d.guard.opts = w.guard.opts ∧ d.destroyed = w.destroyed ∧
      d.vals a = some v ∧ (∀ b, b ≠ a → d.heap.get b = w.heap.get b) ∧
      dup nodePtr nodes copies fuel w true =
        if CopiesVal w.guard.opts ∧ copies k = false then none
        else (clear nodePtr fuel d).map fun d => (none, d.withGuard w.guard, k + 1) := by
  obtain ⟨hlt, -⟩ := List.getElem?_eq_some_iff.mp hc
  obtain ⟨d, hd, hrun⟩ := H.dup_eq nodePtr copies fuel (Nat.le_of_lt hlt) hnone
  obtain ⟨m, hm⟩ : ∃ m, l.length - k = m + 1 := ⟨l.length - k - 1, by omega⟩
  obtain ⟨d', H', hopts, hdes, hvals, hget, hturn⟩ :
    ∃ d', Holds d' [a] ∧ d'.guard.opts = w.guard.opts ∧ d'.destroyed = w.destroyed ∧
      d'.vals a = some v ∧ (∀ b, b ≠ a → d'.heap.get b = w.heap.get b) ∧
      dupLoop nodePtr nodes copies fuel (m + 1) d k (some c) = _ := hd.dupLoop_some ha hload hv
  refine ⟨d', H', hopts, hdes, hvals, hget, ?_⟩
  rw [hrun, hm, List.head?_drop, hc, hturn]
  split
  · rfl
  · rw [Option.map_map]
    rfl

theorem length_kmathValDtor (v : KmathVal α) (type : Kobj) :
    (kmathValDtor v type).length = if type.IsInt then 0 else 1 := by
  cases type <;> rfl

/-- Only the last of these insertions has got a node. -/
theorem length_filter_granted (hnone : ∀ i < k, nodes i = none) (ha : nodes k = some a) :
    ((List.range (k + 1)).filter fun i => (nodes i).isSome).length = 1 := by
  have hnil : ((List.range k).filter fun i => (nodes i).isSome) = [] := by
    refine List.filter_eq_nil_iff.mpr fun i hi => ?_
    simp [hnone i (List.mem_range.mp hi)]
  rw [List.range_succ, List.filter_append, hnil]
  simp [ha]

theorem dups_of_mem_false : Dups nodePtr nodes copies w l false :=
  ⟨0, none, { w with kerrno := .nomem }, 0, rfl, rfl, fun _ _ => rfl, nofun,
    fun _ => ⟨rfl, rfl, Nat.le_add_right _ _⟩⟩

/-- A copy that was torn down is what is asked for only after a failed allocation, and if
its one value was not destroyed twice. -/
theorem Holds.int_of_dups (H : Holds w l) (hnone : ∀ i < k, nodes i = none)
    (ha : nodes k = some a) (hc : l[k]? = some c) (hload : (nodePtr c).load.isSome)
    (hv : kmathValCtor (nodePtr c) w.guard.opts.valType w.guard.opts.valCtor = some v)
    (h : Dups nodePtr nodes copies w l true) :
    0 < k ∧ w.guard.opts.valType.IsInt ∧ w.guard.opts.valMatch (nodePtr a) v.ptr = 0 := by
  obtain ⟨fuel, r, w', n, hrun, -, -, hcopy, hfail⟩ := h
  obtain ⟨d, Hd, hopts, hdes, hvals, hget, hdup⟩ :
    ∃ d, Holds d [a] ∧ d.guard.opts = w.guard.opts ∧ d.destroyed = w.destroyed ∧
      d.vals a = some v ∧ (∀ b, b ≠ a → d.heap.get b = w.heap.get b) ∧
      dup nodePtr nodes copies fuel w true = _ := H.dup_granted fuel hnone ha hc hload hv
  rw [hdup] at hrun
  split at hrun
  · cases hrun
  next hok =>
    obtain ⟨d', hclear, hr⟩ := Option.map_eq_some_iff.mp hrun
    cases hr
    have hacc := Hd.accepts_of_clear hclear a List.mem_cons_self
    have hcl := Hd.cleared_of_clear hclear
    have hpos : 0 < k := by
      refine Nat.pos_of_ne_zero fun hk => ?_
      subst hk
      have hall : ∀ i < 0 + 1, ¬ AllocFails nodes copies w i := by
        rintro i hi (hi' | hi')
        · obtain rfl : i = 0 := by omega
          cases ha.symm.trans hi'
        · obtain rfl : i = 0 := by omega
          exact hok hi'
      obtain ⟨d, l', hr, -⟩ := hcopy ⟨rfl, hall⟩
      cases hr
    have hnot : ¬ (true = true ∧ ∀ i < k + 1, ¬ AllocFails nodes copies w i) := fun hall =>
      hall.2 0 (Nat.succ_pos k) (Or.inl (hnone 0 hpos))
    obtain ⟨-, -, hlen⟩ := hfail hnot
    refine ⟨hpos, ?_, ?_⟩
    · by_contra hint
      have hdtors : (d.dtors a).length = 1 := by
        rw [dtors, hvals, Option.elim_some, length_kmathValDtor, hopts, if_neg hint]
      rw [length_filter_granted hnone ha] at hlen
      have hlen' : d'.destroyed.length ≤ w.destroyed.length + 1 := hlen
      rw [hcl.destroyed_eq, hdes] at hlen'
      simp [hdtors] at hlen'
    · rw [Accepts, matchesKey_eq, hvals, Option.elim_some, hopts] at hacc
      exact eq_of_beq hacc

/-- After a failed allocation a copy of integers is torn down as it should be. -/
theorem Holds.dups_of_int (H : Holds w l) (hfresh : w.heap.get a = none)
    (hnone : ∀ i < k, nodes i = none) (ha : nodes k = some a) (hc : l[k]? = some c)
    (hload : (nodePtr c).load.isSome)
    (hv : kmathValCtor (nodePtr c) w.guard.opts.valType w.guard.opts.valCtor = some v)
    (hpos : 0 < k) (hint : w.guard.opts.valType.IsInt)
    (hmatch : w.guard.opts.valMatch (nodePtr a) v.ptr = 0) :
    Dups nodePtr nodes copies w l true := by
  obtain ⟨d, Hd, hopts, hdes, hvals, hget, hdup⟩ :
    ∃ d, Holds d [a] ∧ d.guard.opts = w.guard.opts ∧ d.destroyed = w.destroyed ∧
      d.vals a = some v ∧ (∀ b, b ≠ a → d.heap.get b = w.heap.get b) ∧
      dup nodePtr nodes copies 1 w true = _ := H.dup_granted 1 hnone ha hc hload hv
  have hacc : Accepts nodePtr d a := by
    rw [Accepts, matchesKey_eq, hvals, Option.elim_some, hopts, hmatch]
    rfl
  have hcopies : ¬ CopiesVal w.guard.opts := by
    rintro ⟨-, hmem⟩
    revert hint
    simp only [List.mem_cons, List.not_mem_nil, or_false] at hmem
    rcases hmem with h | h | h | h | h <;> rw [h] <;> exact id
  have hall : ∀ b ∈ [a], Accepts nodePtr d b := List.forall_mem_singleton.mpr hacc
  obtain ⟨d', hclear, hcl⟩ := Hd.clear_spec hall
  have hheap : d'.heap = w.heap := heap_of_cleared hfresh hget hcl
  have hdtors : d.dtors a = [] := by
    refine List.length_eq_zero_iff.mp ?_
    rw [dtors, hvals, Option.elim_some, length_kmathValDtor, hopts, if_pos hint]
  have hdes' : d'.destroyed = w.destroyed := by
    rw [hcl.destroyed_eq, hdes]
    simp [hdtors]
  refine ⟨1, none, d'.withGuard w.guard, k + 1, ?_, rfl, fun b _ => congrArg (·.get b) hheap, ?_,
    ?_⟩
  · rw [hdup, if_neg fun h => hcopies h.1]
    exact congrArg (Option.map _) hclear
  · exact fun hall => absurd (Or.inl (hnone 0 hpos)) (hall.2 0 (Nat.succ_pos k))
  · intro _
    refine ⟨rfl, hheap, ?_⟩
    change d'.destroyed.length ≤ _
    rw [hdes']
    exact Nat.le_add_right _ _

/-- When every node is refused, an empty list is returned for one that is not. -/
theorem Holds.not_dups_refused (H : Holds w l) (hpos : 0 < l.length)
    (hall : ∀ i < l.length, nodes i = none) : ¬ Dups nodePtr nodes copies w l true := by
  rintro ⟨fuel, r, w', n, hrun, -, -, -, hfail⟩
  obtain ⟨r', w₁, hrun', -⟩ := H.dup_refused nodePtr copies fuel hall
  cases hrun.symm.trans hrun'
  have hnot : ¬ (true = true ∧ ∀ i < l.length, ¬ AllocFails nodes copies w i) :=
    fun h => h.2 0 hpos (Or.inl (hall 0 hpos))
  cases (hfail hnot).1

theorem Holds.dups_nil (H : Holds w []) : Dups nodePtr nodes copies w [] true := by
  obtain ⟨r, w', hrun, hguard, hheap, hdes, H'⟩ :=
    H.dup_refused nodePtr copies 0 fun i hi => absurd hi (Nat.not_lt_zero i)
  refine ⟨0, some r, w', 0, hrun, hguard, fun b _ => congrArg (·.get b) hheap, fun _ => ?_,
    fun hnot => absurd ⟨rfl, fun i hi => absurd hi (Nat.not_lt_zero i)⟩ hnot⟩
  exact ⟨r, [], rfl, H', List.disjoint_nil_left _, H'.count_eq.trans H.count_eq.symm, rfl, hdes⟩

/-- The first insertion for which a node is granted. -/
theorem exists_first_granted (h : ¬ ∀ i < n, nodes i = none) :
    ∃ k, k < n ∧ (∀ i < k, nodes i = none) ∧ ∃ a, nodes k = some a := by
  have hex : ∃ k, k < n ∧ nodes k ≠ none := by simpa using h
  obtain ⟨hlt, hsome⟩ := Nat.find_spec hex
  refine ⟨Nat.find hex, hlt, fun i hi => ?_, Option.ne_none_iff_exists'.mp hsome⟩
  by_contra hi'
  exact Nat.find_min hex hi ⟨by omega, hi'⟩

/-- **Copying a list** does what it is for when the list is empty, or there is no memory for
the new guard.  It also does when the first node is refused, a later one is granted, the
values need no destructor and `match` accepts the new node: it then tears the new list down
because the insertion succeeded. -/
theorem dup_iff (nodePtr : ℕ → KPtr α) {nodes : ℕ → Option ℕ} (copies : ℕ → Bool) (mem : Bool)
    (H : Holds w l) (hfresh : ∀ i a, nodes i = some a → w.heap.get a = none)
    (hload : ∀ a ∈ l, (nodePtr a).load.isSome) :
    Dups nodePtr nodes copies w l mem ↔
      l = [] ∨ mem = false ∨ w.guard.opts.valType.IsInt ∧
        ∃ k a c v, 0 < k ∧ (∀ i < k, nodes i = none) ∧ nodes k = some a ∧ l[k]? = some c ∧
          kmathValCtor (nodePtr c) w.guard.opts.valType w.guard.opts.valCtor = some v ∧
          w.guard.opts.valMatch (nodePtr a) v.ptr = 0 := by
  constructor
  · intro h
    by_cases hl : l = []
    · exact Or.inl hl
    cases mem with
    | false => exact Or.inr (Or.inl rfl)
    | true =>
        have hpos : 0 < l.length := List.length_pos_iff.mpr hl
        have hall : ¬ ∀ i < l.length, nodes i = none := fun hall => H.not_dups_refused hpos hall h
        obtain ⟨k, hlt, hnone, a, ha⟩ := exists_first_granted hall
        have hc : l[k]? = some (l.get ⟨k, hlt⟩) := List.getElem?_eq_getElem hlt
        have hread := hload _ (List.get_mem l ⟨k, hlt⟩)
        obtain ⟨v, hv⟩ := Option.isSome_iff_exists.mp
          (isSome_kmathValCtor hread w.guard.opts.valType w.guard.opts.valCtor)
        obtain ⟨hk, hint, hmatch⟩ := H.int_of_dups hnone ha hc hread hv h
        exact Or.inr (Or.inr ⟨hint, k, a, _, v, hk, hnone, ha, hc, hv, hmatch⟩)
  · rintro (rfl | rfl | ⟨hint, k, a, c, v, hk, hnone, ha, hc, hv, hmatch⟩)
    · cases mem with
      | false => exact dups_of_mem_false
      | true => exact H.dups_nil
    · exact dups_of_mem_false
    · cases mem with
      | false => exact dups_of_mem_false
      | true =>
          exact H.dups_of_int (hfresh k a ha) hnone ha hc (hload c (List.mem_of_getElem? hc)) hv hk
            hint hmatch

end Dup

/-- A copy of two integers is given up, as it should be: the first node is refused. -/
theorem dup_iff_pair :
    Dups (fun _ => .copy (.int 0)) (fun i => if i = 1 then some 3 else none) (fun _ => true) pair
      [1, 2] true := by
  refine (dup_iff (fun _ => .copy (.int 0)) (fun _ => true) true holds_pair ?_ ?_).mpr
    (Or.inr (Or.inr ⟨trivial, 1, 3, 2, .word 0, Nat.one_pos, ?_, rfl, rfl, rfl, rfl⟩))
  · intro i a ha
    obtain ⟨rfl, rfl⟩ : i = 1 ∧ a = 3 := by simpa [eq_comm] using ha
    rfl
  · intro a _
    rfl
  · intro i hi
    obtain rfl : i = 0 := Nat.lt_one_iff.mp hi
    rfl

/-- A list of one node is not copied, although every allocation succeeds. -/
theorem dup_single :
    (∃ w', dup (fun _ => .copy (.int 0)) (fun _ => some 2) (fun _ => true) 1
      (single .others (.v (.user (.obj 10))) 0) true = some (none, w', 1)) ∧
      ¬ Dups (fun _ => .copy (.int 0)) (fun _ => some 2) (fun _ => true)
        (single .others (.v (.user (.obj 10))) 0) [1] true := by
  refine ⟨⟨_, rfl⟩, fun h => ?_⟩
  have H := holds_single .others (.v (.user (.obj 10))) 0
  have hnone : ∀ i < 0, (fun _ => some 2 : ℕ → Option ℕ) i = none := nofun
  have hdup := H.int_of_dups (a := 2) (c := 1) (v := .v (.copy (.int 0))) hnone rfl rfl rfl rfl h
  cases hdup.1

end Kylin.Klist.World
