import Kylin.Math.ListHpi

/-!
# The queue macros as changes of memory

Each macro of `kylin_list_hpi.h` stores to forward links and to the words beside them in an
order of its own.  For each of them the words that differ afterwards are those of one change of
`Kylin.Lib.Slots`: an element linked in or taken out, queues joined, swapped or cleared.  The
macros that look for an element rely on what the queue says about these words.

## Main results

* `tailqInsertTail_eq`, `tailqConcat_eq`, … — the macros as changes.
* `tailqLast_eq`, `tailqPrev_eq`, `stailqLast_eq` — what is found beside a slot.
* `listPrev_eq` — `LIST_PREV` finds its own argument.
* `slistRemove_eq`, `stailqRemove_eq` — removal by search.
-/

namespace Kylin

open Lib Slot

namespace ListHpi

variable {m : Memory} {s : Slot} {h h₁ h₂ e x n f : ℕ} {k : Kind}

/-! ## The macros as changes of memory -/

theorem slistInit_eq : slistInit m h = cleared ⟨false, false⟩ m h := by
  refine memory_ext (fun t => ?_) fun t => ?_
  · simp [slistInit, cleared]
  · simp [slistInit, cleared]

theorem listInit_eq : listInit m h = cleared ⟨false, true⟩ m h := by
  refine memory_ext (fun t => ?_) fun t => ?_
  · simp [listInit, cleared]
  · simp [listInit, cleared]

theorem tailqInit_eq : tailqInit m h = cleared ⟨true, true⟩ m h := by
  refine memory_ext (fun t => ?_) fun t => ?_
  · simp [tailqInit, cleared]
  · simp [tailqInit, cleared]

theorem stailqInit_eq : stailqInit m h = cleared ⟨true, false⟩ m h := by
  refine memory_ext (fun t => ?_) fun t => ?_
  · simp [stailqInit, cleared]
  · simp [stailqInit, cleared]

theorem slistInsertHead_eq :
    slistInsertHead m h e = inserted ⟨false, false⟩ m h (.head h) e (first m h) := by
  refine memory_ext (fun t => ?_) fun t => ?_
  · simp [slistInsertHead, inserted]
  · cases t <;> simp [slistInsertHead, inserted]

theorem stailqInsertHead_eq :
    stailqInsertHead m h e = inserted ⟨true, false⟩ m h (.head h) e (first m h) := by
  simp only [stailqInsertHead, next_setFwd, if_true]
  refine memory_ext (fun t => ?_) fun t => ?_
  · split <;> simp [inserted]
  · cases t <;> split <;> simp_all [inserted]

theorem listInsertHead_eq :
    listInsertHead m h e = inserted ⟨false, true⟩ m h (.head h) e (first m h) := by
  cases hf : first m h <;>
    simp only [listInsertHead, first_setFwd, reduceCtorEq, if_false, hf]
  all_goals
    refine memory_ext (fun t => ?_) fun t => ?_
    · simp [inserted]
    · cases t <;> simp [inserted] <;> grind

theorem tailqInsertHead_eq :
    tailqInsertHead m h e = inserted ⟨true, true⟩ m h (.head h) e (first m h) := by
  cases hf : first m h <;>
    simp only [tailqInsertHead, first_setFwd, reduceCtorEq, if_false, hf]
  all_goals
    refine memory_ext (fun t => ?_) fun t => ?_
    · simp [inserted]
    · cases t <;> simp [inserted] <;> grind

theorem slistInsertAfter_eq :
    slistInsertAfter m x e = inserted ⟨false, false⟩ m h (.entry x) e (next m x) := by
  refine memory_ext (fun t => ?_) fun t => ?_
  · simp [slistInsertAfter, inserted]
  · cases t <;> simp [slistInsertAfter, inserted]

theorem stailqInsertAfter_eq :
    stailqInsertAfter m h x e = inserted ⟨true, false⟩ m h (.entry x) e (next m x) := by
  simp only [stailqInsertAfter, next_setFwd, if_true]
  refine memory_ext (fun t => ?_) fun t => ?_
  · split <;> simp [inserted]
  · cases t <;> split <;> simp_all [inserted]

theorem listInsertAfter_eq (hne : x ≠ e) :
    listInsertAfter m x e = inserted ⟨false, true⟩ m h (.entry x) e (next m x) := by
  cases hn : next m x <;>
    simp only [listInsertAfter, next_setFwd, Slot.entry.injEq, if_neg hne, hn]
  all_goals
    refine memory_ext (fun t => ?_) fun t => ?_
    · simp [inserted]
    · cases t <;> simp [inserted] <;> grind

theorem tailqInsertAfter_eq :
    tailqInsertAfter m h x e = inserted ⟨true, true⟩ m h (.entry x) e (next m x) := by
  cases hn : next m x <;> simp only [tailqInsertAfter, next_setFwd, if_true, hn]
  all_goals
    refine memory_ext (fun t => ?_) fun t => ?_
    · simp [inserted]
    · cases t <;> simp [inserted] <;> grind

theorem listInsertBefore_eq (hs : (m (.entry x)).back = some s) (hne : x ≠ e)
    (hk : k.prev = true) : listInsertBefore m x e = some (inserted k m h s e (some x)) := by
  simp only [listInsertBefore, back_setBack, back_setFwd, Slot.entry.injEq, if_neg hne, hs, storeAt,
    Option.map_some, Option.bind_eq_bind, Option.bind_some, Option.some.injEq]
  refine memory_ext (fun t => ?_) fun t => ?_
  · simp [inserted]
  · cases t
    · simp [inserted]
    · simp [inserted, hk]
      grind

theorem stailqInsertTail_eq (hs : (m (.head h)).back = some s) :
    stailqInsertTail m h e = some (inserted ⟨true, false⟩ m h s e none) := by
  simp only [stailqInsertTail, back_setFwd, hs, storeAt,
    Option.map_some, Option.bind_eq_bind, Option.bind_some, Option.some.injEq]
  refine memory_ext (fun t => ?_) fun t => ?_
  · simp [inserted]
  · cases t <;> simp [inserted]

theorem tailqInsertTail_eq (hs : (m (.head h)).back = some s) :
    tailqInsertTail m h e = some (inserted ⟨true, true⟩ m h s e none) := by
  simp only [tailqInsertTail, back_setFwd, back_setBack, reduceCtorEq, if_false, hs, storeAt,
    Option.map_some, Option.bind_eq_bind, Option.bind_some, Option.some.injEq]
  refine memory_ext (fun t => ?_) fun t => ?_
  · simp [inserted]
  · cases t <;> simp [inserted]

theorem slistRemoveAfter_eq (hn : next m x = some n) :
    slistRemoveAfter m x = some (removed ⟨false, false⟩ m h (.entry x) (next m n)) := by
  simp only [slistRemoveAfter, hn, Option.bind_eq_bind, Option.bind_some, Option.some.injEq]
  refine memory_ext (fun t => ?_) fun t => ?_
  · simp [removed]
  · cases t <;> simp [removed]

theorem slistRemoveHead_eq (hf : first m h = some f) :
    slistRemoveHead m h = some (removed ⟨false, false⟩ m h (.head h) (next m f)) := by
  simp only [slistRemoveHead, hf, Option.bind_eq_bind, Option.bind_some, Option.some.injEq]
  refine memory_ext (fun t => ?_) fun t => ?_
  · simp [removed]
  · cases t <;> simp [removed]

theorem stailqRemoveAfter_eq (hn : next m x = some n) :
    stailqRemoveAfter m h x = some (removed ⟨true, false⟩ m h (.entry x) (next m n)) := by
  simp only [stailqRemoveAfter, hn, Option.bind_eq_bind, Option.bind_some, Option.some.injEq,
    next_setFwd, if_true]
  refine memory_ext (fun t => ?_) fun t => ?_
  · split <;> simp [removed]
  · cases t <;> split <;> simp_all [removed]

theorem stailqRemoveHead_eq (hf : first m h = some f) :
    stailqRemoveHead m h = some (removed ⟨true, false⟩ m h (.head h) (next m f)) := by
  simp only [stailqRemoveHead, hf, Option.bind_eq_bind, Option.bind_some, Option.some.injEq,
    first_setFwd, if_true]
  refine memory_ext (fun t => ?_) fun t => ?_
  · split <;> simp [removed]
  · cases t <;> split <;> simp_all [removed]

theorem listRemove_eq (hs : (m (.entry e)).back = some s) (hne : next m e ≠ some e) :
    listRemove m e = some (removed ⟨false, true⟩ m h s (next m e)) := by
  cases hn : next m e with
  | none =>
      simp only [listRemove, hn, hs, storeAt, Option.map_some, Option.some.injEq]
      refine memory_ext (fun t => ?_) fun t => ?_
      · simp [removed]
      · cases t <;> simp [removed]
  | some n =>
      have hen : e ≠ n := fun heq => hne (heq ▸ hn)
      simp only [listRemove, hn, back_setBack, Slot.entry.injEq, if_neg hen, hs, storeAt,
        Option.map_some, Option.some.injEq, next_setBack]
      refine memory_ext (fun t => ?_) fun t => ?_
      · simp [removed]
      · cases t <;> simp [removed, eq_comm]

theorem tailqRemove_eq (hs : (m (.entry e)).back = some s) (hne : next m e ≠ some e) :
    tailqRemove m h e = some (removed ⟨true, true⟩ m h s (next m e)) := by
  cases hn : next m e with
  | none =>
      simp only [tailqRemove, hn, back_setBack, reduceCtorEq, if_false, hs, storeAt,
        Option.map_some, Option.some.injEq, next_setBack]
      refine memory_ext (fun t => ?_) fun t => ?_
      · simp [removed]
      · cases t <;> simp [removed]
  | some n =>
      have hen : e ≠ n := fun heq => hne (heq ▸ hn)
      simp only [tailqRemove, hn, back_setBack, Slot.entry.injEq, if_neg hen, hs, storeAt,
        Option.map_some, Option.some.injEq, next_setBack]
      refine memory_ext (fun t => ?_) fun t => ?_
      · simp [removed]
      · cases t <;> simp [removed, eq_comm]

theorem stailqConcat_eq (hn : first m h₂ = some n) (hs : (m (.head h₁)).back = some s) :
    stailqConcat m h₁ h₂ = some (joined ⟨true, false⟩ m h₁ h₂ s n) := by
  simp only [stailqConcat, empty, hn, Option.isNone_some, Bool.false_eq_true, if_false, hs, storeAt,
    Option.map_some, Option.bind_eq_bind, Option.bind_some, stailqInit, Option.some.injEq]
  refine memory_ext (fun t => ?_) fun t => ?_
  · simp [joined]
  · cases t <;> simp [joined]

theorem tailqConcat_eq (hn : first m h₂ = some n) (hs : (m (.head h₁)).back = some s)
    (hsh : s ≠ .head h₂) :
    tailqConcat m h₁ h₂ = some (joined ⟨true, true⟩ m h₁ h₂ s n) := by
  simp only [tailqConcat, empty, hn, Option.isNone_some, Bool.false_eq_true, if_false, hs, storeAt,
    Option.map_some, Option.bind_eq_bind, Option.bind_some, first_setFwd, if_neg hsh.symm,
    tailqInit, Option.some.injEq]
  refine memory_ext (fun t => ?_) fun t => ?_
  · simp [joined]
  · cases t <;> simp [joined, hs]

theorem slistSwap_eq : slistSwap m h₁ h₂ = swapped ⟨false, false⟩ m h₁ h₂ := by
  refine memory_ext (fun t => ?_) fun t => ?_
  · simp [slistSwap, swapped, first]
  · cases t <;> simp [slistSwap, swapped]

theorem stailqSwap_eq (hne : h₁ ≠ h₂) :
    stailqSwap m h₁ h₂ = swapped ⟨true, false⟩ m h₁ h₂ := by
  have hfwd : ∀ h, (m (.head h)).fwd = first m h := fun _ => rfl
  cases hf₁ : first m h₁ <;> cases hf₂ : first m h₂ <;>
    simp [stailqSwap, empty, hne, hf₁, hf₂]
  all_goals
    refine memory_ext (fun t => ?_) fun t => ?_
    · simp [swapped, hfwd, hf₁, hf₂]
    · cases t <;> simp [swapped, hfwd, hf₁, hf₂] <;> grind

theorem listSwap_eq (hne : h₁ ≠ h₂) :
    listSwap m h₁ h₂ = swapped ⟨false, true⟩ m h₁ h₂ := by
  have hfwd : ∀ h, (m (.head h)).fwd = first m h := fun _ => rfl
  cases hf₁ : first m h₁ <;> cases hf₂ : first m h₂ <;>
    simp [listSwap, hne, hf₁, hf₂]
  all_goals
    refine memory_ext (fun t => ?_) fun t => ?_
    · simp [swapped, hfwd, hf₁, hf₂]
    · cases t <;> simp [swapped, hfwd, hf₁, hf₂] <;> grind

theorem tailqSwap_eq (hne : h₁ ≠ h₂) :
    tailqSwap m h₁ h₂ = swapped ⟨true, true⟩ m h₁ h₂ := by
  have hfwd : ∀ h, (m (.head h)).fwd = first m h := fun _ => rfl
  cases hf₁ : first m h₁ <;> cases hf₂ : first m h₂ <;>
    simp [tailqSwap, hne, hf₁, hf₂]
  all_goals
    refine memory_ext (fun t => ?_) fun t => ?_
    · simp [swapped, hfwd, hf₁, hf₂]
    · cases t <;> simp [swapped, hfwd, hf₁, hf₂] <;> grind

/-! ## Queries -/

section Queries
variable {l l₁ l₂ : List ℕ}

/-- The link in an element. -/
theorem next_eq (Q : IsQueue k m h (l₁ ++ x :: l₂)) : next m x = l₂.head? := by
  have hsplit : l₁ ++ x :: l₂ = (l₁ ++ [x]) ++ l₂ := by simp
  have Q' := Q.forward
  rw [hsplit] at Q'
  have hhead := Q'.head
  rwa [after_concat] at hhead

/-- The slot in an element. -/
theorem back_eq (hk : k.prev = true) (Q : IsQueue k m h (l₁ ++ x :: l₂)) :
    (m (.entry x)).back = some (after (.head h) l₁) := (Q.backward hk).get

/-- The word beside a slot of a tail queue leads to the element that the slot is in. -/
theorem loadAt_back (Q : IsQueue ⟨true, true⟩ m h (l₁ ++ l₂)) :
    loadAt m (m (after (.head h) l₁)).back = some l₁.getLast? := by
  obtain rfl | ⟨l, y, rfl⟩ := List.eq_nil_or_concat l₁
  · rw [after_nil, Q.tail rfl, loadAt, Option.map_some, Q.forward.ends]
    rfl
  · rw [List.concat_eq_append, List.append_assoc, List.singleton_append] at Q
    rw [List.concat_eq_append, after_concat, back_eq rfl Q, loadAt, Option.map_some, Q.forward.head]
    simp

theorem tailqLast_eq (Q : IsQueue ⟨true, true⟩ m h l) : tailqLast m h = some l.getLast? := by
  have Q' : IsQueue ⟨true, true⟩ m h (l ++ []) := by rwa [List.append_nil]
  have hload := loadAt_back Q'
  rw [tailqLast, Q.tail rfl, Option.bind_eq_bind, Option.bind_some, hload]

theorem tailqPrev_eq (Q : IsQueue ⟨true, true⟩ m h (l₁ ++ x :: l₂)) :
    tailqPrev m x = some l₁.getLast? := by
  rw [tailqPrev, back_eq rfl Q, Option.bind_eq_bind, Option.bind_some, loadAt_back Q]

theorem stailqLast_eq (Q : IsQueue ⟨true, false⟩ m h l) : stailqLast m h = some l.getLast? := by
  have hfirst : first m h = l.head? := Q.forward.first
  obtain rfl | ⟨l, y, rfl⟩ := List.eq_nil_or_concat l
  · rw [stailqLast, empty, hfirst]
    rfl
  · have htail := Q.tail rfl
    rw [List.concat_eq_append, after_concat] at htail
    rw [List.concat_eq_append] at hfirst
    have hne : empty m h = false := by
      rw [empty, hfirst]
      cases l <;> rfl
    rw [stailqLast, hne, htail]
    simp

/-- **`LIST_PREV` returns the element itself**, not the one before it. -/
theorem listPrev_eq (Q : IsQueue ⟨false, true⟩ m h (l₁ ++ x :: l₂)) :
    listPrev m x = some (some x) := by
  rw [listPrev, back_eq rfl Q, loadAt, Option.map_some, Q.forward.head]
  rfl

/-- The link before the elements of a queue leads to one of them. -/
theorem Leads.mem_head {fwd : Slot → Option ℕ} {y : ℕ} (h : Leads fwd s (l₁ ++ y :: l₂)) :
    ∃ b ∈ l₁ ++ [y], fwd s = some b := by
  cases l₁ with
  | nil => exact ⟨y, by simp, h.1⟩
  | cons b l₁ => exact ⟨b, by simp, h.1⟩

/-- The search for the element before another one. -/
theorem findBefore_eq {y fuel : ℕ} (hfuel : l₁.length < fuel) (hx : x ∉ l₁ ++ [y])
    (h : Leads (fun s => (m s).fwd) s (l₁ ++ y :: x :: l₂)) :
    findBefore m x fuel (m s).fwd = some y := by
  induction l₁ generalizing s fuel with
  | nil =>
      obtain ⟨fuel, rfl⟩ : ∃ k, fuel = k + 1 := ⟨fuel - 1, by simp at hfuel; omega⟩
      have hnext : next m y = some x := h.2.1
      rw [show (m s).fwd = some y from h.1, findBefore, Option.bind_eq_bind, Option.bind_some,
        hnext, if_neg (not_not.mpr rfl)]
  | cons b l₁ ih =>
      obtain ⟨fuel, rfl⟩ : ∃ k, fuel = k + 1 := ⟨fuel - 1, by simp at hfuel; omega⟩
      rw [List.length_cons, Nat.succ_lt_succ_iff] at hfuel
      rw [List.cons_append, List.mem_cons, not_or] at hx
      have hne : next m b ≠ some x := by
        obtain ⟨c, hc, hlink⟩ := Leads.mem_head h.2
        rw [next, hlink]
        rintro ⟨⟩
        exact hx.2 hc
      rw [show (m s).fwd = some b from h.1, findBefore, Option.bind_eq_bind, Option.bind_some,
        if_pos hne]
      exact ih hfuel hx.2 h.2

end Queries

/-! ## Removal by search -/

section Remove
variable {l₁ l₂ : List ℕ} {fuel : ℕ}

/-- A removal finds its element first in the queue or behind another one. -/
theorem search_cases (Q : IsQueue k m h (l₁ ++ x :: l₂)) (hfuel : l₁.length < fuel) :
    (first m h = some x ∧ after (.head h) l₁ = .head h) ∨
      ∃ y, first m h ≠ some x ∧ findBefore m x fuel (first m h) = some y ∧
        next m y = some x ∧ after (.head h) l₁ = .entry y := by
  have hnot := (List.nodup_cons.mp (List.perm_middle.nodup_iff.mp Q.nodup)).1
  obtain rfl | ⟨l, y, rfl⟩ := List.eq_nil_or_concat l₁
  · exact .inl ⟨Q.forward.first, rfl⟩
  · rw [List.concat_eq_append] at Q hnot hfuel ⊢
    rw [List.append_assoc, List.singleton_append] at Q
    rw [List.length_append, List.length_singleton] at hfuel
    have hbefore : x ∉ l ++ [y] := fun hmem => hnot (List.mem_append_left _ hmem)
    have hne : first m h ≠ some x := by
      obtain ⟨c, hc, hlink⟩ := Leads.mem_head Q.forward.leads
      rw [first, hlink]
      rintro ⟨⟩
      exact hbefore hc
    have hlen : l.length < fuel := by omega
    have hfind := findBefore_eq hlen hbefore Q.forward.leads
    exact .inr ⟨y, hne, hfind, next_eq Q, after_concat⟩

/-- `SLIST_REMOVE` takes out an element wherever it is, -/
theorem slistRemove_eq (Q : IsQueue ⟨false, false⟩ m h (l₁ ++ x :: l₂))
    (hfuel : l₁.length < fuel) :
    slistRemove fuel m h x =
      some (removed ⟨false, false⟩ m h (after (.head h) l₁) l₂.head?) := by
  obtain ⟨hfirst, hslot⟩ | ⟨y, hne, hfind, hnext, hslot⟩ := search_cases Q hfuel
  · rw [slistRemove, if_pos hfirst, slistRemoveHead_eq hfirst, next_eq Q, hslot]
  · rw [slistRemove, if_neg hne, hfind, Option.bind_eq_bind, Option.bind_some,
      slistRemoveAfter_eq hnext, next_eq Q, hslot]

/-- and so does `STAILQ_REMOVE`. -/
theorem stailqRemove_eq (Q : IsQueue ⟨true, false⟩ m h (l₁ ++ x :: l₂))
    (hfuel : l₁.length < fuel) :
    stailqRemove fuel m h x =
      some (removed ⟨true, false⟩ m h (after (.head h) l₁) l₂.head?) := by
  obtain ⟨hfirst, hslot⟩ | ⟨y, hne, hfind, hnext, hslot⟩ := search_cases Q hfuel
  · rw [stailqRemove, if_pos hfirst, stailqRemoveHead_eq hfirst, next_eq Q, hslot]
  · rw [stailqRemove, if_neg hne, hfind, Option.bind_eq_bind, Option.bind_some,
      stailqRemoveAfter_eq hnext, next_eq Q, hslot]

end Remove

end ListHpi

end Kylin
