import Kylin.Lib.Acyclic

/-!
# Depth-first walks that can stop

A walk visits the successors of a node in order, and everything below each of them before the
next.  It stops for good at a node that is not in order.  So the walk below a node comes to a
successor only if everything before it has been passed: it descends along some of the edges.  It
ends if it cannot descend into a cycle.

## Main definitions

* `Passes` — the walk below a node comes back.
* `Comes`, `Descends` — where a walk comes to, along a list and below a node.
* `Ends` — no cycle can be descended into.

## Main results

* `Ends.of_acc` — a walk that is well-founded does not descend into a cycle.
-/

namespace Lib.Graph

variable {V : Type}

section Cycles
variable {r : V → V → Prop} {a b : V}

/-- No cycle can be reached. -/
def Ends (r : V → V → Prop) (a : V) : Prop :=
  ∀ b, Relation.ReflTransGen r a b → ¬ Relation.TransGen r b b

theorem Ends.step (h : Ends r a) (hab : r a b) : Ends r b :=
  fun c hc => h c (.head hab hc)

theorem Ends.of_acc (h : Acc (fun b a => r a b) a) : Ends r a := by
  induction h with
  | intro a _ ih =>
      have hback : ∀ {b c : V}, r a b → Relation.ReflTransGen r b c →
          ¬ Relation.TransGen r c c := fun hab hbc => ih _ hab _ hbc
      intro b hb hcycle
      rcases Relation.ReflTransGen.cases_head hb with rfl | ⟨c, hac, hcb⟩
      · obtain ⟨c, hac, hca⟩ := Relation.TransGen.head'_iff.mp hcycle
        exact hback hac hca hcycle
      · exact hback hac hcb hcycle

end Cycles

section Walks
variable (succ : V → List V) (ok : V → Prop)

/-- The walk below a node comes back: its successors are in order, and so is what is below
them. -/
inductive Passes : V → Prop
  | intro {a : V} (hok : ∀ b ∈ succ a, ok b) (hpass : ∀ b ∈ succ a, Passes b) : Passes a

/-- A walk along a list comes to `b`, behind the nodes of `before`. -/
structure Comes (bs before : List V) (b : V) : Prop where
  split : ∃ after, bs = before ++ b :: after
  passed : ∀ c ∈ before, ok c ∧ Passes succ ok c
  in_order : ok b

/-- The walk below `a` comes to its successor `b`. -/
def Descends (a b : V) : Prop := ∃ before, Comes succ ok (succ a) before b

variable {succ ok} {a b : V}

theorem Descends.edge (h : Descends succ ok a b) : Edge succ a b := by
  obtain ⟨before, ⟨after, hsplit⟩, -, -⟩ := h
  rw [Edge, hsplit]
  simp

/-- Without cycles nothing is descended into but what ends. -/
theorem Acyclic.ends (h : Acyclic succ) (a : V) : Ends (Descends succ ok) a := by
  have hle : Descends succ ok ≤ Edge succ := fun _ _ hd => hd.edge
  exact fun b _ hcycle => h b (Relation.TransGen.mono hle b b hcycle)

end Walks

end Lib.Graph
