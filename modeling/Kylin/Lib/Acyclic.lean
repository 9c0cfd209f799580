import Mathlib.Algebra.Ring.Nat
import Mathlib.Data.Finset.Card
import Mathlib.Data.List.Basic
import Mathlib.Logic.Relation
import Mathlib.Tactic.Common

/-!
# Acyclic graphs and walks along all their paths

A graph is given by the list of successors of each node.  Without a cycle, and with
finitely many nodes that have successors, nodes have ranks that fall along every edge,
so a recursive walk that follows every path ends after as many levels as there are
nodes.

## Main definitions

* `Edge`, `Acyclic` — the successor relation and the absence of cycles.
* `paths` — the ends of the paths from a node, in the order a recursive walk reaches
  them, each as often as there are paths to it.

## Main results

* `exists_rank_of_source`, `Acyclic.exists_rank` — ranks.
* `count_paths` — how often a walk comes to a node.
-/

namespace Lib.Graph

variable {V : Type}

/-- `b` is a successor of `a`. -/
def Edge (succ : V → List V) (a b : V) : Prop := b ∈ succ a

/-- No node can be reached from itself. -/
def Acyclic (succ : V → List V) : Prop := ∀ a, ¬ Relation.TransGen (Edge succ) a a

/-- The ends of the paths of at most `n` edges from `a`. -/
def paths (succ : V → List V) : ℕ → V → List V
  | 0, _ => []
  | n + 1, a => (succ a).flatMap fun b => b :: paths succ n b

variable {succ : V → List V} {a b : V}

/-- **Ranks.**  Where only the nodes of a list have edges to others, nodes can be ranked such
that ranks fall along the edges of every node that is not on a cycle. -/
theorem exists_rank_of_source {r : V → V → Prop} {nodes : List V}
    (hnodes : ∀ a b, r a b → a ∈ nodes) :
    ∃ rank : V → ℕ, (∀ a, rank a ≤ nodes.length) ∧ (∀ a ∈ nodes, 0 < rank a) ∧
      ∀ a b, r a b → ¬ Relation.TransGen r a a → rank b < rank a := by
  classical
  refine ⟨fun a => (nodes.toFinset.filter fun x => Relation.ReflTransGen r a x).card, ?_, ?_, ?_⟩
  · intro a
    exact (Finset.card_filter_le _ _).trans (List.toFinset_card_le nodes)
  · intro a ha
    rw [Finset.card_pos]
    exact ⟨a, by simpa using ⟨ha, Relation.ReflTransGen.refl⟩⟩
  · intro a b hab hcycle
    apply Finset.card_lt_card
    rw [Finset.ssubset_iff_of_subset]
    · -- `a` reaches itself, and `b` does not reach it
      refine ⟨a, ?_, ?_⟩
      · simpa using ⟨hnodes a b hab, Relation.ReflTransGen.refl⟩
      · intro hba
        exact hcycle (.head' hab (Finset.mem_filter.mp hba).2)
    · intro x hx
      obtain ⟨hmem, hreach⟩ := Finset.mem_filter.mp hx
      exact Finset.mem_filter.mpr ⟨hmem, hreach.head hab⟩

/-- Ranks of a graph without cycles. -/
theorem Acyclic.exists_rank (h : Acyclic succ) {nodes : List V}
    (hnodes : ∀ a, succ a ≠ [] → a ∈ nodes) :
    ∃ rank : V → ℕ, (∀ a, rank a ≤ nodes.length) ∧ ∀ a, ∀ b ∈ succ a, rank b < rank a := by
  have hsource : ∀ a b, Edge succ a b → a ∈ nodes :=
    fun a b hab => hnodes a (List.ne_nil_of_mem hab)
  obtain ⟨rank, hbound, -, hrank⟩ := exists_rank_of_source hsource
  exact ⟨rank, hbound, fun a b hab => hrank a b hab (h a)⟩

/-- Ranks rule out cycles. -/
theorem acyclic_of_rank {rank : V → ℕ} (hrank : ∀ a, ∀ b ∈ succ a, rank b < rank a) :
    Acyclic succ := by
  have hlt : ∀ {a b : V}, Relation.TransGen (Edge succ) a b → rank b < rank a := by
    intro a b h
    induction h with
    | single hb => exact hrank _ _ hb
    | tail _ hb ih => exact (hrank _ _ hb).trans ih
  intro a h
  exact lt_irrefl _ (hlt h)

theorem transGen_of_mem_paths {x : V} : ∀ {n : ℕ} {a : V}, x ∈ paths succ n a →
    Relation.TransGen (Edge succ) a x := by
  intro n
  induction n with
  | zero =>
      intro a h
      cases h
  | succ n ih =>
      intro a h
      obtain ⟨b, hb, hx⟩ := List.mem_flatMap.mp h
      rcases List.mem_cons.mp hx with rfl | hx
      · exact .single hb
      · exact .head hb (ih hx)

/-- A node is reached once for each edge to it from a node that is reached, or from the
start. -/
theorem count_paths [BEq V] {rank : V → ℕ} (hrank : ∀ a, ∀ b ∈ succ a, rank b < rank a)
    (x : V) : ∀ {n : ℕ} {a : V}, rank a ≤ n → (paths succ n a).count x =
      ((a :: paths succ n a).map fun b => (succ b).count x).sum := by
  intro n
  induction n with
  | zero =>
      intro a hn
      have hnil : succ a = [] := by
        rw [List.eq_nil_iff_forall_not_mem]
        intro b hb
        have := hrank a b hb
        omega
      simp [paths, hnil]
  | succ n ih =>
      intro a hn
      have key : ∀ l : List V, (∀ b ∈ l, rank b ≤ n) →
          (l.flatMap fun b => b :: paths succ n b).count x =
            l.count x +
              ((l.flatMap fun b => b :: paths succ n b).map fun b => (succ b).count x).sum := by
        intro l
        induction l with
        | nil => simp
        | cons b l ihl =>
            intro hl
            have hb := ih (hl b List.mem_cons_self)
            have hrest := ihl fun c hc => hl c (List.mem_cons_of_mem b hc)
            rw [List.flatMap_cons, List.count_append, hrest, List.map_append, List.sum_append,
              List.count_cons, List.count_cons, hb]
            omega
      rw [List.map_cons, List.sum_cons]
      refine key (succ a) ?_
      intro b hb
      have := hrank a b hb
      omega

end Lib.Graph
