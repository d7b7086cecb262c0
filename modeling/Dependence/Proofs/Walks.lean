import Mathlib.Data.List.Basic
import Dependence.Digraph.Dominators

/-! Walks in a directed graph and the nodes that no walk can avoid. -/

namespace Dependence.Adjacency

variable {g : Adjacency} {u v w x : Nat} {p q : List Nat}

def Edge (g : Adjacency) (u v : Nat) : Prop := v ∈ g.successors u

theorem edge_iff : g.Edge u v ↔ v ∈ g[u]?.getD [] ∧ v < g.length := by
  simp [Edge, successors]

theorem Edge.right_lt (h : g.Edge u v) : v < g.length := (edge_iff.mp h).2

theorem Edge.left_lt (h : g.Edge u v) : u < g.length := by
  by_contra hu
  rw [edge_iff, List.getElem?_eq_none (Nat.le_of_not_lt hu)] at h
  simp at h

theorem mem_predecessors : u ∈ g.predecessors v ↔ g.Edge u v := by
  rw [edge_iff]
  unfold predecessors
  split
  · next hv =>
    simp only [List.mem_flatMap, List.mem_replicate, ne_eq, List.count_eq_zero, not_not,
      Prod.exists, List.mem_zipIdx_iff_getElem?, hv, and_true]
    cases hu : g[u]? <;> simp [hu]
  · next hv => simp [hv]

inductive Walk (g : Adjacency) : Nat → Nat → List Nat → Prop
  | single (u : Nat) : Walk g u u [u]
  | step {u v w : Nat} {p : List Nat} (h : g.Edge u v) (hp : Walk g v w p) : Walk g u w (u :: p)

theorem Walk.start_mem (h : g.Walk u v p) : u ∈ p := by
  cases h <;> simp

theorem Walk.end_mem (h : g.Walk u v p) : v ∈ p := by
  induction h with
  | single u => simp
  | step _ _ ih => exact List.mem_cons_of_mem _ ih

theorem Walk.snoc (h : g.Walk u v p) (he : g.Edge v w) : g.Walk u w (p ++ [w]) := by
  induction h with
  | single u => exact .step he (.single w)
  | step hfirst _ ih => exact .step hfirst (ih he)

theorem Walk.lt_of_mem (h : g.Walk u v p) (hu : u < g.length) (hx : x ∈ p) : x < g.length := by
  induction h with
  | single u => exact List.mem_singleton.mp hx ▸ hu
  | step he _ ih =>
    rcases List.mem_cons.mp hx with rfl | hx
    · exact hu
    · exact ih he.right_lt hx

theorem Walk.trans (h : g.Walk u v p) (h' : g.Walk v w q) :
    ∃ r, g.Walk u w r ∧ ∀ x, x ∈ r ↔ x ∈ p ∨ x ∈ q := by
  induction h with
  | single u =>
    refine ⟨q, h', fun x => ⟨.inr, fun hx => hx.elim (fun hx => ?_) id⟩⟩
    exact List.mem_singleton.mp hx ▸ h'.start_mem
  | step hfirst _ ih =>
    obtain ⟨r, hr, hmem⟩ := ih h'
    exact ⟨_, .step hfirst hr, fun x => by simp [hmem, or_assoc]⟩

theorem Walk.suffix (h : g.Walk u v p) (hx : x ∈ p) : ∃ q, g.Walk x v q ∧ q <:+ p := by
  induction h with
  | single u =>
    obtain rfl := List.mem_singleton.mp hx
    exact ⟨_, .single x, List.suffix_rfl⟩
  | step hfirst hp ih =>
    rcases List.mem_cons.mp hx with rfl | hx
    · exact ⟨_, .step hfirst hp, List.suffix_rfl⟩
    · obtain ⟨q, hq, hsuffix⟩ := ih hx
      exact ⟨q, hq, hsuffix.trans (List.suffix_cons _ _)⟩

theorem Walk.head_eq {y : Nat} (h : g.Walk u v (y :: p)) : y = u := by
  cases h <;> rfl

theorem Walk.length_lt_of_suffix (hp : g.Walk u v p) (hq : g.Walk x w q) (hne : x ≠ u)
    (h : q <:+ p) : q.length < p.length := by
  refine Nat.lt_of_le_of_ne h.length_le fun hlen => hne ?_
  obtain rfl := h.eq_of_length hlen
  cases hp <;> exact hq.head_eq.symm

def Reachable (g : Adjacency) (u v : Nat) : Prop := ∃ p, g.Walk u v p

theorem Reachable.refl (u : Nat) : g.Reachable u u := ⟨_, .single u⟩

theorem Reachable.snoc (h : g.Reachable u v) (he : g.Edge v w) : g.Reachable u w :=
  h.imp' _ fun _ hp => hp.snoc he

theorem Reachable.lt (h : g.Reachable u v) (hu : u < g.length) : v < g.length := by
  obtain ⟨p, hp⟩ := h
  exact hp.lt_of_mem hu hp.end_mem

def Dominates (g : Adjacency) (root d v : Nat) : Prop := ∀ p, g.Walk root v p → d ∈ p

theorem Dominates.refl (g : Adjacency) (root v : Nat) : g.Dominates root v v :=
  fun _ hp => hp.end_mem

theorem Dominates.eq_root {root d : Nat} (h : g.Dominates root d root) : d = root :=
  List.mem_singleton.mp (h _ (.single root))

theorem Dominates.of_edge {root d : Nat} (h : g.Dominates root d v) (hne : d ≠ v)
    (he : g.Edge u v) : g.Dominates root d u := by
  intro p hp
  have hmem := h _ (hp.snoc he)
  simpa [hne] using hmem

end Dependence.Adjacency
