import Mathlib.Data.List.Nodup
import Dependence.Proofs.Walks

/-! The order in which a depth-first search leaves the nodes. While the search runs, the nodes being
searched form a walk from the root, and a node that is left has a predecessor that is still being
searched or was left after it. -/

namespace Dependence.Adjacency

variable {g : Adjacency} {root u v : Nat} {frames : List Frame} {nodes seen left : List Nat}

/-- Nodes being searched, innermost first: each was reached from the next one, and the search began
at the root. -/
inductive Descent (g : Adjacency) (root : Nat) : List Nat → Prop
  | done : Descent g root []
  | start : Descent g root [root]
  | push {u v : Nat} {nodes : List Nat} (h : g.Edge u v) (hu : Descent g root (u :: nodes)) :
      Descent g root (v :: u :: nodes)

theorem Descent.tail (h : g.Descent root (v :: nodes)) : g.Descent root nodes := by
  cases h with
  | start => exact .done
  | push _ hu => exact hu

theorem Descent.exists_edge (h : g.Descent root (v :: nodes)) (hv : v ≠ root) :
    ∃ u ∈ nodes, g.Edge u v := by
  cases h with
  | start => exact absurd rfl hv
  | push he _ => exact ⟨_, List.mem_cons_self, he⟩

theorem search_keeps {Inv : List Frame → List Nat → List Nat → Prop}
    (pop : ∀ {u frames seen left}, Inv ((u, []) :: frames) seen left → Inv frames seen (u :: left))
    (push : ∀ {u v vs frames seen left}, v < g.length → v ∉ seen →
      Inv ((u, v :: vs) :: frames) seen left →
      Inv ((v, g[v]?.getD []) :: (u, vs) :: frames) (v :: seen) left)
    (skip : ∀ {u v vs frames seen left}, ¬(v < g.length ∧ v ∉ seen) →
      Inv ((u, v :: vs) :: frames) seen left → Inv ((u, vs) :: frames) seen left)
    (h : Inv frames seen left) :
    ∃ seen' left', Inv [] seen' left' ∧ g.search frames seen left = left'.reverse := by
  fun_induction search g frames seen left with
  | case1 seen left => exact ⟨seen, left, h, rfl⟩
  | case2 seen left u frames ih => exact ih (pop h)
  | case3 seen left u v vs frames hv ih => exact ih (push hv.1 hv.2 h)
  | case4 seen left u v vs frames hv ih => exact ih (skip hv h)

structure Searching (g : Adjacency) (root : Nat) (frames : List Frame) (seen left : List Nat) :
    Prop where
  descent : g.Descent root (frames.map Prod.fst)
  nodup : (frames.map Prod.fst ++ left).Nodup
  mem_seen : ∀ v, v ∈ seen ↔ v ∈ frames.map Prod.fst ∨ v ∈ left
  root_seen : root ∈ seen
  reachable : ∀ v ∈ seen, g.Reachable root v
  untried : ∀ frame ∈ frames, frame.2 ⊆ g[frame.1]?.getD []
  tried : ∀ frame ∈ frames, ∀ v, g.Edge frame.1 v → v ∈ frame.2 ∨ v ∈ seen
  closed : ∀ u ∈ left, ∀ v, g.Edge u v → v ∈ seen
  later : ∀ v ∈ left, v ≠ root → ∃ u, g.Edge u v ∧ (u ∈ frames.map Prod.fst ∨ [u, v].Sublist left)

namespace Searching

theorem start (g : Adjacency) (root : Nat) :
    g.Searching root [(root, g[root]?.getD [])] [root] [] where
  descent := .start
  nodup := by simp
  mem_seen := by simp
  root_seen := by simp
  reachable v hv := by
    rw [List.mem_singleton.mp hv]
    exact .refl root
  untried := by simp
  tried frame hframe v he := by
    rw [List.mem_singleton.mp hframe] at he ⊢
    exact .inl (edge_iff.mp he).1
  closed := by simp
  later := by simp

theorem pop (h : g.Searching root ((u, []) :: frames) seen left) :
    g.Searching root frames seen (u :: left) where
  descent := h.descent.tail
  nodup := by
    have hperm : (frames.map Prod.fst ++ u :: left).Perm (u :: frames.map Prod.fst ++ left) :=
      List.perm_middle
    exact hperm.nodup_iff.mpr h.nodup
  mem_seen v := by
    rw [h.mem_seen v]
    simp only [List.map_cons, List.mem_cons]
    tauto
  root_seen := h.root_seen
  reachable := h.reachable
  untried frame hframe := h.untried frame (List.mem_cons_of_mem _ hframe)
  tried frame hframe := h.tried frame (List.mem_cons_of_mem _ hframe)
  closed x hx v he := by
    rcases List.mem_cons.mp hx with rfl | hx
    · exact (h.tried _ List.mem_cons_self v he).resolve_left (by simp)
    · exact h.closed x hx v he
  later v hv hroot := by
    rcases List.mem_cons.mp hv with rfl | hleft
    · obtain ⟨x, hx, he⟩ := h.descent.exists_edge hroot
      exact ⟨x, he, .inl hx⟩
    · obtain ⟨x, he, hx⟩ := h.later v hleft hroot
      refine ⟨x, he, ?_⟩
      rcases hx with hx | hx
      · rcases List.mem_cons.mp hx with rfl | hx
        · exact .inr ((List.singleton_sublist.mpr hleft).cons_cons _)
        · exact .inl hx
      · exact .inr (hx.cons _)

theorem push {vs : List Nat} (h : g.Searching root ((u, v :: vs) :: frames) seen left)
    (hv : v < g.length) (hnew : v ∉ seen) :
    g.Searching root ((v, g[v]?.getD []) :: (u, vs) :: frames) (v :: seen) left := by
  have he : g.Edge u v := edge_iff.mpr ⟨h.untried _ List.mem_cons_self List.mem_cons_self, hv⟩
  have hu : u ∈ seen := (h.mem_seen u).mpr (.inl List.mem_cons_self)
  refine ⟨.push he h.descent, ?_, fun x => ?_, ?_, fun x hx => ?_, fun frame hframe => ?_,
    fun frame hframe x hedge => ?_, fun x hx y hedge => ?_, fun x hx hroot => ?_⟩
  · exact List.nodup_cons.mpr ⟨fun hmem => hnew ((h.mem_seen v).mpr (List.mem_append.mp hmem)),
      h.nodup⟩
  · have := h.mem_seen x
    simp only [List.map_cons, List.mem_cons] at this ⊢
    tauto
  · exact List.mem_cons_of_mem _ h.root_seen
  · rcases List.mem_cons.mp hx with rfl | hx
    · exact (h.reachable u hu).snoc he
    · exact h.reachable x hx
  · simp only [List.mem_cons] at hframe
    rcases hframe with rfl | rfl | hframe
    · exact List.Subset.refl _
    · exact fun x hx => h.untried _ List.mem_cons_self (List.mem_cons_of_mem _ hx)
    · exact h.untried frame (List.mem_cons_of_mem _ hframe)
  · simp only [List.mem_cons] at hframe
    rcases hframe with rfl | rfl | hframe
    · exact .inl (edge_iff.mp hedge).1
    · have := h.tried _ List.mem_cons_self x hedge
      simp only [List.mem_cons] at this ⊢
      tauto
    · exact (h.tried frame (List.mem_cons_of_mem _ hframe) x hedge).imp_right
        (List.mem_cons_of_mem _)
  · exact List.mem_cons_of_mem _ (h.closed x hx y hedge)
  · obtain ⟨y, hedge, hy⟩ := h.later x hx hroot
    exact ⟨y, hedge, hy.imp_left (List.mem_cons_of_mem _)⟩

theorem skip {vs : List Nat} (h : g.Searching root ((u, v :: vs) :: frames) seen left)
    (hv : ¬(v < g.length ∧ v ∉ seen)) : g.Searching root ((u, vs) :: frames) seen left := by
  refine { h with untried := fun frame hframe => ?_, tried := fun frame hframe x he => ?_ }
  · rcases List.mem_cons.mp hframe with rfl | hframe
    · exact fun x hx => h.untried _ List.mem_cons_self (List.mem_cons_of_mem _ hx)
    · exact h.untried frame (List.mem_cons_of_mem _ hframe)
  · rcases List.mem_cons.mp hframe with rfl | hframe
    · rcases h.tried _ List.mem_cons_self x he with hx | hx
      · rcases List.mem_cons.mp hx with rfl | hx
        · exact .inr (Classical.byContradiction fun hnew => hv ⟨he.right_lt, hnew⟩)
        · exact .inl hx
      · exact .inr hx
    · exact h.tried frame (List.mem_cons_of_mem _ hframe) x he

theorem exists_finished (h : g.Searching root frames seen left) :
    ∃ seen' left', g.Searching root [] seen' left' ∧ g.search frames seen left = left'.reverse :=
  search_keeps (fun h => h.pop) (fun hv hnew h => h.push hv hnew) (fun hv h => h.skip hv) h

end Searching

theorem nodup_postorder (g : Adjacency) (root : Nat) : (g.postorder root).Nodup := by
  obtain ⟨seen, left, h, heq⟩ := (Searching.start g root).exists_finished
  rw [postorder, heq, List.nodup_reverse]
  exact h.nodup

theorem mem_postorder : v ∈ g.postorder root ↔ g.Reachable root v := by
  obtain ⟨seen, left, h, heq⟩ := (Searching.start g root).exists_finished
  have hmem : ∀ x, x ∈ seen ↔ x ∈ left := fun x => by simpa using h.mem_seen x
  rw [postorder, heq, List.mem_reverse, ← hmem]
  refine ⟨h.reachable v, fun ⟨p, hp⟩ => ?_⟩
  -- what has been seen is closed under edges
  have hclosed : ∀ {x y q}, g.Walk x y q → x ∈ seen → y ∈ seen := by
    intro x y q hq
    induction hq with
    | single x => exact id
    | step he _ ih => exact fun hx => ih (h.closed _ ((hmem _).mp hx) _ he)
  exact hclosed hp h.root_seen

theorem exists_later_predecessor (hv : v ∈ g.postorder root) (hroot : v ≠ root) :
    ∃ u, g.Edge u v ∧ [v, u].Sublist (g.postorder root) := by
  obtain ⟨seen, left, h, heq⟩ := (Searching.start g root).exists_finished
  rw [postorder, heq] at hv ⊢
  obtain ⟨u, he, hu⟩ := h.later v (List.mem_reverse.mp hv) hroot
  exact ⟨u, he, (hu.resolve_left (by simp)).reverse⟩

end Dependence.Adjacency
