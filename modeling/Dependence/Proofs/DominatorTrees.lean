import Dependence.Proofs.DominatorPasses

/-! Dominator trees are right: the nodes above a node are those on every walk to it from the root. -/

namespace Dependence

open ParentTable

variable {s : Survey} {g : Adjacency} {root d u v : Nat} {q : List Nat}

namespace Survey

variable (hs : s.Faithful g)
include hs

theorem isSome_table : (s.table.parent? v).isSome ↔ g.Reachable s.root v := by
  obtain ⟨h, -⟩ := table_settled hs
  refine ⟨h.reachable v, fun hv => ?_⟩
  by_cases hroot : v = s.root
  · rw [hroot, h.rooted.parent_root]
    rfl
  · exact h.present v ((hs.mem_order v).mpr ⟨hroot, hv⟩)

theorem ancestor_of_edge_table {p : Nat} (hp : s.table.parent? v = some p) (hroot : v ≠ s.root)
    (hu : g.Reachable s.root u) (he : g.Edge u v) : s.table.Ancestor p u := by
  obtain ⟨h, hstill⟩ := table_settled hs
  have hsome : (s.table.parent? u).isSome := (isSome_table hs).mpr hu
  have hmem : u ∈ s.predecessors.getD v [] := (hs.mem_predecessors u v).mpr he
  have himprove := hstill v ((hs.mem_order v).mpr ⟨hroot, hu.snoc he⟩)
  obtain ⟨c, hcommon, hc⟩ := exists_common?_of_mem h.rooted h.size_eq hmem hsome
  -- the table does not change any more, so the parent is what the step finds
  rw [improve, hcommon] at himprove
  have hset : s.table.setIfInBounds v (some c) = s.table := Option.some.inj himprove
  have hlt : v < s.table.size := lt_size_of_isSome (Option.isSome_iff_exists.mpr ⟨p, hp⟩)
  have hget := parent?_setIfInBounds (c := c) hlt v
  rw [hset, if_pos rfl, hp] at hget
  exact Option.some.inj hget ▸ hc.common u hmem hsome

theorem mem_walk_or_ancestor (hu : g.Reachable s.root u) (hq : g.Walk u v q)
    (hd : s.table.Ancestor d v) : d ∈ q ∨ s.table.Ancestor d u := by
  induction hq with
  | single u => exact .inr hd
  | @step u v w q he hq ih =>
    rcases ih (hu.snoc he) hd with hmem | hdv
    · exact .inl (List.mem_cons_of_mem _ hmem)
    · by_cases hne : d = v
      · exact .inl (List.mem_cons_of_mem _ (hne ▸ hq.start_mem))
      · obtain ⟨p, hp, hdp⟩ := hdv.exists_parent hne
        have hroot : v ≠ s.root := by
          rintro rfl
          exact hne ((table_settled hs).1.rooted.eq_root hdv)
        exact .inr (hdp.trans (ancestor_of_edge_table hs hp hroot hu he))

theorem ancestor_iff_dominates (hv : g.Reachable s.root v) :
    s.table.Ancestor d v ↔ g.Dominates s.root d v := by
  obtain ⟨h, -⟩ := table_settled hs
  refine ⟨fun hd q hq => ?_, h.ancestor_of_dominates ((isSome_table hs).mpr hv)⟩
  rcases mem_walk_or_ancestor hs (.refl _) hq hd with hmem | hroot
  · exact hmem
  · exact h.rooted.eq_root hroot ▸ hq.start_mem

end Survey

namespace Adjacency

structure ImmediatelyDominates (g : Adjacency) (root d v : Nat) : Prop where
  ne : d ≠ v
  dominates : g.Dominates root d v
  nearest : ∀ e, e ≠ v → g.Dominates root e v → g.Dominates root e d

theorem dominators_of_lt (hroot : root < g.length) :
    g.dominators root = ⟨root, (Survey.of g root).table⟩ := if_pos hroot

theorem exists_immediateDominator (hroot : root < g.length) (hv : g.Reachable root v)
    (hne : v ≠ root) : ∃ d, (g.dominators root).immediateDominator? v = some d := by
  have hsome := (Survey.isSome_table (Survey.faithful_of hroot)).mpr hv
  simpa [dominators, hroot, DominatorTree.immediateDominator?, hne] using
    Option.isSome_iff_exists.mp hsome

theorem immediatelyDominates_of_dominators (hroot : root < g.length)
    (hd : (g.dominators root).immediateDominator? v = some d) :
    g.Reachable root v ∧ g.ImmediatelyDominates root d v := by
  have hs := Survey.faithful_of hroot
  obtain ⟨h, -⟩ := Survey.table_settled hs
  simp only [dominators, if_pos hroot, DominatorTree.immediateDominator?, Option.ite_none_left_eq_some]
    at hd
  obtain ⟨hne, hp⟩ := hd
  have hv : g.Reachable root v := h.reachable v (Option.isSome_iff_exists.mpr ⟨d, hp⟩)
  have hlt := (h.rooted.up v d hne hp).2
  refine ⟨hv, fun heq => (heq ▸ hlt).ne rfl, ?_, fun e he => h.dominated v d hp e he⟩
  exact (Survey.ancestor_iff_dominates hs hv).mp (.up hp .refl)

theorem immediateDominator?_of_not_reachable (hroot : root < g.length) (hv : ¬g.Reachable root v) :
    (g.dominators root).immediateDominator? v = none := by
  apply Option.eq_none_iff_forall_ne_some.mpr
  intro d hd
  exact hv (immediatelyDominates_of_dominators hroot hd).1

theorem isReachable_dominators (hroot : root < g.length) :
    (g.dominators root).isReachable v = true ↔ g.Reachable root v := by
  rw [dominators_of_lt hroot]
  exact Survey.isSome_table (Survey.faithful_of hroot)

/-- Just the nodes that the root leads to are in the dominator tree, and the parent there of each of
them but the root is the last node before it that no walk from the root avoids. -/
theorem dominators_find_nearest (hroot : root < g.length) (v : Nat) :
    ((g.dominators root).isReachable v = true ↔ g.Reachable root v) ∧
      (g.Reachable root v → v ≠ root →
        ∃ d, (g.dominators root).immediateDominator? v = some d ∧
          g.ImmediatelyDominates root d v) ∧
      (v = root ∨ ¬g.Reachable root v ∨ g.length ≤ v →
        (g.dominators root).immediateDominator? v = none) := by
  refine ⟨isReachable_dominators hroot, fun hv hne => ?_, fun hv => ?_⟩
  · obtain ⟨d, hd⟩ := exists_immediateDominator hroot hv hne
    exact ⟨d, hd, (immediatelyDominates_of_dominators hroot hd).2⟩
  · rcases hv with rfl | hv | hv
    · rw [dominators_of_lt hroot]
      exact if_pos rfl
    · exact immediateDominator?_of_not_reachable hroot hv
    · exact immediateDominator?_of_not_reachable hroot fun h => (h.lt hroot).not_ge hv

/-- A loop that is entered at two nodes, with an edge twice, an edge from a node to itself, one that
leads nowhere and one from a node that the first does not lead to. -/
def tangle : Adjacency := [[1, 2, 9], [2, 3, 3], [1, 2], [], [3]]

theorem dominators_find_nearest_tangle :
    0 < tangle.length ∧ (tangle.dominators 0).immediateDominator? 3 = some 1 ∧
      tangle.ImmediatelyDominates 0 1 3 ∧ ¬tangle.Reachable 0 4 ∧
      (tangle.dominators 0).immediateDominator? 4 = none := by
  have hroot : 0 < tangle.length := by decide
  obtain ⟨hreachable, hnearest, -⟩ := dominators_find_nearest hroot 3
  obtain ⟨hreachable', -, hnone⟩ := dominators_find_nearest hroot 4
  have hparent : (tangle.dominators 0).immediateDominator? 3 = some 1 := by decide +kernel
  obtain ⟨d, hd, himmediate⟩ := hnearest (hreachable.mp (by decide +kernel)) (by decide)
  obtain rfl : d = 1 := Option.some.inj (hd.symm.trans hparent)
  have hfour : ¬tangle.Reachable 0 4 := fun h => absurd (hreachable'.mpr h) (by decide +kernel)
  exact ⟨hroot, hparent, himmediate, hfour, hnone (.inr (.inl hfour))⟩

end Adjacency

end Dependence
