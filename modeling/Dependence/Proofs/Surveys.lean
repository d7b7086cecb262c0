import Mathlib.Data.List.Nodup
import Mathlib.Data.List.Pairwise
import Mathlib.Data.List.Perm.Subperm
import Mathlib.Data.Nat.Basic
import Mathlib.Order.Nat
import Dependence.Proofs.SearchOrder

/-! What the passes over a graph rely on: a survey numbers the reachable nodes in the order in which
the search left them, so each node but the root has a predecessor with a greater number. -/

namespace Dependence

theorem getD_foldl_setIfInBounds {l : List Nat} (hl : l.Nodup) {a : Array Nat}
    (ha : ∀ v ∈ l, v < a.size) (k d v : Nat) :
    ((l.zipIdx k).foldl (fun a (v, i) => a.setIfInBounds v i) a).getD v d =
      if v ∈ l then k + l.idxOf v else a.getD v d := by
  induction l generalizing a k with
  | nil => simp
  | cons x l ih =>
    obtain ⟨hx, hl⟩ := List.nodup_cons.mp hl
    have hlt : x < a.size := ha x List.mem_cons_self
    have hset : ∀ w ∈ l, w < (a.setIfInBounds x k).size := fun w hw => by
      simpa using ha w (List.mem_cons_of_mem _ hw)
    rw [List.zipIdx_cons, List.foldl_cons, ih hl hset]
    by_cases hvx : v = x
    · subst hvx
      simp [hx, hlt, Array.getD_eq_getD_getElem?]
    · by_cases hv : v ∈ l
      · simp [hv, hvx, List.idxOf_cons_ne _ (Ne.symm hvx)]
        omega
      · simp [hv, hvx, Array.getD_eq_getD_getElem?, Array.getElem?_setIfInBounds_ne (Ne.symm hvx)]

namespace Survey

variable {s : Survey} {g : Adjacency} {root u v : Nat}

structure Faithful (s : Survey) (g : Adjacency) : Prop where
  size_eq : s.size = g.length
  root_lt : s.root < g.length
  mem_predecessors : ∀ u v, u ∈ s.predecessors.getD v [] ↔ g.Edge u v
  mem_order : ∀ v, v ∈ s.order ↔ v ≠ s.root ∧ g.Reachable s.root v
  sorted : s.order.Pairwise fun u v => s.number v < s.number u
  number_le : ∀ v, g.Reachable s.root v → s.number v ≤ s.size
  exists_greater : ∀ v ∈ s.order, ∃ u, g.Edge u v ∧ g.Reachable s.root u ∧ s.number v < s.number u

theorem number_of (hroot : root < g.length) (hv : v ∈ g.postorder root) :
    (of g root).number v = (g.postorder root).idxOf v := by
  have hlt : ∀ w ∈ g.postorder root, w < (Array.replicate g.length g.length).size := by
    intro w hw
    rw [Array.size_replicate]
    exact (Adjacency.mem_postorder.mp hw).lt hroot
  have hget := getD_foldl_setIfInBounds (g.nodup_postorder root) hlt 0 g.length v
  rw [if_pos hv, Nat.zero_add] at hget
  exact hget

theorem length_postorder_le (hroot : root < g.length) : (g.postorder root).length ≤ g.length := by
  have hsub : g.postorder root ⊆ List.range g.length := fun v hv =>
    List.mem_range.mpr ((Adjacency.mem_postorder.mp hv).lt hroot)
  simpa using (List.subperm_of_subset (g.nodup_postorder root) hsub).length_le

theorem pairwise_number (hroot : root < g.length) :
    (g.postorder root).Pairwise fun u v => (of g root).number u < (of g root).number v := by
  rw [List.pairwise_iff_getElem]
  intro i j hi hj hij
  have hnodup := g.nodup_postorder root
  rw [number_of hroot (List.getElem_mem hi), number_of hroot (List.getElem_mem hj),
    List.Nodup.idxOf_getElem hnodup, List.Nodup.idxOf_getElem hnodup]
  exact hij

theorem faithful_of (hroot : root < g.length) : (of g root).Faithful g where
  size_eq := rfl
  root_lt := hroot
  mem_predecessors u v := by
    rw [← Adjacency.mem_predecessors]
    by_cases hv : v < g.length
    · simp [of, Array.getD_eq_getD_getElem?, hv]
    · simp [of, Array.getD_eq_getD_getElem?, hv, Adjacency.predecessors]
  mem_order v := by
    simp [of, Adjacency.mem_postorder, and_comm]
  sorted := by
    have hrev : (g.postorder root).reverse.Pairwise
        fun u v => (of g root).number v < (of g root).number u := by
      rw [List.pairwise_reverse]
      exact pairwise_number hroot
    exact hrev.filter _
  number_le v hv := by
    rw [number_of hroot (Adjacency.mem_postorder.mpr hv)]
    exact Nat.le_trans List.idxOf_le_length (length_postorder_le hroot)
  exists_greater v hv := by
    simp only [of, List.mem_filter, List.mem_reverse, decide_eq_true_eq] at hv
    obtain ⟨u, he, hsub⟩ := Adjacency.exists_later_predecessor hv.1 hv.2
    have hu : g.Reachable root u := Adjacency.mem_postorder.mp (hsub.subset (by simp))
    have hlt := (pairwise_number hroot).sublist hsub
    exact ⟨u, he, hu, by simpa using hlt⟩

namespace Faithful

variable (hs : s.Faithful g)
include hs

theorem induction {motive : Nat → Prop} (base : motive s.root)
    (step : ∀ u v, g.Edge u v → s.number v < s.number u → motive u → motive v)
    (hv : g.Reachable s.root v) : motive v := by
  -- numbers grow towards the root and are bounded
  induction hn : s.size - s.number v using Nat.strong_induction_on generalizing v with
  | _ n ih =>
    by_cases hroot : v = s.root
    · exact hroot ▸ base
    · obtain ⟨u, he, hu, hlt⟩ := hs.exists_greater v ((hs.mem_order v).mpr ⟨hroot, hv⟩)
      have hle := hs.number_le u hu
      exact step u v he hlt (ih (s.size - s.number u) (by omega) hu rfl)

theorem number_le_root (hv : g.Reachable s.root v) : s.number v ≤ s.number s.root :=
  hs.induction (motive := fun v => s.number v ≤ s.number s.root) le_rfl
    (fun _ _ _ hlt hle => (hlt.trans_le hle).le) hv

theorem number_lt_root (hv : v ∈ s.order) : s.number v < s.number s.root := by
  obtain ⟨u, -, hu, hlt⟩ := hs.exists_greater v hv
  exact hlt.trans_le (hs.number_le_root hu)

theorem number_injective (hu : g.Reachable s.root u) (hv : g.Reachable s.root v)
    (h : s.number u = s.number v) : u = v := by
  by_contra hne
  by_cases hroot : u = s.root
  · subst hroot
    exact (hs.number_lt_root ((hs.mem_order v).mpr ⟨Ne.symm hne, hv⟩)).ne' h
  by_cases hroot' : v = s.root
  · subst hroot'
    exact (hs.number_lt_root ((hs.mem_order u).mpr ⟨hne, hu⟩)).ne h
  have hdistinct : s.order.Pairwise fun u v => s.number u ≠ s.number v :=
    hs.sorted.imp fun hlt => hlt.ne'
  have : Std.Symm fun u v => s.number u ≠ s.number v := ⟨fun _ _ => Ne.symm⟩
  exact hdistinct.forall ((hs.mem_order u).mpr ⟨hroot, hu⟩) ((hs.mem_order v).mpr ⟨hroot', hv⟩)
    hne h

end Faithful

end Survey

end Dependence
