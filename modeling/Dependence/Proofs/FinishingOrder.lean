import Dependence.Proofs.DominatorTrees
import Dependence.Proofs.Loops

/-! A depth-first search leaves the nodes in postorder: the root last, and with an edge from one node
to another either the latter first or a walk back. The same order comes out of a search that keeps a
mark for every node and the place of the successor that comes next, where a place past the end is a
fault. -/

namespace Dependence.Adjacency

variable {g : Adjacency} {root u v : Nat} {frames : List Frame} {nodes seen left vs : List Nat}

theorem Descent.reachable (h : g.Descent root (u :: nodes)) (hv : v ∈ u :: nodes) :
    g.Reachable v u := by
  generalize hpath : u :: nodes = path at h hv
  induction h generalizing u nodes with
  | done => cases hpath
  | start =>
    cases hpath
    exact List.mem_singleton.mp hv ▸ .refl _
  | push he _ ih =>
    cases hpath
    rcases List.mem_cons.mp hv with rfl | hv
    · exact .refl _
    · exact (ih rfl hv).snoc he

/-- What holds besides while a search runs: the root comes last, and an edge from a node that is left
goes to one that was left before it or to one that leads back to it. -/
structure Finishing (g : Adjacency) (root : Nat) (frames : List Frame) (seen left : List Nat) : Prop
    extends g.Searching root frames seen left where
  root_last : (left.reverse ++ frames.map Prod.fst).getLast? = some root
  back : ∀ u ∈ left, ∀ v, g.Edge u v → [u, v].Sublist left ∨ g.Reachable v u

namespace Finishing

theorem start (g : Adjacency) (root : Nat) :
    g.Finishing root [(root, g[root]?.getD [])] [root] [] where
  toSearching := .start g root
  root_last := rfl
  back := by simp

theorem pop (h : g.Finishing root ((u, []) :: frames) seen left) :
    g.Finishing root frames seen (u :: left) where
  toSearching := h.toSearching.pop
  root_last := by simpa using h.root_last
  back x hx v he := by
    rcases List.mem_cons.mp hx with rfl | hx
    · -- all its successors were tried, and those that are not left are being searched
      have hseen : v ∈ seen := (h.tried _ List.mem_cons_self v he).resolve_left (by simp)
      rcases (h.mem_seen v).mp hseen with hv | hv
      · exact .inr (h.descent.reachable hv)
      · exact .inl ((List.singleton_sublist.mpr hv).cons_cons x)
    · exact (h.back x hx v he).imp_left fun hsub => hsub.cons u

theorem push (h : g.Finishing root ((u, v :: vs) :: frames) seen left) (hv : v < g.length)
    (hnew : v ∉ seen) :
    g.Finishing root ((v, g[v]?.getD []) :: (u, vs) :: frames) (v :: seen) left where
  toSearching := h.toSearching.push hv hnew
  root_last := by
    rw [List.map_cons, List.map_cons, List.getLast?_append, List.getLast?_cons_cons,
      ← List.getLast?_append]
    exact h.root_last
  back := h.back

theorem skip (h : g.Finishing root ((u, v :: vs) :: frames) seen left)
    (hv : ¬(v < g.length ∧ v ∉ seen)) : g.Finishing root ((u, vs) :: frames) seen left where
  toSearching := h.toSearching.skip hv
  root_last := h.root_last
  back := h.back

theorem exists_finished (h : g.Finishing root frames seen left) :
    ∃ seen' left', g.Finishing root [] seen' left' ∧ g.search frames seen left = left'.reverse :=
  search_keeps (fun h => h.pop) (fun hv hnew h => h.push hv hnew) (fun hv h => h.skip hv) h

end Finishing

theorem getLast?_postorder (g : Adjacency) (root : Nat) :
    (g.postorder root).getLast? = some root := by
  obtain ⟨seen, left, h, heq⟩ := (Finishing.start g root).exists_finished
  rw [postorder, heq]
  simpa using h.root_last

theorem left_before_or_reachable (hu : u ∈ g.postorder root) (he : g.Edge u v) :
    [v, u].Sublist (g.postorder root) ∨ g.Reachable v u := by
  obtain ⟨seen, left, h, heq⟩ := (Finishing.start g root).exists_finished
  rw [postorder, heq] at hu ⊢
  exact (h.back u (List.mem_reverse.mp hu) v he).imp_left fun hsub => hsub.reverse

/-- A search as it stands: the nodes being searched, innermost first, each with the place of the
successor that it tries next, a mark for every node that says whether it was seen, and the nodes that
are left, in order. -/
structure Search where
  stack : List (Nat × Nat)
  marks : List Bool
  order : List Nat

namespace Search

variable {s : Search}

def start (g : Adjacency) (root : Nat) : Run Search := do
  let marks := List.replicate g.length false
  let _ ← look marks root
  return ⟨[(root, 0)], marks.set root true, []⟩

def advance (g : Adjacency) (s : Search) : Run (Option Search) :=
  match s.stack with
  | [] => return none
  | (u, place) :: below => do
    let successors ← look g u
    match successors[place]? with
    | none => return some { s with stack := below, order := s.order ++ [u] }
    | some v =>
      let tried := { s with stack := (u, place + 1) :: below }
      if v < g.length then
        if ← look s.marks v then
          return some tried
        else
          return some { tried with stack := (v, 0) :: tried.stack, marks := s.marks.set v true }
      else
        return some tried

/-- A search with marks and places stands where one with the nodes themselves does. -/
structure StandsAt (g : Adjacency) (s : Search) (frames : List Frame) (seen left : List Nat) : Prop where
  frames_eq : frames = s.stack.map fun x => (x.1, (g[x.1]?.getD []).drop x.2)
  stack_lt : ∀ x ∈ s.stack, x.1 < g.length
  marks_eq : ∀ v < g.length, s.marks[v]? = some (decide (v ∈ seen))
  order_eq : s.order = left.reverse

theorem StandsAt.exists_frame (h : s.StandsAt g ((u, vs) :: frames) seen left) :
    ∃ place below, s.stack = (u, place) :: below ∧ ∃ successors, g[u]? = some successors ∧
      successors.drop place = vs ∧ StandsAt g { s with stack := below } frames seen left := by
  obtain ⟨⟨u', place⟩, below, hstack, hframe, hbelow⟩ := List.map_eq_cons_iff.mp h.frames_eq.symm
  obtain ⟨rfl, hdrop⟩ := Prod.mk.inj hframe
  obtain ⟨hu, hlt⟩ := List.forall_mem_cons.mp (hstack ▸ h.stack_lt)
  have hsuccessors := List.getElem?_eq_getElem hu
  rw [hsuccessors] at hdrop
  exact ⟨place, below, hstack, _, hsuccessors, hdrop, hbelow.symm, hlt, h.marks_eq, h.order_eq⟩

section Advance

variable {place : Nat} {below : List (Nat × Nat)} {successors : List Nat}
  (hstack : s.stack = (u, place) :: below) (hu : g[u]? = some successors)
include hstack hu

theorem advance_pop (hend : successors[place]? = none) :
    s.advance g = pure (some { s with stack := below, order := s.order ++ [u] }) := by
  rw [advance, hstack]
  simp only [look_of_getElem? hu, pure_bind, hend]

theorem advance_push (hv : successors[place]? = some v) (hlt : v < g.length)
    (hmark : s.marks[v]? = some false) :
    s.advance g =
      pure (some ⟨(v, 0) :: (u, place + 1) :: below, s.marks.set v true, s.order⟩) := by
  rw [advance, hstack]
  simp only [look_of_getElem? hu, look_of_getElem? hmark, pure_bind, hv, if_pos hlt]
  rfl

theorem advance_skip (hv : successors[place]? = some v)
    (hmark : v < g.length → s.marks[v]? = some true) :
    s.advance g = pure (some { s with stack := (u, place + 1) :: below }) := by
  rw [advance, hstack]
  by_cases hlt : v < g.length
  · simp only [look_of_getElem? hu, look_of_getElem? (hmark hlt), pure_bind, hv, if_pos hlt]
    rfl
  · simp only [look_of_getElem? hu, pure_bind, hv, if_neg hlt]

end Advance

namespace StandsAt

theorem pop (h : s.StandsAt g ((u, []) :: frames) seen left) :
    ∃ t, s.advance g = pure (some t) ∧ t.StandsAt g frames seen (u :: left) := by
  obtain ⟨place, below, hstack, successors, hu, hdrop, hbelow⟩ := h.exists_frame
  have hend : successors[place]? = none :=
    List.getElem?_eq_none (List.drop_eq_nil_iff.mp hdrop)
  refine ⟨_, advance_pop hstack hu hend, { hbelow with order_eq := ?_ }⟩
  rw [h.order_eq, List.reverse_cons]

theorem next (h : s.StandsAt g ((u, v :: vs) :: frames) seen left) :
    ∃ place below successors, s.stack = (u, place) :: below ∧ g[u]? = some successors ∧
      successors[place]? = some v ∧
      StandsAt g { s with stack := (u, place + 1) :: below } ((u, vs) :: frames) seen left := by
  obtain ⟨place, below, hstack, successors, hu, hdrop, hbelow⟩ := h.exists_frame
  have hv : successors[place]? = some v := by
    rw [← List.head?_drop, hdrop]
    rfl
  have hvs : (g[u]?.getD []).drop (place + 1) = vs := by
    rw [hu, Option.getD_some, ← List.tail_drop, hdrop]
    rfl
  have hlt : u < g.length := (List.getElem?_eq_some_iff.mp hu).1
  refine ⟨place, below, successors, hstack, hu, hv, ?_, ?_, h.marks_eq, h.order_eq⟩
  · rw [List.map_cons, hvs, hbelow.frames_eq]
  · exact List.forall_mem_cons.mpr ⟨hlt, hbelow.stack_lt⟩

theorem push (h : s.StandsAt g ((u, v :: vs) :: frames) seen left) (hv : v < g.length)
    (hnew : v ∉ seen) :
    ∃ t, s.advance g = pure (some t) ∧
      t.StandsAt g ((v, g[v]?.getD []) :: (u, vs) :: frames) (v :: seen) left := by
  obtain ⟨place, below, successors, hstack, hu, hnext, htried⟩ := h.next
  have hmark : s.marks[v]? = some false := by rw [h.marks_eq v hv, decide_eq_false hnew]
  refine ⟨_, advance_push hstack hu hnext hv hmark, ?_, ?_, fun x hx => ?_, h.order_eq⟩
  · rw [htried.frames_eq]
    rfl
  · exact List.forall_mem_cons.mpr ⟨hv, htried.stack_lt⟩
  · by_cases hxv : x = v
    · subst hxv
      rw [List.getElem?_set_self (List.getElem?_eq_some_iff.mp hmark).1]
      simp
    · rw [List.getElem?_set_ne (Ne.symm hxv), h.marks_eq x hx]
      simp [hxv]

theorem skip (h : s.StandsAt g ((u, v :: vs) :: frames) seen left)
    (hv : ¬(v < g.length ∧ v ∉ seen)) :
    ∃ t, s.advance g = pure (some t) ∧ t.StandsAt g ((u, vs) :: frames) seen left := by
  obtain ⟨place, below, successors, hstack, hu, hnext, htried⟩ := h.next
  refine ⟨_, advance_skip hstack hu hnext fun hlt => ?_, htried⟩
  have hseen : v ∈ seen := Classical.not_not.mp fun hnew => hv ⟨hlt, hnew⟩
  rw [h.marks_eq v hlt, decide_eq_true hseen]

theorem exists_loop_advance (h : s.StandsAt g frames seen left) :
    ∃ r, loop (advance g) s = pure r ∧ r.order = g.search frames seen left := by
  fun_induction search g frames seen left generalizing s with
  | case1 seen left =>
    have hstack : s.stack = [] := List.map_eq_nil_iff.mp h.frames_eq.symm
    refine ⟨s, loop_of_stop ?_, h.order_eq⟩
    rw [advance, hstack]
  | case2 seen left u frames ih =>
    obtain ⟨t, hstep, ht⟩ := h.pop
    rw [loop_of_again hstep]
    exact ih ht
  | case3 seen left u v vs frames hv ih =>
    obtain ⟨t, hstep, ht⟩ := h.push hv.1 hv.2
    rw [loop_of_again hstep]
    exact ih ht
  | case4 seen left u v vs frames hv ih =>
    obtain ⟨t, hstep, ht⟩ := h.skip hv
    rw [loop_of_again hstep]
    exact ih ht

end StandsAt

theorem exists_start (hroot : root < g.length) :
    ∃ s, start g root = pure s ∧ s.StandsAt g [(root, g[root]?.getD [])] [root] [] := by
  have hmark : (List.replicate g.length false)[root]? = some false := by simp [hroot]
  refine ⟨⟨[(root, 0)], (List.replicate g.length false).set root true, []⟩, ?_, rfl,
    List.forall_mem_singleton.mpr hroot, fun v hv => ?_, rfl⟩
  · simp only [start, look_of_getElem? hmark, pure_bind]
  · by_cases hvr : v = root
    · subst hvr
      simp [hv]
    · simp [hv, hvr, Ne.symm hvr]

end Search

noncomputable def postorderByMarks (g : Adjacency) (root : Nat) : Run (List Nat) := do
  let s ← Search.start g root
  return (← loop (Search.advance g) s).order

theorem postorderByMarks_eq (hroot : root < g.length) :
    g.postorderByMarks root = pure (g.postorder root) := by
  obtain ⟨s, hstart, hs⟩ := Search.exists_start hroot
  obtain ⟨r, hloop, horder⟩ := hs.exists_loop_advance
  simp only [postorderByMarks, hstart, hloop, pure_bind, horder]
  rfl

/-- A search from a node that exists comes to an end. It leaves just the nodes that the root leads to,
each of them once and the root last. Every other one has a predecessor that is left later, and an edge
goes to a node that is left before or that leads back. -/
theorem search_ends_in_postorder (hroot : root < g.length) :
    g.postorderByMarks root = pure (g.postorder root) ∧
      (∀ v, v ∈ g.postorder root ↔ g.Reachable root v) ∧ (g.postorder root).Nodup ∧
      (g.postorder root).getLast? = some root ∧
      (∀ v ∈ g.postorder root, v ≠ root →
        ∃ u, g.Edge u v ∧ [v, u].Sublist (g.postorder root)) ∧
      ∀ u ∈ g.postorder root, ∀ v ∈ g.postorder root, g.Edge u v →
        [v, u].Sublist (g.postorder root) ∨ g.Reachable v u :=
  ⟨postorderByMarks_eq hroot, fun _ => mem_postorder, g.nodup_postorder root,
    g.getLast?_postorder root, fun _ hv hne => exists_later_predecessor hv hne,
    fun _ hu _ _ he => left_before_or_reachable hu he⟩

theorem search_ends_in_postorder_tangle :
    0 < tangle.length ∧ tangle.postorderByMarks 0 = pure [2, 3, 1, 0] ∧ tangle.Edge 2 1 ∧
      ¬[1, 2].Sublist (tangle.postorder 0) ∧ tangle.Reachable 1 2 := by
  have hroot : 0 < tangle.length := by decide
  obtain ⟨hends, -, -, -, -, hedges⟩ := search_ends_in_postorder hroot
  have horder : tangle.postorder 0 = [2, 3, 1, 0] := by decide +kernel
  rw [horder] at hends hedges ⊢
  have hedge : tangle.Edge 2 1 := edge_iff.mpr (by decide)
  have hafter : ¬[1, 2].Sublist [2, 3, 1, 0] := by decide
  exact ⟨hroot, hends, hedge, hafter,
    (hedges 2 (by decide) 1 (by decide) hedge).resolve_left hafter⟩

end Dependence.Adjacency
