import Dependence.Proofs.CallStates

/-! Control dependence. A block is control dependent on a branch if one way out of the branch is
sure to lead to it and the branch itself is not. All that a call records along a path through its
function is of this kind: since the last region that is still open began, every other one that began
has ended, so each step on the way is sure to lead to the block. -/

namespace Dependence

namespace Adjacency

variable {g : Adjacency} {p q v w : Nat}

/-- There are several ways out of `a`, one of them leads to `b` on every walk to an exit, and `b`
does not strictly postdominate `a`. -/
structure ControlDependent (g : Adjacency) (b a : Nat) : Prop where
  branch : 1 < (g[a]?.getD []).length
  successor : ∃ s, g.Edge a s ∧ g.Postdominates b s
  not_strict : ¬(b ≠ a ∧ g.Postdominates b a)

theorem Postdominates.trans (hpq : g.Postdominates p q) (hqv : g.Postdominates q v) :
    g.Postdominates p v := by
  intro e nodes he hnodes
  obtain ⟨rest, hrest, hsuffix⟩ := hnodes.suffix (hqv e nodes he hnodes)
  exact hsuffix.subset (hpq e rest he hrest)

theorem Postdominates.of_edges (hvw : g.Edge v w)
    (h : ∀ u, g.Edge v u → g.Postdominates q u) : g.Postdominates q v := by
  intro e nodes he hnodes
  cases hnodes with
  | single => exact absurd hvw (he.2 w)
  | step hfirst hrest => exact List.mem_cons_of_mem _ (h _ hfirst _ _ he hrest)

end Adjacency

namespace Layout

variable {l : Layout} {t : Nat → Nat} {i j k m u v w : Nat}

theorem isBranch_iff : l.isBranch v = true ↔ 1 < (l.successors[v]?.getD []).length := by
  unfold isBranch
  cases l.successors[v]? <;> simp

theorem eq_of_edge (hv : l.isBranch v = false) (hu : l.successors.Edge v u)
    (hw : l.successors.Edge v w) : u = w := by
  have hlength : (l.successors[v]?.getD []).length ≤ 1 := by
    rw [← Nat.not_lt, ← isBranch_iff, hv]
    exact Bool.false_ne_true
  have hmem : ∀ x, l.successors.Edge v x → x ∈ l.successors[v]?.getD [] := fun x hx =>
    (Adjacency.edge_iff.mp hx).1
  rcases Nat.le_one_iff_eq_zero_or_eq_one.mp hlength with hzero | hone
  · have hnone := hmem u hu
    simp [List.eq_nil_of_length_eq_zero hzero] at hnone
  · obtain ⟨x, hx⟩ := List.length_eq_one_iff.mp hone
    simp only [hx, List.mem_singleton] at hmem
    rw [hmem u hu, hmem w hw]

namespace Follows

variable (h : l.Follows t m)
include h

/-- While no region is left open between two steps, the later one is sure to come. -/
theorem postdominates_of_ended (hkm : k ≤ m) (hended : ∀ n, i < n → n < k → ¬l.Open t n k)
    (hij : i < j) (hjk : j ≤ k) : l.successors.Postdominates (t k) (t j) := by
  induction hd : k - j using Nat.strong_induction_on generalizing j with
  | _ d ih =>
    rcases hjk.eq_or_lt with rfl | hjk
    · exact fun _ _ _ hnodes => hnodes.start_mem
    have hedge := h.edge j (hjk.trans_le hkm)
    have hnext := ih (k - (j + 1)) (by omega) (Nat.lt_succ_of_lt hij) hjk rfl
    cases hbranch : l.isBranch (t j) with
    | false => exact .of_edges hedge fun u hu => eq_of_edge hbranch hedge hu ▸ hnext
    | true =>
      -- the region of this branch has ended, and what comes after its end is sure to come
      have hend : l.Ended t j k := by
        by_contra hrunning
        exact hended j hij hjk ⟨hbranch, hrunning⟩
      obtain ⟨n, hjn, hnk, hn⟩ := hend
      have hlater := ih (k - n) (by omega) (hij.trans hjn) hnk rfl
      exact hlater.trans (h.immediatelyPostdominates hn).postdominates

theorem not_postdominates_of_open (hij : i ≤ j) (hjm : j ≤ m) (hopen : ¬l.Ended t i j)
    (hexit : l.successors.Exiting (t j)) (hne : t j ≠ t i) :
    ¬l.successors.Postdominates (t j) (t i) := by
  intro hpost
  obtain ⟨nodes, hnodes, -⟩ := h.exists_walk hij hjm
  obtain ⟨q, hq⟩ := h.exists_postdominator (hexit.of_reachable ⟨nodes, hnodes⟩) hne hpost
  obtain ⟨hqne, hafter⟩ := h.postdominates_of_open hq hij hjm hopen
  have hbefore := (h.immediatelyPostdominates hq).nearest _ hne hpost
  exact hqne (hafter.antisymm hbefore (hafter.exiting hexit))

end Follows

end Layout

namespace Call

variable {l : Layout} {t : Nat → Nat} {k m x y : Nat} {c : Call}

theorem exists_step_of_dependsOn (hfollows : l.Follows t m) (hm : 0 < m) (h0 : t 0 = 0)
    (position : Nat → String) (hk : k ≤ m)
    (hc : ofEvents l (position 0) (entrances t position k) = .ok c) (hxy : c.DependsOn x y) :
    ∃ j < k, t (j + 1) = x ∧ ∃ i, t i = y ∧ (i < j + 1 ∧ l.Open t i (j + 1)) ∧
      ∀ n < j + 1, l.Open t n (j + 1) → n ≤ i := by
  induction k generalizing c with
  | zero =>
    obtain ⟨first, hfirst, -, -, hnone⟩ := start_ok l (position 0)
    have hstart : ofEvents l (position 0) (entrances t position 0) = .ok first := by
      rw [ofEvents, hfirst]
      rfl
    obtain rfl : c = first := Except.ok.inj (hc.symm.trans hstart)
    exact absurd hxy (hnone x y)
  | succ k ih =>
    obtain ⟨before, hbefore, hrecording⟩ :=
      exists_recording hfollows hm h0 position (Nat.le_of_succ_le hk)
    obtain ⟨after, hafter, -, hdepends⟩ := hrecording.handle hfollows hk (position (k + 1))
    rw [ofEvents_entrances_succ, hbefore] at hc
    obtain rfl : c = after := Except.ok.inj (hc.symm.trans hafter)
    rcases (hdepends x y).mp hxy with hxy | ⟨rfl, hrecorded⟩
    · obtain ⟨j, hj, hstep⟩ := ih (Nat.le_of_succ_le hk) hbefore hxy
      exact ⟨j, Nat.lt_succ_of_lt hj, hstep⟩
    · have hopen := (hrecording.recorded?_eq_some_iff hfollows hk).mp hrecorded
      exact ⟨k, Nat.lt_succ_self k, rfl, hopen⟩

end Call

/-- What a call records along a path from the first block is a control dependence, for each block
from which an exit can be reached. -/
theorem controlDependent_of_recorded {l : Layout} {t : Nat → Nat} {m : Nat} {id : FunctionId}
    {successors : Adjacency} (hl : Layout.ofSuccessors id successors = .ok l) (h0 : t 0 = 0)
    (hpath : ∀ k < m, successors.Edge (t k) (t (k + 1))) (position : Nat → String) :
    ∃ c, Call.ofEvents l (position 0) (Call.entrances t position m) = .ok c ∧
      ∀ block branch, c.DependsOn block branch → successors.Exiting block →
        successors.ControlDependent block branch := by
  obtain rfl := Layout.eq_of_ofSuccessors hl
  have hfollows : Layout.Follows ⟨id, successors, successors.postdominators⟩ t m := ⟨rfl, hpath⟩
  rcases Nat.eq_zero_or_pos m with rfl | hm
  · obtain ⟨c, hstart, -, -, hnone⟩ := Call.start_ok _ (position 0)
    refine ⟨c, by rw [Call.ofEvents, hstart]; rfl, fun x y hxy => absurd hxy (hnone x y)⟩
  · obtain ⟨c, hc, -⟩ := Call.exists_recording hfollows hm h0 position le_rfl
    refine ⟨c, hc, fun block branch hdepends hexit => ?_⟩
    obtain ⟨k, hk, rfl, i, rfl, ⟨hik, hopen⟩, hlast⟩ :=
      Call.exists_step_of_dependsOn hfollows hm h0 position le_rfl hc hdepends
    have hended : ∀ n, i < n → n < k + 1 → ¬Layout.Open _ t n (k + 1) := fun n hin hn hopen =>
      absurd (hlast n hn hopen) hin.not_ge
    refine ⟨Layout.isBranch_iff.mp hopen.1, ⟨t (i + 1), hpath i (hik.trans_le hk), ?_⟩, ?_⟩
    · exact hfollows.postdominates_of_ended hk hended (Nat.lt_succ_self i) hik
    · rintro ⟨hne, hpost⟩
      exact hfollows.not_postdominates_of_open hik.le hk hopen.2 hexit hne hpost

/-- The head of a loop depends on the branch in the body that may leave the loop. -/
theorem controlDependent_of_recorded_breakableLoop :
    ∃ c, Call.ofEvents .breakableLoop ""
        (Call.entrances ([0, 1, 2, 4, 1].getD · 0) (fun _ => "") 4) = .ok c ∧ c.DependsOn 1 2 ∧
      Adjacency.ControlDependent [[1], [2, 5], [3, 4], [5], [1], []] 1 2 := by
  have hl : Layout.ofSuccessors ⟨"search", 0⟩ [[1], [2, 5], [3, 4], [5], [1], []] =
      .ok .breakableLoop := by decide +kernel
  have hpath : ∀ k < 4, Adjacency.Edge [[1], [2, 5], [3, 4], [5], [1], []]
      ([0, 1, 2, 4, 1].getD k 0) ([0, 1, 2, 4, 1].getD (k + 1) 0) := by
    unfold Adjacency.Edge
    decide
  have hexit : Adjacency.Exiting [[1], [2, 5], [3, 4], [5], [1], []] 1 :=
    ⟨5, Adjacency.mem_exits.mp (by decide), _, .step (show 5 ∈ _ by decide) (.single 5)⟩
  have hset : (Call.ofEvents .breakableLoop ""
      (Call.entrances ([0, 1, 2, 4, 1].getD · 0) (fun _ => "") 4)).map
        (fun c => c.preds[1]?.any (·.contains 2)) = .ok true := by decide +kernel
  obtain ⟨c, hc, hdependent⟩ :=
    controlDependent_of_recorded (t := ([0, 1, 2, 4, 1].getD · 0)) hl rfl hpath (fun _ => "")
  rw [hc] at hset
  have hdepends : c.DependsOn 1 2 := (Option.any_eq_true _ _).mp (Except.ok.inj hset)
  exact ⟨c, hc, hdepends, hdependent 1 2 hdepends hexit⟩

end Dependence
