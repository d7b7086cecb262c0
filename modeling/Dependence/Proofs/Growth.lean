import Dependence.Proofs.Ascents

/-! The states of a monotone analysis only ever grow. A visit replaces the states at one location by what the
others make of them now. Whatever has been visited so far, no state after a location is above what a visit
would put in its place, and no state before a location is above what it would read; that survives a visit,
since the states that are read only grow themselves. -/

namespace Dependence

open JoinLattice

variable {L : Type} [DecidableEq L] [JoinLattice L]

structure State.GrowsTo {n : Nat} (s t : State L n) : Prop where
  inputs : ∀ k : Fin n, Below (s.inputs.get k) (t.inputs.get k)
  outputs : ∀ k : Fin n, Below (s.outputs.get k) (t.outputs.get k)

namespace Analysis

variable {a : Analysis L} {g : Graph} {S : L → Prop} {s t : State L g.slotCount} {i : g.Slot}

structure Behind (a : Analysis L) (g : Graph) (S : L → Prop) (s : State L g.slotCount) : Prop where
  rising : a.Rising g S s.outputs
  mem : ∀ k : g.Slot, S (s.inputs.get k)
  below : ∀ (k : g.Slot) (x : L), a.inputOf g s.outputs k = .ok x → Below (s.inputs.get k) x

theorem MonotoneOn.behind_start (ha : a.MonotoneOn g S) : a.Behind g S (a.start g) := by
  have hget : ∀ k : g.Slot, (a.start g).inputs.get k = a.bottom :=
    fun k => Vector.getElem_replicate k.isLt
  refine ⟨ha.rising_start, fun k => hget k ▸ ha.bottom, fun k x hx => ?_⟩
  obtain ⟨x', hx', hSx⟩ := ha.exists_inputOf ha.rising_start k
  obtain rfl := Except.ok.inj (hx.symm.trans hx')
  exact hget k ▸ ha.least hSx

theorem Behind.visit (h : a.Behind g S s) (ha : a.MonotoneOn g S) (hv : a.visit g s i = .ok t) :
    a.Behind g S t ∧ s.GrowsTo t := by
  obtain ⟨x, y, hx, hy, hin, hout, -⟩ := visit_ok hv
  have hrising : a.Rising g S t.outputs := h.rising.visit ha ⟨x, hx, hy⟩ hout
  have hgrown : ∀ k : g.Slot, Below (s.outputs.get k) (t.outputs.get k) :=
    h.rising.below_visit ha ⟨x, hx, hy⟩ hout
  have hSx : S x := by
    obtain ⟨x', hx', hSx⟩ := ha.exists_inputOf h.rising i
    rwa [Except.ok.inj (hx.symm.trans hx')]
  refine ⟨⟨hrising, fun k => ?_, fun k z hz => ?_⟩, fun k => ?_, hgrown⟩
  · rw [hin]
    split
    · exact hSx
    · exact h.mem k
  · -- what a location reads has grown with the states it is read from
    obtain ⟨w, z', hw, hz', hSw, hSz, hwz⟩ := ha.exists_inputOf_mono h.rising.mem hrising.mem hgrown k
    obtain rfl := Except.ok.inj (hz.symm.trans hz')
    rw [hin]
    split
    · next hk =>
      subst hk
      exact Except.ok.inj (hx.symm.trans hw) ▸ hwz
    · exact ha.lawful.below_trans (h.mem k) hSw hSz (h.below k w hw) hwz
  · rw [hin]
    split
    · next hk => exact hk ▸ h.below i x hx
    · exact ha.lawful.idem (h.mem k)

theorem Behind.schedule (h : a.Behind g S s) (ha : a.MonotoneOn g S) (hs : a.Schedule g s t) :
    a.Behind g S t ∧ s.GrowsTo t := by
  induction hs with
  | refl => exact ⟨h, fun k => ha.lawful.idem (h.mem k), fun k => ha.lawful.idem (h.rising.mem k)⟩
  | tail _ hstep ih =>
    obtain ⟨i, -, hv⟩ := hstep
    obtain ⟨hbehind, hgrown⟩ := ih
    obtain ⟨hnext, hstep⟩ := hbehind.visit ha hv
    refine ⟨hnext, fun k => ?_, fun k => ?_⟩
    · exact ha.lawful.below_trans (h.mem k) (hbehind.mem k) (hnext.mem k) (hgrown.inputs k)
        (hstep.inputs k)
    · exact ha.lawful.below_trans (h.rising.mem k) (hbehind.rising.mem k) (hnext.rising.mem k)
        (hgrown.outputs k) (hstep.outputs k)

end Analysis

/-- Whatever has been visited so far, and in whatever order, visiting a location succeeds: the state before it
is replaced by what it now reads, the state after it by what the analysis makes of that, and both are above
what they replace. So no state shrinks in the course of a run. -/
theorem states_only_grow {a : Analysis L} {g : Graph} {S : L → Prop} (ha : a.MonotoneOn g S)
    {s : State L g.slotCount} (hs : a.Schedule g (a.start g) s) :
    (∀ i : g.Slot, ∃ t, a.visit g s i = .ok t ∧
      a.inputOf g s.outputs i = .ok (t.inputs.get i) ∧
      a.flow (g.location i) (t.inputs.get i) = .ok (t.outputs.get i) ∧
      Below (s.inputs.get i) (t.inputs.get i) ∧ Below (s.outputs.get i) (t.outputs.get i)) ∧
    ∀ t, a.Schedule g s t → s.GrowsTo t := by
  have hbehind : a.Behind g S s := (ha.behind_start.schedule ha hs).1
  refine ⟨fun i => ?_, fun t ht => (hbehind.schedule ha ht).2⟩
  obtain ⟨t, hv⟩ := ha.exists_visit hbehind.rising i
  obtain ⟨-, hgrown⟩ := hbehind.visit ha hv
  obtain ⟨x, y, hx, hy, hin, hout, -⟩ := Analysis.visit_ok hv
  have hinput : t.inputs.get i = x := by rw [hin, if_pos rfl]
  have houtput : t.outputs.get i = y := by rw [hout, if_pos rfl]
  refine ⟨t, hv, ?_, ?_, hgrown.inputs i, hgrown.outputs i⟩
  · rw [hinput, hx]
  · rw [hinput, houtput, hy]

theorem states_only_grow_seesaw :
    let a := Analysis.longest 4 []
    let s : State Nat 4 := ⟨#v[0, 1, 2, 3], #v[1, 2, 3, 4], [1], 4⟩
    let t : State Nat 4 := ⟨#v[0, 4, 2, 3], #v[1, 4, 3, 4], [2], 5⟩
    a.MonotoneOn Graph.seesaw (fun _ => True) ∧ a.Schedule Graph.seesaw (a.start _) s ∧
      a.visit Graph.seesaw s (1 : Fin 4) = .ok t ∧ Below (s.inputs.get 1) (t.inputs.get 1) ∧
        Below (s.outputs.get 1) (t.outputs.get 1) ∧ s.GrowsTo t := by
  intro a s t
  have hmono : a.MonotoneOn Graph.seesaw fun _ => True := Analysis.longest_monotoneOn 4 [] _
  have hs : a.Turns Graph.seesaw 4 (a.start _) s :=
    .next (t := (⟨#v[0, 0, 0, 0], #v[1, 0, 0, 0], [1, 2, 3], 1⟩ : State Nat 4)) rfl rfl <|
    .next (t := (⟨#v[0, 1, 0, 0], #v[1, 2, 0, 0], [2, 3], 2⟩ : State Nat 4)) rfl rfl <|
    .next (t := (⟨#v[0, 1, 2, 0], #v[1, 2, 3, 0], [3], 3⟩ : State Nat 4)) rfl rfl <|
    .next (t := s) rfl rfl (.none (g := Graph.seesaw) s)
  have ht : a.visit Graph.seesaw s (1 : Fin 4) = .ok t := rfl
  obtain ⟨hvisit, hrun⟩ := states_only_grow hmono hs.schedule
  obtain ⟨t', ht', -, -, hin, hout⟩ := hvisit (1 : Fin 4)
  obtain rfl : t' = t := Except.ok.inj (ht'.symm.trans ht)
  exact ⟨hmono, hs.schedule, ht, hin, hout, hrun _ (.single ⟨_, List.mem_singleton.mpr rfl, ht⟩)⟩

end Dependence
