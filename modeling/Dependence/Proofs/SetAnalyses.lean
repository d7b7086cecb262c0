import Mathlib.Data.Finset.Card
import Mathlib.Data.Finset.Range
import Dependence.Proofs.Ascents
import Dependence.Proofs.ReachingPaths
import Dependence.Proofs.ReferenceOrder

/-! Sets of one capacity under union, where chains have at most as many steps as there are possible
members. Reaching definitions are a monotone analysis of such sets, so their analysis always ends. -/

namespace Dependence

open JoinLattice

namespace BitSet

variable {n : Nat} {s t u : BitSet}

theorem Sized.exists_join (hs : s.Sized n) (ht : t.Sized n) :
    ∃ u, join s t = .ok u ∧ u.Sized n ∧ ∀ k, k ∈ u ↔ k ∈ s ∨ k ∈ t := by
  obtain ⟨u, changed, hu, hvalid, hcap, hmem⟩ := hs.1.union ht.1 (hs.2.trans ht.2.symm)
  refine ⟨u, ?_, ⟨hvalid, hcap.trans hs.2⟩, hmem⟩
  simp only [join, hu]
  rfl

theorem Sized.join_eq (hs : s.Sized n) (ht : t.Sized n) (hu : u.Sized n)
    (hmem : ∀ k, k ∈ u ↔ k ∈ s ∨ k ∈ t) : join s t = .ok u := by
  obtain ⟨u', hjoin, hu', hmem'⟩ := hs.exists_join ht
  rw [hjoin, hu'.ext hu fun k => (hmem' k).trans (hmem k).symm]

theorem Sized.below_iff (hs : s.Sized n) (ht : t.Sized n) :
    Below s t ↔ ∀ k, k ∈ s → k ∈ t := by
  constructor
  · intro h k hk
    obtain ⟨u, hjoin, -, hmem⟩ := hs.exists_join ht
    obtain rfl := Except.ok.inj (hjoin.symm.trans h)
    exact (hmem k).mpr (.inl hk)
  · intro h
    apply hs.join_eq ht ht
    intro k
    rw [or_iff_right_of_imp (h k)]

theorem joinWith_eq_derived (s t : BitSet) : joinWith s t = derivedJoinWith join s t := by
  have hchanged : ∀ words, (words != s.words) = decide ({ s with words } ≠ s) := by
    intro words
    cases s
    simp [bne, beq_eq_decide]
  simp only [joinWith, join, derivedJoinWith, union, combine, hchanged]
  split <;> rfl

theorem lawfulOn_sized (n : Nat) : LawfulOn (Sized n) where
  closed hx hy := by
    obtain ⟨z, hjoin, hz, -⟩ := hx.exists_join hy
    exact ⟨z, hz, hjoin⟩
  idem hx := hx.join_eq hx hx fun k => (or_self_iff (a := k ∈ _)).symm
  comm hx hy := by
    obtain ⟨z, hjoin, hz, hmem⟩ := hx.exists_join hy
    rw [hjoin, hy.join_eq hx hz fun k => (hmem k).trans or_comm]
  assoc hx hy hz := by
    obtain ⟨v, hxy, hv, hmem⟩ := hx.exists_join hy
    obtain ⟨w, hyz, hw, hmem'⟩ := hy.exists_join hz
    obtain ⟨r, hvz, hr, hmem''⟩ := hv.exists_join hz
    have hxw : join _ w = .ok r := hx.join_eq hw hr fun k => by
      rw [hmem'', hmem, hmem', or_assoc]
    rw [hxy, hyz]
    exact hvz.trans hxw.symm
  joinWith_eq _ _ := joinWith_eq_derived _ _

theorem heightAtMost_sized (n : Nat) : HeightAtMost (Sized n) n := by
  apply heightAtMost_of_rank fun s => ((Finset.range n).filter (· ∈ s)).card
  · intro s _
    simpa using Finset.card_filter_le (Finset.range n) (· ∈ s)
  · intro s t hs ht hbelow hne
    have hsub := (hs.below_iff ht).mp hbelow
    -- sets that differ do so in a member of the upper one, which is below the capacity
    have hnew : ∃ k, k ∈ t ∧ k ∉ s := by
      by_contra hno
      push Not at hno
      exact hne (hs.ext ht fun k => ⟨hsub k, hno k⟩)
    obtain ⟨k, hkt, hks⟩ := hnew
    have hk := ht.lt_of_mem hkt
    apply Finset.card_lt_card
    rw [Finset.ssubset_iff_of_subset]
    · exact ⟨k, by simp [hk, hkt], by simp [hks]⟩
    · intro j hj
      rw [Finset.mem_filter] at hj ⊢
      exact ⟨hj.1, hsub j hj.2⟩

end BitSet

namespace Definitions

variable {oracle : Oracle} {d : Definitions}

theorem Dense.monotoneOn_analysis (h : d.Dense oracle) (g : Graph) :
    (d.analysis g).MonotoneOn g (BitSet.Sized d.referenceCount) where
  lawful := BitSet.lawfulOn_sized _
  bottom := BitSet.sized_empty _
  least hx := ((BitSet.sized_empty _).below_iff hx).mpr fun k hk =>
    absurd hk (BitSet.notMem_empty _ k)
  closed {l x} _ hx := by
    obtain ⟨y, hy, hsized, -⟩ := flow_ok h g l hx
    exact ⟨y, hsized, hy⟩
  monotone {l x x' y y'} _ hx hx' hle hy hy' := by
    obtain ⟨z, hz, hzsized, hmem⟩ := flow_ok h g l hx
    obtain ⟨z', hz', hzsized', hmem'⟩ := flow_ok h g l hx'
    obtain rfl := Except.ok.inj (hz.symm.trans hy)
    obtain rfl := Except.ok.inj (hz'.symm.trans hy')
    rw [hzsized.below_iff hzsized']
    intro k hk
    rw [hmem']
    rw [hmem] at hk
    exact hk.imp_left fun ⟨hin, hkept⟩ => ⟨(hx.below_iff hx').mp hle k hin, hkept⟩

end Definitions

/-- A monotone analysis on states without endless chains ends without a limit, after no more visits
than there are locations and, for each step of the longest chain, edges between locations. The
analysis of reaching definitions is one, for whatever tables, and chains there have a step for each
reference. -/
theorem monotone_analyses_end :
    (∀ (L : Type) [DecidableEq L] [JoinLattice L] (a : Analysis L) (g : Graph) (S : L → Prop)
      (h : Nat), a.MonotoneOn g S → HeightAtMost S h →
        ∃ k ≤ g.slotCount + h * g.dependencyCount, ∃ sol, a.EndsAfter g k sol ∧ sol.pops = k ∧
          a.solveUnbounded g = .ok sol) ∧
      ∀ (g g' : Graph) (oracle : Oracle) (config : Config), config.maxIterations = none →
        ∃ k ≤ g.slotCount + (Definitions.find g' oracle).referenceCount * g.dependencyCount,
          ∃ result, Reaching.solve g (.find g' oracle) config = .ok result ∧
            ((Definitions.find g' oracle).analysis g).EndsAfter g k result.solution ∧
            result.solution.pops = k ∧
            ((Definitions.find g' oracle).analysis g).solveUnbounded g = .ok result.solution := by
  constructor
  · intro L _ _ a g S h ha hS
    obtain ⟨k, hk, sol, hend⟩ := ha.exists_endsAfter hS
    exact ⟨k, hk, sol, hend, hend.pops, hend.solveUnbounded⟩
  · intro g g' oracle config hconfig
    obtain ⟨hdense, -⟩ := Definitions.dense_find g' oracle
    generalize Definitions.find g' oracle = d at hdense ⊢
    obtain ⟨k, hk, sol, hend⟩ :=
      (hdense.monotoneOn_analysis g).exists_endsAfter (BitSet.heightAtMost_sized _)
    refine ⟨k, hk, ⟨d, sol⟩, ?_, hend, hend.pops, hend.solveUnbounded⟩
    rw [Reaching.solve, hconfig, Option.getD_none, Reaching.patience, hend.solve hk]
    rfl

theorem monotone_analyses_end_countdown :
    ((Definitions.find .countdown .countdown).analysis .countdown).MonotoneOn .countdown
        (BitSet.Sized 3) ∧
      HeightAtMost (BitSet.Sized 3) 3 ∧
      (∃ k ≤ 16, ∃ sol,
        ((Definitions.find .countdown .countdown).analysis .countdown).EndsAfter .countdown k sol) ∧
      ∃ result, Reaching.solve .countdown (.find .countdown .countdown) .default = .ok result ∧
        result.solution.pops ≤ 16 := by
  obtain ⟨hany, hreaching⟩ := monotone_analyses_end
  have hcount : (Definitions.find .countdown .countdown).referenceCount = 3 := by decide +kernel
  have hbound : Graph.countdown.slotCount + 3 * Graph.countdown.dependencyCount = 16 := by
    decide +kernel
  have hmono := (Definitions.dense_find .countdown .countdown).1.monotoneOn_analysis .countdown
  rw [hcount] at hmono
  have hheight := BitSet.heightAtMost_sized 3
  refine ⟨hmono, hheight, ?_, ?_⟩
  · obtain ⟨k, hk, sol, hend, -⟩ := hany _ _ _ _ _ hmono hheight
    exact ⟨k, hbound ▸ hk, sol, hend⟩
  · obtain ⟨k, hk, result, hsolve, -, hpops, -⟩ :=
      hreaching .countdown .countdown .countdown .default rfl
    rw [hcount, hbound] at hk
    exact ⟨result, hsolve, hpops.le.trans hk⟩

end Dependence
