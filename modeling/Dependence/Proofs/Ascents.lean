import Mathlib.Algebra.BigOperators.Fin
import Mathlib.Algebra.Order.BigOperators.Group.Finset
import Mathlib.Data.List.Chain
import Dependence.Proofs.Budgets
import Dependence.Proofs.Schedules

/-! How many visits a monotone analysis takes. The state after a location only ever rises, since what
a visit makes of the other states rises with them. So it changes no more often than chains of states
have steps, and every change has at most the dependents of the location visited once more. -/

namespace Dependence

open JoinLattice

variable {L : Type} [DecidableEq L] [JoinLattice L]

/-- Chains of states, each strictly below the next one, take at most `h` steps. -/
def HeightAtMost (S : L → Prop) (h : Nat) : Prop :=
  ∀ chain : List L, (∀ x ∈ chain, S x) → (chain.IsChain fun x y => Below x y ∧ x ≠ y) →
    chain.length ≤ h + 1

theorem heightAtMost_of_rank {S : L → Prop} {h : Nat} (rank : L → Nat) (hle : ∀ x, S x → rank x ≤ h)
    (hlt : ∀ x y, S x → S y → Below x y → x ≠ y → rank x < rank y) : HeightAtMost S h := by
  intro chain hmem hchain
  cases chain with
  | nil => exact Nat.zero_le _
  | cons x rest =>
    suffices hrest : rest.length + rank x ≤ h by
      rw [List.length_cons]
      omega
    induction rest generalizing x with
    | nil => simpa using hle x (hmem x (by simp))
    | cons y rest ih =>
      obtain ⟨⟨hbelow, hne⟩, hchain⟩ := List.isChain_cons_cons.mp hchain
      have hstep := hlt x y (hmem x (by simp)) (hmem y (by simp)) hbelow hne
      have := ih y (fun z hz => hmem z (List.mem_cons_of_mem x hz)) hchain
      rw [List.length_cons]
      omega

theorem Graph.sum_dependentSlots_le (g : Graph) :
    ∑ i : g.Slot, (g.dependentSlots i).length ≤ g.dependencyCount := by
  have hcount : g.dependencyCount = ∑ i : g.Slot, (g.dependents (g.location i)).length := by
    have hsum := Fin.sum_univ_fun_getElem g.locations fun l => (g.dependents l).length
    rw [List.sum_eq_foldr, List.foldr_map] at hsum
    exact hsum.symm
  rw [hcount]
  apply Finset.sum_le_sum
  intro i _
  exact List.length_filterMap_le _ _

theorem length_foldl_enqueue_le {n : Nat} (pending ks : List (Fin n)) :
    (ks.foldl enqueue pending).length ≤ pending.length + ks.length := by
  induction ks generalizing pending with
  | nil => exact le_rfl
  | cons k ks ih =>
    have hlength : (enqueue pending k).length ≤ pending.length + 1 := by
      unfold enqueue
      split <;> simp
    have := ih (enqueue pending k)
    rw [List.foldl_cons, List.length_cons]
    omega

namespace Analysis

variable {a : Analysis L} {g : Graph} {S : L → Prop} {s t : State L g.slotCount} {i : g.Slot}
  {outputs outputs' : Vector L g.slotCount} {x y z : L} {h : Nat}

def Makes (a : Analysis L) (g : Graph) (outputs : Vector L g.slotCount) (i : g.Slot) (y : L) : Prop :=
  ∃ x, a.inputOf g outputs i = .ok x ∧ a.flow (g.location i) x = .ok y

theorem Makes.unique (hy : a.Makes g outputs i y) (hz : a.Makes g outputs i z) : y = z := by
  obtain ⟨x, hx, hy⟩ := hy
  obtain ⟨x', hx', hz⟩ := hz
  obtain rfl := Except.ok.inj (hx.symm.trans hx')
  exact Except.ok.inj (hy.symm.trans hz)

theorem exists_visit (hx : a.inputOf g s.outputs i = .ok x) (hy : a.flow (g.location i) x = .ok y) :
    ∃ t, a.visit g s i = .ok t ∧ t.pending = if y = s.outputs.get i then s.pending.erase i
      else (g.dependentSlots i).foldl enqueue (s.pending.erase i) := by
  unfold visit
  simp only [hx, hy, bind, Except.bind]
  by_cases hsame : y = s.outputs.get i
  · rw [if_pos hsame, if_pos (show y = s.outputs[i.val] from hsame)]
    exact ⟨_, rfl, rfl⟩
  · rw [if_neg hsame, if_neg (show ¬y = s.outputs[i.val] from hsame)]
    exact ⟨_, rfl, rfl⟩

theorem visit_makes (hv : a.visit g s i = .ok t) (hi : i ∈ s.pending) :
    ∃ y, a.Makes g s.outputs i y ∧ (∀ k, t.outputs.get k = if k = i then y else s.outputs.get k) ∧
      t.pops = s.pops + 1 ∧ t.pending.length + 1 ≤
        s.pending.length + if y = s.outputs.get i then 0 else (g.dependentSlots i).length := by
  obtain ⟨x, y, hx, hy, -, hout, -, hpops⟩ := visit_ok hv
  refine ⟨y, ⟨x, hx, hy⟩, hout, hpops, ?_⟩
  have herase : (s.pending.erase i).length + 1 = s.pending.length := by
    have := List.length_pos_of_mem hi
    rw [List.length_erase_of_mem hi]
    omega
  obtain ⟨t', ht', hpending⟩ := exists_visit hx hy
  obtain rfl := Except.ok.inj (hv.symm.trans ht')
  rw [hpending]
  split
  · exact herase.le
  · have hlength := length_foldl_enqueue_le (s.pending.erase i) (g.dependentSlots i)
    omega

namespace MonotoneOn

variable (ha : a.MonotoneOn g S)
include ha

theorem exists_inputOf_mono (hmem : ∀ k : g.Slot, S (outputs.get k))
    (hmem' : ∀ k : g.Slot, S (outputs'.get k))
    (hle : ∀ k : g.Slot, Below (outputs.get k) (outputs'.get k)) (i : g.Slot) :
    ∃ x x', a.inputOf g outputs i = .ok x ∧ a.inputOf g outputs' i = .ok x' ∧ S x ∧ S x' ∧
      Below x x' := by
  have hall : List.Forall₂ (fun x y => S x ∧ S y ∧ Below x y)
      ((g.sourceSlots i).map outputs.get) ((g.sourceSlots i).map outputs'.get) := by
    rw [List.forall₂_map_left_iff, List.forall₂_map_right_iff, List.forall₂_same]
    intro k _
    exact ⟨hmem k, hmem' k, hle k⟩
  rw [inputOf_eq, inputOf_eq]
  exact ha.lawful.foldlM_absorb_mono hall ha.bottom ha.bottom (ha.least ha.bottom)

theorem exists_makes_mono (hmem : ∀ k : g.Slot, S (outputs.get k))
    (hmem' : ∀ k : g.Slot, S (outputs'.get k))
    (hle : ∀ k : g.Slot, Below (outputs.get k) (outputs'.get k)) (i : g.Slot) :
    ∃ y z, a.Makes g outputs i y ∧ a.Makes g outputs' i z ∧ S y ∧ S z ∧ Below y z := by
  obtain ⟨x, x', hx, hx', hSx, hSx', hxx⟩ := ha.exists_inputOf_mono hmem hmem' hle i
  obtain ⟨y, hSy, hy⟩ := ha.closed (Graph.contains_location i) hSx
  obtain ⟨z, hSz, hz⟩ := ha.closed (Graph.contains_location i) hSx'
  exact ⟨y, z, ⟨x, hx, hy⟩, ⟨x', hx', hz⟩, hSy, hSz,
    ha.monotone (Graph.contains_location i) hSx hSx' hxx hy hz⟩

end MonotoneOn

structure Rising (a : Analysis L) (g : Graph) (S : L → Prop) (outputs : Vector L g.slotCount) :
    Prop where
  mem : ∀ k : g.Slot, S (outputs.get k)
  below : ∀ (k : g.Slot) (y : L), a.Makes g outputs k y → Below (outputs.get k) y

theorem MonotoneOn.exists_inputOf (ha : a.MonotoneOn g S) (hr : a.Rising g S s.outputs) (i : g.Slot) :
    ∃ x, a.inputOf g s.outputs i = .ok x ∧ S x := by
  obtain ⟨x, -, hx, -, hSx, -⟩ :=
    ha.exists_inputOf_mono hr.mem hr.mem (fun k => ha.lawful.idem (hr.mem k)) i
  exact ⟨x, hx, hSx⟩

theorem MonotoneOn.exists_visit (ha : a.MonotoneOn g S) (hr : a.Rising g S s.outputs) (i : g.Slot) :
    ∃ t, a.visit g s i = .ok t := by
  obtain ⟨x, hx, hSx⟩ := ha.exists_inputOf hr i
  obtain ⟨y, -, hy⟩ := ha.closed (Graph.contains_location i) hSx
  obtain ⟨t, ht, -⟩ := Analysis.exists_visit hx hy
  exact ⟨t, ht⟩

theorem MonotoneOn.rising_start (ha : a.MonotoneOn g S) : a.Rising g S (a.start g).outputs := by
  have hget : ∀ k : g.Slot, (a.start g).outputs.get k = a.bottom :=
    fun k => Vector.getElem_replicate k.isLt
  have hmem : ∀ k : g.Slot, S ((a.start g).outputs.get k) := fun k => hget k ▸ ha.bottom
  refine ⟨hmem, fun k y hy => ?_⟩
  obtain ⟨y', -, hy', -, hSy, -⟩ :=
    ha.exists_makes_mono hmem hmem (fun k => ha.lawful.idem (hmem k)) k
  rw [hget, hy.unique hy']
  exact ha.least hSy

theorem Rising.below_visit (hr : a.Rising g S s.outputs) (ha : a.MonotoneOn g S)
    (hy : a.Makes g s.outputs i y)
    (hout : ∀ k, t.outputs.get k = if k = i then y else s.outputs.get k) (k : g.Slot) :
    Below (s.outputs.get k) (t.outputs.get k) := by
  rw [hout]
  split
  · next hk => exact hk ▸ hr.below i y hy
  · exact ha.lawful.idem (hr.mem k)

theorem Rising.visit (hr : a.Rising g S s.outputs) (ha : a.MonotoneOn g S)
    (hy : a.Makes g s.outputs i y)
    (hout : ∀ k, t.outputs.get k = if k = i then y else s.outputs.get k) :
    a.Rising g S t.outputs := by
  have hSy : S y := by
    obtain ⟨y', -, hy', -, hSy, -⟩ :=
      ha.exists_makes_mono hr.mem hr.mem (fun k => ha.lawful.idem (hr.mem k)) i
    exact hy.unique hy' ▸ hSy
  have hmem : ∀ k : g.Slot, S (t.outputs.get k) := by
    intro k
    rw [hout]
    split
    · exact hSy
    · exact hr.mem k
  refine ⟨hmem, fun k z hz => ?_⟩
  obtain ⟨w, z', hw, hz', hSw, hSz, hwz⟩ :=
    ha.exists_makes_mono hr.mem hmem (hr.below_visit ha hy hout) k
  obtain rfl := hz.unique hz'
  rw [hout]
  split
  · next hk =>
    subst hk
    exact hy.unique hw ▸ hwz
  · exact ha.lawful.below_trans (hr.mem k) hSw hSz (hr.below k w hw) hwz

/-- The states that were after each location before the present one, from the first one on. They pay
for the visits that have been made and those that are to come. -/
structure Ledger (g : Graph) (S : L → Prop) (s : State L g.slotCount) (past : g.Slot → List L) :
    Prop where
  mem : ∀ k : g.Slot, ∀ x ∈ past k, S x
  ascending : ∀ k : g.Slot,
    (past k ++ [s.outputs.get k]).IsChain fun x y => Below x y ∧ x ≠ y
  visits : s.pops + s.pending.length ≤
    g.slotCount + ∑ k : g.Slot, (past k).length * (g.dependentSlots k).length

theorem ledger_start (a : Analysis L) (g : Graph) (S : L → Prop) :
    Ledger g S (a.start g) fun _ => [] where
  mem := by simp
  ascending k := List.isChain_singleton _
  visits := by simp [start]

theorem Ledger.visit {past : g.Slot → List L} (hl : Ledger g S s past) (hr : a.Rising g S s.outputs)
    (hy : a.Makes g s.outputs i y)
    (hout : ∀ k, t.outputs.get k = if k = i then y else s.outputs.get k)
    (hpops : t.pops = s.pops + 1) (hpending : t.pending.length + 1 ≤
      s.pending.length + if y = s.outputs.get i then 0 else (g.dependentSlots i).length) :
    ∃ past, Ledger g S t past := by
  have hvisits := hl.visits
  by_cases hsame : y = s.outputs.get i
  · have hget : ∀ k, t.outputs.get k = s.outputs.get k := by
      intro k
      rw [hout]
      split
      · next hk => rw [hk, hsame]
      · rfl
    refine ⟨past, hl.mem, fun k => ?_, ?_⟩
    · rw [hget]
      exact hl.ascending k
    · rw [if_pos hsame] at hpending
      omega
  · -- the state that is overwritten joins the past of its location
    refine ⟨fun k => if k = i then past k ++ [s.outputs.get k] else past k, fun k x hx => ?_,
      fun k => ?_, ?_⟩
    · split at hx
      · rcases List.mem_append.mp hx with hx | hx
        · exact hl.mem k x hx
        · exact List.mem_singleton.mp hx ▸ hr.mem k
      · exact hl.mem k x hx
    · rw [hout]
      by_cases hk : k = i
      · subst hk
        rw [if_pos rfl, if_pos rfl, List.append_assoc, List.singleton_append,
          List.isChain_append_cons_cons]
        exact ⟨hl.ascending k, ⟨hr.below k y hy, Ne.symm hsame⟩, List.isChain_singleton y⟩
      · rw [if_neg hk, if_neg hk]
        exact hl.ascending k
    · have hlength : ∀ k : g.Slot,
          (if k = i then past k ++ [s.outputs.get k] else past k).length *
            (g.dependentSlots k).length = (past k).length * (g.dependentSlots k).length +
              if k = i then (g.dependentSlots k).length else 0 := by
        intro k
        split
        · rw [List.length_append, Nat.add_mul, List.length_singleton, Nat.one_mul]
        · rfl
      simp only [hlength, Finset.sum_add_distrib, Finset.sum_ite_eq', Finset.mem_univ, if_true]
      rw [if_neg hsame] at hpending
      omega

theorem MonotoneOn.exists_ledger (ha : a.MonotoneOn g S) (hs : a.Schedule g (a.start g) s) :
    a.Rising g S s.outputs ∧ ∃ past, Ledger g S s past := by
  induction hs with
  | refl => exact ⟨ha.rising_start, _, ledger_start a g S⟩
  | tail _ hstep ih =>
    obtain ⟨i, hi, hv⟩ := hstep
    obtain ⟨hr, past, hl⟩ := ih
    obtain ⟨y, hy, hout, hpops, hpending⟩ := visit_makes hv hi
    exact ⟨hr.visit ha hy hout, hl.visit hr hy hout hpops hpending⟩

theorem MonotoneOn.visits_le (ha : a.MonotoneOn g S) (hS : HeightAtMost S h)
    (hs : a.Schedule g (a.start g) s) :
    s.pops + s.pending.length ≤ g.slotCount + h * g.dependencyCount := by
  obtain ⟨hr, past, hl⟩ := ha.exists_ledger hs
  have hpast : ∀ k : g.Slot, (past k).length ≤ h := by
    intro k
    have hlength := hS _ (fun x hx => ?_) (hl.ascending k)
    · rw [List.length_append, List.length_singleton] at hlength
      omega
    · rcases List.mem_append.mp hx with hx | hx
      · exact hl.mem k x hx
      · exact List.mem_singleton.mp hx ▸ hr.mem k
  calc s.pops + s.pending.length
      ≤ g.slotCount + ∑ k : g.Slot, (past k).length * (g.dependentSlots k).length := hl.visits
    _ ≤ g.slotCount + ∑ k : g.Slot, h * (g.dependentSlots k).length :=
        Nat.add_le_add_left (Finset.sum_le_sum fun k _ => Nat.mul_le_mul_right _ (hpast k)) _
    _ = g.slotCount + h * ∑ k : g.Slot, (g.dependentSlots k).length := by rw [Finset.mul_sum]
    _ ≤ g.slotCount + h * g.dependencyCount :=
        Nat.add_le_add_left (Nat.mul_le_mul_left h g.sum_dependentSlots_le) _

theorem MonotoneOn.exists_endsAfter (ha : a.MonotoneOn g S) (hS : HeightAtMost S h) :
    ∃ k ≤ g.slotCount + h * g.dependencyCount, ∃ sol, a.EndsAfter g k sol := by
  rcases turns_cases a g (g.slotCount + h * g.dependencyCount) (a.start g) with
    ⟨k, hk, t, ht, hempty⟩ | ⟨t, i, rest, ht, hwait⟩ | ⟨k, -, e, t, i, rest, ht, hwait, he⟩
  · exact ⟨k, hk, t.solution, t, ht, hempty, rfl⟩
  · -- a location that still waits would be one visit too many
    have hle := ha.visits_le hS ht.schedule
    have hpops : t.pops = 0 + (g.slotCount + h * g.dependencyCount) := ht.pops
    rw [hwait, List.length_cons] at hle
    omega
  · obtain ⟨hr, -⟩ := ha.exists_ledger ht.schedule
    obtain ⟨t', ht'⟩ := ha.exists_visit hr i
    rw [ht'] at he
    cases he

end Analysis

end Dependence
