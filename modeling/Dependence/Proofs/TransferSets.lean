import Dependence.Reaching
import Dependence.Proofs.BitSets
import Dependence.Proofs.DefinitionTables
import Dependence.Proofs.Equations

/-! Reaching definitions as sets of indices. The sets that a location generates and kills are those
of the variables it defines, so an answer of the analysis consists of sets that are tied to each
other by membership: what is before a location comes from its sources, and what is after it is left
or generated there. -/

namespace Dependence

theorem BitSet.Sized.foldlM_absorb {n : Nat} {s : BitSet} {xs : List BitSet} (hs : s.Sized n)
    (hxs : ∀ x ∈ xs, x.Sized n) :
    ∃ u, xs.foldlM JoinLattice.absorb s = .ok u ∧ u.Sized n ∧
      ∀ k, k ∈ u ↔ k ∈ s ∨ ∃ x ∈ xs, k ∈ x := by
  induction xs generalizing s with
  | nil => exact ⟨s, rfl, hs, by simp⟩
  | cons x xs ih =>
    have hx := hxs x (by simp)
    obtain ⟨t, changed, ht, hvalid, hcap, hmem⟩ := hs.1.union hx.1 (hs.2.trans hx.2.symm)
    obtain ⟨u, hu, husized, humem⟩ :=
      ih ⟨hvalid, hcap.trans hs.2⟩ fun y hy => hxs y (List.mem_cons_of_mem x hy)
    refine ⟨u, ?_, husized, fun k => by rw [humem, hmem]; simp [or_assoc]⟩
    have habsorb : JoinLattice.absorb s x = .ok t := by
      simp [JoinLattice.absorb, JoinLattice.joinWith, ht, bind, Except.bind, pure, Except.pure]
    rw [List.foldlM_cons, habsorb]
    exact hu

namespace Definitions

variable {oracle : Oracle} {d : Definitions}

def Generates (d : Definitions) (targets : List Ident) (k : Nat) : Prop :=
  ∃ i ∈ targets, ∃ r o, d.reference? i.pos = some r ∧ d.objectOf? r = some o ∧ r.index = k

def Kills (d : Definitions) (targets : List Ident) (k : Nat) : Prop :=
  ∃ i ∈ targets, ∃ r o, d.reference? i.pos = some r ∧ d.objectOf? r = some o ∧
    ∃ q ∈ d.references, q.id ∈ o.redefs ∧ q.id ≠ r.id ∧ q.index = k

theorem generates_cons {i : Ident} {targets : List Ident} {k : Nat} :
    d.Generates (i :: targets) k ↔ d.Generates [i] k ∨ d.Generates targets k := by
  simp [Generates, or_and_right, exists_or]

theorem kills_cons {i : Ident} {targets : List Ident} {k : Nat} :
    d.Kills (i :: targets) k ↔ d.Kills [i] k ∨ d.Kills targets k := by
  simp [Kills, or_and_right, exists_or]

theorem mem_filterMap_reference? (h : d.Dense oracle) {ids : List Pos} {q : Reference} :
    q ∈ ids.filterMap d.reference? ↔ q ∈ d.references ∧ q.id ∈ ids := by
  simp only [List.mem_filterMap, h.reference?_eq_some_iff]
  exact ⟨fun ⟨p, hp, hq, hid⟩ => ⟨hq, hid ▸ hp⟩, fun ⟨hq, hid⟩ => ⟨_, hid, hq, rfl⟩⟩

theorem addTarget_ok (h : d.Dense oracle) {gk : GenKill} (i : Ident)
    (hgens : gk.gens.Sized d.referenceCount) (hkills : gk.kills.Sized d.referenceCount) :
    ∃ gk', d.addTarget gk i = .ok gk' ∧ gk'.gens.Sized d.referenceCount ∧
      gk'.kills.Sized d.referenceCount ∧ (∀ k, k ∈ gk'.gens ↔ k ∈ gk.gens ∨ d.Generates [i] k) ∧
      ∀ k, k ∈ gk'.kills ↔ k ∈ gk.kills ∨ d.Kills [i] k := by
  cases hr : d.reference? i.pos with
  | none => exact ⟨gk, by simp [addTarget, hr], hgens, hkills, by simp [Generates, hr],
      by simp [Kills, hr]⟩
  | some r =>
    cases ho : d.objectOf? r with
    | none => exact ⟨gk, by simp [addTarget, hr, ho], hgens, hkills, by simp [Generates, hr, ho],
        by simp [Kills, hr, ho]⟩
    | some o =>
      have hmem := (h.reference?_eq_some_iff.mp hr).1
      obtain ⟨gens, new, hins, hvalid, hcap, hin⟩ := hgens.1.insert (hgens.2 ▸ h.index_lt hmem)
      have hothers : ∀ q ∈ (o.redefs.toList.filter (· ≠ r.id)).filterMap d.reference?,
          q.index < gk.kills.capacity := fun q hq =>
        hkills.2 ▸ h.index_lt ((mem_filterMap_reference? h).mp hq).1
      obtain ⟨kills, hfold, hkvalid, hkcap, hkin⟩ := hkills.1.insertAll Reference.index hothers
      refine ⟨⟨gens, kills⟩, ?_, ⟨hvalid, hcap.trans hgens.2⟩, ⟨hkvalid, hkcap.trans hkills.2⟩,
        fun k => ?_, fun k => ?_⟩
      · simp only [addTarget, hr, ho, hins, bind, Except.bind] at hfold ⊢
        rw [hfold]
        rfl
      · rw [hin]
        simp [Generates, hr, ho, eq_comm]
      · rw [hkin]
        simp only [mem_filterMap_reference? h, List.mem_filter, Std.ExtTreeSet.mem_toList,
          decide_eq_true_eq, Kills, List.mem_singleton, exists_eq_left, hr, Option.some.injEq]
        simp [ho, and_assoc]

theorem foldlM_addTarget_ok (h : d.Dense oracle) (gk : GenKill) (targets : List Ident)
    (hgens : gk.gens.Sized d.referenceCount) (hkills : gk.kills.Sized d.referenceCount) :
    ∃ gk', targets.foldlM d.addTarget gk = .ok gk' ∧ gk'.gens.Sized d.referenceCount ∧
      gk'.kills.Sized d.referenceCount ∧
      (∀ k, k ∈ gk'.gens ↔ k ∈ gk.gens ∨ d.Generates targets k) ∧
      ∀ k, k ∈ gk'.kills ↔ k ∈ gk.kills ∨ d.Kills targets k := by
  induction targets generalizing gk with
  | nil => exact ⟨gk, rfl, hgens, hkills, by simp [Generates], by simp [Kills]⟩
  | cons i targets ih =>
    obtain ⟨mid, hmid, hmgens, hmkills, hin, hout⟩ := addTarget_ok h i hgens hkills
    obtain ⟨gk', hgk', hgens', hkills', hin', hout'⟩ := ih mid hmgens hmkills
    refine ⟨gk', ?_, hgens', hkills', fun k => ?_, fun k => ?_⟩
    · rw [List.foldlM_cons, hmid]
      exact hgk'
    · rw [hin', hin, or_assoc, ← generates_cons]
    · rw [hout', hout, or_assoc, ← kills_cons]

theorem flow_ok (h : d.Dense oracle) (g : Graph) (l : Location) {input : BitSet}
    (hinput : input.Sized d.referenceCount) :
    ∃ output, (d.analysis g).flow l input = .ok output ∧ output.Sized d.referenceCount ∧
      ∀ k, k ∈ output ↔ (k ∈ input ∧ ¬ d.Kills (g.definedAt l) k) ∨
        d.Generates (g.definedAt l) k := by
  have hempty := BitSet.sized_empty d.referenceCount
  obtain ⟨gk, hgk, hgens, hkills, hin, hout⟩ :=
    foldlM_addTarget_ok h (.empty d.referenceCount) (g.definedAt l) hempty hempty
  obtain ⟨rest, _, hrest, hrvalid, hrcap, hrmem⟩ :=
    hinput.1.difference hkills.1 (hinput.2.trans hkills.2.symm)
  obtain ⟨output, _, houtput, hvalid, hcap, hmem⟩ :=
    hrvalid.union hgens.1 (hrcap.trans (hinput.2.trans hgens.2.symm))
  refine ⟨output, ?_, ⟨hvalid, hcap.trans (hrcap.trans hinput.2)⟩, fun k => ?_⟩
  · simp [analysis, Analysis.ofGenKill, genKill, genKillOf, hgk, GenKill.apply, hrest, houtput,
      bind, Except.bind, pure, Except.pure]
  · rw [hmem, hrmem, hin, hout]
    simp [GenKill.empty]

variable {g : Graph} {s : State BitSet g.slotCount}

theorem inputOf_ok (d : Definitions) {outputs : Vector BitSet g.slotCount}
    (houtputs : ∀ k : g.Slot, (outputs.get k).Sized d.referenceCount) (i : g.Slot) :
    ∃ input, (d.analysis g).inputOf g outputs i = .ok input ∧ input.Sized d.referenceCount ∧
      ∀ k, k ∈ input ↔ ∃ j ∈ g.sourceSlots i, k ∈ outputs.get j := by
  have hsources : ∀ x ∈ (g.sourceSlots i).map outputs.get, x.Sized d.referenceCount := by
    intro x hx
    obtain ⟨j, -, rfl⟩ := List.mem_map.mp hx
    exact houtputs j
  obtain ⟨input, hinput, hsized, hmem⟩ :=
    (BitSet.sized_empty d.referenceCount).foldlM_absorb hsources
  refine ⟨input, ?_, hsized, fun k => by rw [hmem]; simp⟩
  rw [Analysis.inputOf_eq]
  exact hinput

theorem outputs_sized (h : d.Dense oracle)
    (hs : (d.analysis g).Schedule g ((d.analysis g).start g) s) (i : g.Slot) :
    (s.outputs.get i).Sized d.referenceCount := by
  refine Analysis.outputs_of_schedule (P := fun _ y => y.Sized d.referenceCount)
    (fun _ => BitSet.sized_empty _) ?_ hs i
  intro outputs i x y houtputs hx hy
  obtain ⟨input, hinput, hsized, -⟩ := d.inputOf_ok houtputs i
  obtain rfl := Except.ok.inj (hinput.symm.trans hx)
  obtain ⟨output, houtput, hout, -⟩ := flow_ok h g (g.location i) hsized
  rwa [← Except.ok.inj (houtput.symm.trans hy)]

theorem mem_of_settled (h : d.Dense oracle)
    (hs : (d.analysis g).Schedule g ((d.analysis g).start g) s) {i : g.Slot}
    (hi : (d.analysis g).Settled g s i) :
    (s.inputs.get i).Sized d.referenceCount ∧
      (∀ k, k ∈ s.inputs.get i ↔ ∃ j ∈ g.sourceSlots i, k ∈ s.outputs.get j) ∧
      ∀ k, k ∈ s.outputs.get i ↔
        (k ∈ s.inputs.get i ∧ ¬ d.Kills (g.definedAt (g.location i)) k) ∨
          d.Generates (g.definedAt (g.location i)) k := by
  obtain ⟨input, hinput, hsized, hread⟩ := d.inputOf_ok (outputs_sized h hs) i
  obtain rfl := Except.ok.inj (hinput.symm.trans hi.1)
  obtain ⟨output, houtput, -, hflow⟩ := flow_ok h g (g.location i) hsized
  obtain rfl := Except.ok.inj (houtput.symm.trans hi.2)
  exact ⟨hsized, hread, hflow⟩

end Definitions

end Dependence
