import Dependence.Proofs.Directories
import Dependence.Proofs.ObjectOrder
import Dependence.Proofs.SetAnalyses

/-! The analysis of a function never faults. Every place where a variable gets a value has a reference,
references are numbered without gaps, and the sets of an analysis all have room for as many members as
there are references; so no number is too large for its set and no two sets differ in size. -/

namespace Dependence

namespace Definitions

variable {oracle : Oracle} {d : Definitions} {g : Graph} {s : State BitSet g.slotCount}

theorem genKill_sized (h : d.Dense oracle) (g : Graph) (l : Location) :
    ∃ gk, d.genKill g l = .ok gk ∧ gk.gens.Sized d.referenceCount ∧
      gk.kills.Sized d.referenceCount := by
  have hempty := BitSet.sized_empty d.referenceCount
  obtain ⟨gk, hgk, hgens, hkills, -⟩ :=
    foldlM_addTarget_ok h (.empty d.referenceCount) (g.definedAt l) hempty hempty
  exact ⟨gk, hgk, hgens, hkills⟩

theorem exists_visit_of_schedule (h : d.Dense oracle)
    (hs : (d.analysis g).Schedule g ((d.analysis g).start g) s) (i : g.Slot) :
    ∃ t, (d.analysis g).visit g s i = .ok t := by
  obtain ⟨input, hinput, hsized, -⟩ := d.inputOf_ok (outputs_sized h hs) i
  obtain ⟨output, houtput, -⟩ := flow_ok h g (g.location i) hsized
  obtain ⟨t, ht, -⟩ := Analysis.exists_visit hinput houtput
  exact ⟨t, ht⟩

theorem solve_cases (h : d.Dense oracle) (g : Graph) (m : Nat) :
    (∃ sol, (d.analysis g).solve g m = .ok sol) ∨
      (d.analysis g).solve g m = .error (.fixpointNotReached g.name (m + 1)) := by
  rcases Analysis.turns_cases (d.analysis g) g m ((d.analysis g).start g) with
    ⟨k, hk, t, ht, hempty⟩ | ⟨t, i, rest, ht, hwait⟩ | ⟨k, -, e, t, i, rest, ht, -, he⟩
  · exact .inl ⟨t.solution, Analysis.EndsAfter.solve ⟨t, ht, hempty, rfl⟩ hk⟩
  · exact .inr (Analysis.solve_of_waiting ht hwait)
  · -- the visit that is said to fail is one of a state that a run comes to
    obtain ⟨t', ht'⟩ := exists_visit_of_schedule h ht.schedule i
    rw [ht'] at he
    cases he

end Definitions

theorem Graph.lt_slotCount_of_slot? {g : Graph} {l : Location} {k : Nat} (h : g.slot? l = some k) :
    k < g.slotCount :=
  (List.getElem?_eq_some_iff.mp (getElem?_locations_of_slot? h)).1

namespace Reaching

variable {oracle : Oracle} {d : Definitions}

theorem solve_cases (h : d.Dense oracle) (g : Graph) (config : Config) :
    (∃ result, solve g d config = .ok result) ∨
      ∃ m, config.maxIterations = some m ∧
        solve g d config = .error (.fixpointNotReached g.name (m + 1)) := by
  unfold solve
  cases hconfig : config.maxIterations with
  | none =>
    obtain ⟨k, hk, sol, hend⟩ :=
      (h.monotoneOn_analysis g).exists_endsAfter (BitSet.heightAtMost_sized _)
    left
    rw [Option.getD_none, patience, hend.solve hk]
    exact ⟨_, rfl⟩
  | some m =>
    rw [Option.getD_some]
    rcases d.solve_cases h g m with ⟨sol, hsol⟩ | hgiven
    · left
      rw [hsol]
      exact ⟨_, rfl⟩
    · right
      rw [hgiven]
      exact ⟨m, rfl, rfl⟩

end Reaching

/-- Whatever the oracle answers, the tables are built and read without a place that is out of range, and
every place where an object gets a value leads to a reference with a number that fits the sets. At every
location the sets that are generated and killed have the capacity of all others; every visit of every
run succeeds, with numbers of locations in range. So the analysis ends well unless the limit that is set
for it is too small. -/
theorem analysis_never_faults (g : Graph) (oracle : Oracle) (config : Config) :
    ∃ t, Registry.find g oracle = .ok t ∧ t.definitions = .find g oracle ∧
      (∀ o ∈ t.definitions.objects, ∀ p ∈ o.redefs, ∃ r, t.references.lookup p = .ok (some r) ∧
        r.index < t.definitions.referenceCount) ∧
      (∀ l, ∃ gk, t.genKill g l = .ok gk ∧ t.definitions.genKill g l = .ok gk ∧
        gk.gens.Sized t.definitions.referenceCount ∧ gk.kills.Sized t.definitions.referenceCount) ∧
      (∀ l k, g.slot? l = some k → k < g.slotCount) ∧
      (∀ s, (t.definitions.analysis g).Schedule g ((t.definitions.analysis g).start g) s →
        ∀ i, (s.outputs.get i).Sized t.definitions.referenceCount ∧
          ∃ s', (t.definitions.analysis g).visit g s i = .ok s') ∧
      ((∃ result, Reaching.solve g (.find g oracle) config = .ok result) ∨
        ∃ m, config.maxIterations = some m ∧ Reaching.solve g (.find g oracle) config =
          .error (.fixpointNotReached g.name (m + 1))) := by
  obtain ⟨t, hfind, ht, hdefs⟩ := Registry.simulates_find g oracle
  have hdense := (Definitions.dense_find g oracle).1
  have hanchored := Definitions.anchored_find g oracle
  have hsolve := Reaching.solve_cases hdense g config
  rw [← hdefs] at hdense hanchored
  refine ⟨t, hfind, hdefs, fun o ho p hp => ?_, fun l => ?_, fun l k => Graph.lt_slotCount_of_slot?,
    fun s hs i => ?_, hsolve⟩
  · obtain ⟨r, hr, rfl⟩ := List.mem_map.mp (hanchored o ho p hp)
    rw [ht.lookup_reference, hdense.reference?_eq_some_iff.mpr ⟨hr, rfl⟩]
    exact ⟨r, rfl, hdense.index_lt hr⟩
  · rw [ht.genKill_eq]
    obtain ⟨gk, hgk, hsized⟩ := Definitions.genKill_sized hdense g l
    exact ⟨gk, hgk, hgk, hsized⟩
  · exact ⟨Definitions.outputs_sized hdense hs i, Definitions.exists_visit_of_schedule hdense hs i⟩

end Dependence
