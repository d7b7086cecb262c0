import Mathlib.Logic.Relation
import Dependence.Dataflow.Samples
import Dependence.Proofs.Slots

/-! What the worklist leaves behind. A visit is described once; from that it follows that every
location that is not pending agrees with the states it depends on, whatever the analysis and in
whatever order locations are visited. When none is pending the states solve all equations at once. -/

namespace Dependence

open JoinLattice

variable {L : Type}

def State.solution {g : Graph} (s : State L g.slotCount) : Solution L g :=
  ⟨s.inputs, s.outputs, s.pops⟩

@[simp] theorem State.solution_inputs {g : Graph} (s : State L g.slotCount) :
    s.solution.inputs = s.inputs := rfl

@[simp] theorem State.solution_outputs {g : Graph} (s : State L g.slotCount) :
    s.solution.outputs = s.outputs := rfl

theorem get_set {n : Nat} (v : Vector L n) (i k : Fin n) (x : L) :
    (v.set i.val x i.isLt).get k = if k = i then x else v.get k := by
  change (v.set i.val x i.isLt)[k.val] = _
  by_cases hki : k = i
  · subst hki
    rw [Vector.getElem_set_self, if_pos rfl]
  · rw [Vector.getElem_set_ne _ _ fun h => hki (Fin.ext h.symm), if_neg hki]
    rfl

theorem mem_enqueue {n : Nat} {pending : List (Fin n)} {i k : Fin n} :
    k ∈ enqueue pending i ↔ k ∈ pending ∨ k = i := by
  unfold enqueue
  split
  · next h => exact ⟨Or.inl, fun hk => hk.elim id fun hk => hk ▸ h⟩
  · simp

theorem mem_foldl_enqueue {n : Nat} {pending ks : List (Fin n)} {k : Fin n} :
    k ∈ ks.foldl enqueue pending ↔ k ∈ pending ∨ k ∈ ks := by
  induction ks generalizing pending with
  | nil => simp
  | cons i ks ih => rw [List.foldl_cons, ih, mem_enqueue, List.mem_cons, or_assoc]

namespace Analysis

variable [DecidableEq L] [JoinLattice L] {a : Analysis L} {g : Graph}

/-- The equations of an analysis between the states before and after the locations of a function.
A later statement of a block takes over from the one before it, and the first location of a block
joins what comes from outside and from the last locations of the predecessors, in their order. -/
structure Solves (a : Analysis L) (g : Graph) (input output : Location → L) : Prop where
  flow : ∀ {l : Location}, g.contains l = true → a.flow l (input l) = .ok (output l)
  entry : input .entry = a.bottom
  later : ∀ {b s : Nat}, g.contains (.point b (s + 1)) = true →
    absorb a.bottom (output (.point b s)) = .ok (input (.point b (s + 1)))
  first : ∀ {b : Nat} {block : Block}, g.blocks[b]? = some block →
    ∃ lasts, block.prev.mapM g.lastLocation? = some lasts ∧
      (((if b = 0 ∨ block.prev = [] then [Location.entry] else []) ++ lasts).map output).foldlM
        absorb a.bottom = .ok (input (.point b 0))

def Step (a : Analysis L) (g : Graph) (s t : State L g.slotCount) : Prop :=
  ∃ i ∈ s.pending, a.visit g s i = .ok t

abbrev Schedule (a : Analysis L) (g : Graph) : State L g.slotCount → State L g.slotCount → Prop :=
  Relation.ReflTransGen (a.Step g)

def Settled (a : Analysis L) (g : Graph) (s : State L g.slotCount) (i : g.Slot) : Prop :=
  a.inputOf g s.outputs i = .ok (s.inputs.get i) ∧
    a.flow (g.location i) (s.inputs.get i) = .ok (s.outputs.get i)

theorem inputOf_eq (outputs : Vector L g.slotCount) (i : g.Slot) :
    a.inputOf g outputs i = ((g.sourceSlots i).map outputs.get).foldlM absorb a.bottom := by
  rw [inputOf, List.foldlM_map]
  rfl

theorem inputOf_congr {outputs outputs' : Vector L g.slotCount} {k : g.Slot}
    (h : ∀ j ∈ g.sourceSlots k, outputs.get j = outputs'.get j) :
    a.inputOf g outputs k = a.inputOf g outputs' k := by
  rw [inputOf_eq, inputOf_eq, List.map_congr_left h]

theorem visit_ok {s t : State L g.slotCount} {i : g.Slot} (h : a.visit g s i = .ok t) :
    ∃ x y, a.inputOf g s.outputs i = .ok x ∧ a.flow (g.location i) x = .ok y ∧
      (∀ k, t.inputs.get k = if k = i then x else s.inputs.get k) ∧
      (∀ k, t.outputs.get k = if k = i then y else s.outputs.get k) ∧
      (∀ k, k ∈ t.pending ↔ k ∈ s.pending.erase i ∨
        (y ≠ s.outputs.get i ∧ k ∈ g.dependentSlots i)) ∧
      t.pops = s.pops + 1 := by
  unfold visit at h
  obtain ⟨x, hx, h⟩ := bind_eq_ok.mp h
  obtain ⟨y, hy, h⟩ := bind_eq_ok.mp h
  refine ⟨x, y, hx, hy, ?_⟩
  split at h
  · next heq =>
    have hsame : y = s.outputs.get i := heq
    obtain rfl := Except.ok.inj h
    refine ⟨fun k => get_set _ _ _ _, fun k => ?_, by simp [hsame], rfl⟩
    split
    · next hki => rw [hki, hsame]
    · rfl
  · next hne =>
    have hnew : y ≠ s.outputs.get i := hne
    obtain rfl := Except.ok.inj h
    exact ⟨fun k => get_set _ _ _ _, fun k => get_set _ _ _ _,
      fun k => by simp [mem_foldl_enqueue, hnew], rfl⟩

/-- A visit settles its location and can only unsettle locations that are pending afterwards. -/
theorem settled_of_visit (hg : g.Consistent) {s t : State L g.slotCount} {i : g.Slot}
    (hs : ∀ k ∉ s.pending, a.Settled g s k) (h : a.visit g s i = .ok t) :
    ∀ k ∉ t.pending, a.Settled g t k := by
  obtain ⟨x, y, hx, hy, hin, hout, hpending, -⟩ := visit_ok h
  intro k hk
  rw [hpending, not_or, not_and] at hk
  have hread : a.inputOf g t.outputs k = a.inputOf g s.outputs k := by
    refine inputOf_congr fun j hj => ?_
    rw [hout]
    split
    · next hji =>
      -- a location that reads what has changed would be pending
      subst hji
      by_contra hne
      exact hk.2 hne (hg.mem_dependentSlots_of_mem_sourceSlots hj)
    · rfl
  unfold Settled
  rw [hread, hin, hout]
  by_cases hki : k = i
  · subst hki
    simpa using ⟨hx, hy⟩
  · rw [if_neg hki, if_neg hki]
    exact hs k fun hmem => hk.1 ((List.mem_erase_of_ne hki).mpr hmem)

theorem settled_of_schedule (hg : g.Consistent) {s : State L g.slotCount}
    (h : a.Schedule g (a.start g) s) : ∀ k ∉ s.pending, a.Settled g s k := by
  induction h with
  | refl => exact fun k hk => absurd (List.mem_finRange k) hk
  | tail _ hstep ih =>
    obtain ⟨i, -, hvisit⟩ := hstep
    exact settled_of_visit hg ih hvisit

theorem outputs_of_schedule {P : g.Slot → L → Prop} (hstart : ∀ i, P i a.bottom)
    (hvisit : ∀ (outputs : Vector L g.slotCount) (i : g.Slot) (x y : L),
      (∀ k : g.Slot, P k (outputs.get k)) → a.inputOf g outputs i = .ok x →
        a.flow (g.location i) x = .ok y → P i y)
    {s : State L g.slotCount} (h : a.Schedule g (a.start g) s) :
    ∀ k : g.Slot, P k (s.outputs.get k) := by
  induction h with
  | refl =>
    intro k
    change P k (Vector.replicate g.slotCount a.bottom)[k.val]
    simpa using hstart k
  | tail _ hstep ih =>
    obtain ⟨i, -, hv⟩ := hstep
    obtain ⟨x, y, hx, hy, -, hout, -, -⟩ := visit_ok hv
    intro k
    rw [hout]
    by_cases hki : k = i
    · subst hki
      simpa using hvisit _ k x y ih hx hy
    · rw [if_neg hki]
      exact ih k

theorem schedule_of_run {n : Nat} {s t : State L g.slotCount} (h : a.run g n s = .ok (some t)) :
    a.Schedule g s t ∧ t.pending = [] := by
  induction n generalizing s with
  | zero =>
    simp only [run, Except.ok.injEq, Option.ite_none_right_eq_some, List.isEmpty_iff,
      Option.some.injEq] at h
    exact ⟨h.2 ▸ .refl, h.2 ▸ h.1⟩
  | succ n ih =>
    unfold run at h
    split at h
    · next hnil =>
      obtain rfl : s = t := by simpa using h
      exact ⟨.refl, hnil⟩
    · next i rest hcons =>
      obtain ⟨u, hu, h⟩ := bind_eq_ok.mp h
      obtain ⟨hrest, hempty⟩ := ih h
      exact ⟨.head ⟨i, by simp [hcons], hu⟩ hrest, hempty⟩

theorem schedule_of_solve {limit : Nat} {sol : Solution L g} (h : a.solve g limit = .ok sol) :
    ∃ s, a.Schedule g (a.start g) s ∧ s.pending = [] ∧ sol = s.solution := by
  unfold solve at h
  obtain ⟨final, hrun, h⟩ := bind_eq_ok.mp h
  cases final with
  | none => simp [throw, throwThe, MonadExceptOf.throw] at h
  | some s =>
    obtain ⟨hs, hempty⟩ := schedule_of_run hrun
    exact ⟨s, hs, hempty, (Except.ok.inj h).symm⟩

theorem solves_iff_sources (hg : g.Consistent) {input output : Location → L} :
    a.Solves g input output ↔ ∀ l, g.contains l = true →
      ((g.sources l).map output).foldlM absorb a.bottom = .ok (input l) ∧
        a.flow l (input l) = .ok (output l) := by
  constructor
  · intro h l hl
    refine ⟨?_, h.flow hl⟩
    match l, hl with
    | .entry, _ => exact congrArg Except.ok h.entry.symm
    | .point b (s + 1), hl => simpa [Graph.sources] using h.later hl
    | .point b 0, hl =>
      obtain ⟨block, hb, -⟩ := Graph.contains_point.mp hl
      obtain ⟨lasts, hlasts, hjoin⟩ := h.first hb
      rw [Graph.mapM_lastLocation? fun p hp => (hg.prev hb hp).imp fun _ h => h.1] at hlasts
      rwa [Graph.sources_first hb, Option.some.inj hlasts]
  · intro h
    refine ⟨fun hl => (h _ hl).2, ?_, fun {b s} hl => ?_, fun {b block} hb => ?_⟩
    · exact (Except.ok.inj (h .entry rfl).1).symm
    · simpa [Graph.sources] using (h _ hl).1
    · refine ⟨_, Graph.mapM_lastLocation? fun p hp => (hg.prev hb hp).imp fun _ h => h.1, ?_⟩
      rw [← Graph.sources_first hb]
      exact (h _ (Graph.contains_point.mpr ⟨block, hb, block.locationCount_pos⟩)).1

end Analysis

namespace Solution

variable {g : Graph}

theorem input?_location (sol : Solution L g) (i : g.Slot) :
    sol.input? (g.location i) = some (sol.inputs.get i) := by
  rw [input?, Graph.slotOf?_location]
  rfl

theorem output?_location (sol : Solution L g) (i : g.Slot) :
    sol.output? (g.location i) = some (sol.outputs.get i) := by
  rw [output?, Graph.slotOf?_location]
  rfl

variable [DecidableEq L] [JoinLattice L] {a : Analysis L}

def Fulfils (sol : Solution L g) (a : Analysis L) : Prop :=
  ∃ input output : Location → L,
    (∀ l, g.contains l = true → sol.input? l = some (input l) ∧ sol.output? l = some (output l)) ∧
      a.Solves g input output

theorem fulfils_of_settled (hg : g.Consistent) {s : State L g.slotCount}
    (h : ∀ i, a.Settled g s i) : s.solution.Fulfils a := by
  refine ⟨fun l => (s.solution.input? l).getD a.bottom,
    fun l => (s.solution.output? l).getD a.bottom, fun l hl => ?_,
    (Analysis.solves_iff_sources hg).mpr fun l hl => ?_⟩
  · obtain ⟨i, rfl⟩ := Graph.exists_slot_of_contains hl
    simp [input?_location, output?_location]
  · obtain ⟨i, rfl⟩ := Graph.exists_slot_of_contains hl
    obtain ⟨hin, hout⟩ := h i
    rw [Analysis.inputOf_eq] at hin
    simp only [input?_location, output?_location, Option.getD_some, State.solution_inputs,
      State.solution_outputs]
    refine ⟨?_, hout⟩
    rw [← Graph.map_location_sourceSlots, List.map_map]
    simpa [Function.comp_def, output?_location] using hin

theorem fulfils_of_schedule (hg : g.Consistent) {s : State L g.slotCount}
    (h : a.Schedule g (a.start g) s) (hempty : s.pending = []) : s.solution.Fulfils a :=
  fulfils_of_settled hg fun i => Analysis.settled_of_schedule hg h i (by simp [hempty])

end Solution

/-- Whatever the analysis is, an answer of the solver satisfies all of its equations. -/
theorem fulfils_of_solve [DecidableEq L] [JoinLattice L] {a : Analysis L} {g : Graph}
    (hg : g.Accepted) {limit : Nat} {sol : Solution L g} (h : a.solve g limit = .ok sol) :
    sol.Fulfils a := by
  obtain ⟨s, hs, hempty, rfl⟩ := Analysis.schedule_of_solve h
  exact Solution.fulfils_of_schedule hg.consistent hs hempty

/-- Two blocks that lead to each other, with a statement before the jump in the second one. -/
def Graph.seesaw : Graph :=
  ⟨"seesaw", ⟨[], [], []⟩, [⟨[], [1], [1]⟩, ⟨[.other [], .other []], [0], [0]⟩]⟩

theorem Graph.seesaw_accepted : seesaw.Accepted :=
  .body (show ofBlocks seesaw.name seesaw.signature seesaw.blocks = .ok seesaw from rfl)

theorem fulfils_of_solve_seesaw :
    Graph.seesaw.Accepted ∧
      ∃ sol, (Analysis.longest 4 []).solve Graph.seesaw 20 = .ok sol ∧
        sol.outputs.toList = [1, 4, 4, 4] ∧ sol.Fulfils (Analysis.longest 4 []) :=
  ⟨Graph.seesaw_accepted, ⟨#v[0, 4, 4, 4], #v[1, 4, 4, 4], 7⟩, rfl, rfl,
    fulfils_of_solve Graph.seesaw_accepted (show Analysis.solve _ _ 20 = _ from rfl)⟩

end Dependence
