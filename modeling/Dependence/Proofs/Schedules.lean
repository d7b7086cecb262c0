import Mathlib.Data.List.Forall2
import Dependence.Proofs.Equations

/-! For a monotone analysis the order of visits has no influence on the states that are found. Every
schedule stays below every solution of the equations, so one that comes to an end does so in the
least solution. -/

namespace Dependence

open JoinLattice

variable {L : Type} [DecidableEq L] [JoinLattice L]

def JoinLattice.Below (x y : L) : Prop := join x y = .ok y

/-- The laws of a join on a set of states that it does not leave. States outside of the set, such as
bit sets of another capacity, need not have a join. -/
structure LawfulOn (S : L → Prop) : Prop where
  closed : ∀ {x y : L}, S x → S y → ∃ z, S z ∧ join x y = .ok z
  idem : ∀ {x : L}, S x → join x x = .ok x
  comm : ∀ {x y : L}, S x → S y → join x y = join y x
  assoc : ∀ {x y z : L}, S x → S y → S z →
    (join x y >>= fun w => join w z) = (join y z >>= fun w => join x w)
  joinWith_eq : ∀ {x y : L}, S x → S y → joinWith x y = derivedJoinWith join x y

namespace LawfulOn

variable {S : L → Prop} {x y z w : L}

theorem absorb_eq (h : LawfulOn S) (hx : S x) (hy : S y) : absorb x y = join x y := by
  obtain ⟨z, -, hz⟩ := h.closed hx hy
  simp [absorb, h.joinWith_eq hx hy, derivedJoinWith, hz, bind, Except.bind, pure, Except.pure]

theorem below_join_left (h : LawfulOn S) (hx : S x) (hy : S y) (hz : join x y = .ok z) :
    Below x z := by
  have hassoc := h.assoc hx hx hy
  rw [h.idem hx, hz] at hassoc
  exact hassoc.symm.trans hz

theorem below_join_right (h : LawfulOn S) (hx : S x) (hy : S y) (hz : join x y = .ok z) :
    Below y z :=
  h.below_join_left hy hx (h.comm hy hx ▸ hz)

theorem join_below (h : LawfulOn S) (hx : S x) (hy : S y) (hw : S w) (hz : join x y = .ok z)
    (hxw : Below x w) (hyw : Below y w) : Below z w := by
  have hassoc := h.assoc hx hy hw
  rw [hz, show join y w = .ok w from hyw] at hassoc
  exact hassoc.trans hxw

theorem below_trans (h : LawfulOn S) (hx : S x) (hy : S y) (hz : S z) (hxy : Below x y)
    (hyz : Below y z) : Below x z := by
  have hassoc := h.assoc hx hy hz
  rw [show join x y = .ok y from hxy, show join y z = .ok z from hyz] at hassoc
  exact hassoc.symm.trans hyz

theorem below_antisymm (h : LawfulOn S) (hx : S x) (hy : S y) (hxy : Below x y)
    (hyx : Below y x) : x = y :=
  Except.ok.inj (hyx.symm.trans ((h.comm hy hx).trans hxy))

theorem join_mono (h : LawfulOn S) {x' y' z' : L} (hx : S x) (hx' : S x') (hy : S y) (hy' : S y')
    (hz' : S z') (hxx : Below x x') (hyy : Below y y') (h₁ : join x y = .ok z)
    (h₂ : join x' y' = .ok z') : Below z z' :=
  h.join_below hx hy hz' h₁
    (h.below_trans hx hx' hz' hxx (h.below_join_left hx' hy' h₂))
    (h.below_trans hy hy' hz' hyy (h.below_join_right hx' hy' h₂))

theorem foldlM_absorb_mono (h : LawfulOn S) {xs ys : List L}
    (hall : List.Forall₂ (fun x y => S x ∧ S y ∧ Below x y) xs ys) (hx : S x) (hy : S y)
    (hxy : Below x y) :
    ∃ x' y', xs.foldlM absorb x = .ok x' ∧ ys.foldlM absorb y = .ok y' ∧
      S x' ∧ S y' ∧ Below x' y' := by
  induction hall generalizing x y with
  | nil => exact ⟨x, y, rfl, rfl, hx, hy, hxy⟩
  | @cons u v us vs huv _ ih =>
    obtain ⟨hu, hv, huv⟩ := huv
    obtain ⟨x', hx', hxu⟩ := h.closed hx hu
    obtain ⟨y', hy', hyv⟩ := h.closed hy hv
    have hstep : Below x' y' := h.join_mono hx hy hu hv hy' hxy huv hxu hyv
    rw [List.foldlM_cons, List.foldlM_cons, h.absorb_eq hx hu, h.absorb_eq hy hv, hxu, hyv]
    exact ih hx' hy' hstep

theorem foldlM_absorb_mem (h : LawfulOn S) {xs : List L} (hxs : ∀ z ∈ xs, S z) (hx : S x)
    (hy : xs.foldlM absorb x = .ok y) : S y := by
  have hall : List.Forall₂ (fun x y => S x ∧ S y ∧ Below x y) xs xs :=
    List.forall₂_same.mpr fun z hz => ⟨hxs z hz, hxs z hz, h.idem (hxs z hz)⟩
  obtain ⟨y', -, hy', -, hmem, -⟩ := h.foldlM_absorb_mono hall hx hx (h.idem hx)
  rwa [Except.ok.inj (hy'.symm.trans hy)] at hmem

end LawfulOn

namespace Analysis

variable {a : Analysis L} {g : Graph} {S : L → Prop}

structure MonotoneOn (a : Analysis L) (g : Graph) (S : L → Prop) : Prop where
  lawful : LawfulOn S
  bottom : S a.bottom
  least : ∀ {x : L}, S x → Below a.bottom x
  closed : ∀ {l : Location} {x : L}, g.contains l = true → S x → ∃ y, S y ∧ a.flow l x = .ok y
  monotone : ∀ {l : Location} {x x' y y' : L}, g.contains l = true → S x → S x' → Below x x' →
    a.flow l x = .ok y → a.flow l x' = .ok y' → Below y y'

structure SolvesIn (a : Analysis L) (g : Graph) (S : L → Prop) (input output : Location → L) :
    Prop extends a.Solves g input output where
  inputs : ∀ {l : Location}, g.contains l = true → S (input l)
  outputs : ∀ {l : Location}, g.contains l = true → S (output l)

theorem MonotoneOn.below_of_visit (ha : a.MonotoneOn g S) (hg : g.Consistent)
    {input output : Location → L} (hsol : a.SolvesIn g S input output)
    {outputs : Vector L g.slotCount} {i : g.Slot} {x y : L}
    (hbelow : ∀ k : g.Slot, S (outputs.get k) ∧ Below (outputs.get k) (output (g.location k)))
    (hx : a.inputOf g outputs i = .ok x) (hy : a.flow (g.location i) x = .ok y) :
    (S x ∧ Below x (input (g.location i))) ∧ S y ∧ Below y (output (g.location i)) := by
  have hi := Graph.contains_location i
  obtain ⟨hread, hflow⟩ := (solves_iff_sources hg).mp hsol.toSolves _ hi
  have hall : List.Forall₂ (fun x y => S x ∧ S y ∧ Below x y)
      ((g.sourceSlots i).map outputs.get)
      ((g.sourceSlots i).map fun j => output (g.location j)) := by
    rw [List.forall₂_map_left_iff, List.forall₂_map_right_iff, List.forall₂_same]
    intro j _
    exact ⟨(hbelow j).1, hsol.outputs (Graph.contains_location j), (hbelow j).2⟩
  obtain ⟨x', x'', hx', hx'', hSx, hSx'', hle⟩ :=
    ha.lawful.foldlM_absorb_mono hall ha.bottom ha.bottom (ha.least ha.bottom)
  obtain rfl : x' = x := Except.ok.inj (hx'.symm.trans (inputOf_eq outputs i ▸ hx))
  rw [← Graph.map_location_sourceSlots, List.map_map] at hread
  obtain rfl : x'' = input (g.location i) := Except.ok.inj (hx''.symm.trans hread)
  obtain ⟨y', hSy, hy'⟩ := ha.closed hi hSx
  obtain rfl : y' = y := Except.ok.inj (hy'.symm.trans hy)
  exact ⟨⟨hSx, hle⟩, hSy, ha.monotone hi hSx hSx'' hle hy hflow⟩

theorem MonotoneOn.outputs_below (ha : a.MonotoneOn g S) (hg : g.Consistent)
    {input output : Location → L} (hsol : a.SolvesIn g S input output)
    {s : State L g.slotCount} (h : a.Schedule g (a.start g) s) (i : g.Slot) :
    S (s.outputs.get i) ∧ Below (s.outputs.get i) (output (g.location i)) := by
  refine outputs_of_schedule (P := fun i y => S y ∧ Below y (output (g.location i))) ?_ ?_ h i
  · exact fun i => ⟨ha.bottom, ha.least (hsol.outputs (Graph.contains_location i))⟩
  · exact fun outputs i x y hbelow hx hy => (ha.below_of_visit hg hsol hbelow hx hy).2

theorem MonotoneOn.outputs_mem (ha : a.MonotoneOn g S) {s : State L g.slotCount}
    (h : a.Schedule g (a.start g) s) (i : g.Slot) : S (s.outputs.get i) := by
  refine outputs_of_schedule (P := fun _ y => S y) (fun _ => ha.bottom) ?_ h i
  intro outputs i x y hmem hx hy
  have hSx : S x := ha.lawful.foldlM_absorb_mem (fun z hz => by
    obtain ⟨j, -, rfl⟩ := List.mem_map.mp hz
    exact hmem j) ha.bottom (inputOf_eq outputs i ▸ hx)
  obtain ⟨y', hSy, hy'⟩ := ha.closed (Graph.contains_location i) hSx
  obtain rfl : y' = y := Except.ok.inj (hy'.symm.trans hy)
  exact hSy

end Analysis

namespace Solution

variable {a : Analysis L} {g : Graph} {S : L → Prop}

def IsLeast (sol : Solution L g) (a : Analysis L) (S : L → Prop) : Prop :=
  ∃ input output : Location → L,
    (∀ l, g.contains l = true → sol.input? l = some (input l) ∧ sol.output? l = some (output l)) ∧
      a.SolvesIn g S input output ∧
      ∀ input' output' : Location → L, a.SolvesIn g S input' output' →
        ∀ l, g.contains l = true → Below (input l) (input' l) ∧ Below (output l) (output' l)

theorem isLeast_of_schedule (hg : g.Consistent) (ha : a.MonotoneOn g S) {s : State L g.slotCount}
    (h : a.Schedule g (a.start g) s) (hempty : s.pending = []) : s.solution.IsLeast a S := by
  have hsettled : ∀ i, a.Settled g s i :=
    fun i => Analysis.settled_of_schedule hg h i (by simp [hempty])
  obtain ⟨input, output, hat, hsolves⟩ := fulfils_of_schedule hg h hempty
  have hin : ∀ i : g.Slot, s.inputs.get i = input (g.location i) := fun i => by
    simpa [input?_location] using (hat _ (Graph.contains_location i)).1
  have hout : ∀ i : g.Slot, s.outputs.get i = output (g.location i) := fun i => by
    simpa [output?_location] using (hat _ (Graph.contains_location i)).2
  -- The states before locations are made from those after, so the bounds carry over to them.
  have hbelow {input' output' : Location → L} (hsol : a.SolvesIn g S input' output') (i : g.Slot) :=
    ha.below_of_visit hg hsol (ha.outputs_below hg hsol h) (hsettled i).1 (hsettled i).2
  have hown : a.SolvesIn g S input output := by
    have houts : ∀ {l : Location}, g.contains l = true → S (output l) := fun hl => by
      obtain ⟨i, rfl⟩ := Graph.exists_slot_of_contains hl
      exact hout i ▸ ha.outputs_mem h i
    refine ⟨hsolves, fun {l} hl => ?_, houts⟩
    obtain ⟨hread, -⟩ := (Analysis.solves_iff_sources hg).mp hsolves l hl
    refine ha.lawful.foldlM_absorb_mem (fun z hz => ?_) ha.bottom hread
    obtain ⟨k, hk, rfl⟩ := List.mem_map.mp hz
    exact houts (Graph.contains_of_mem_sources hl hk)
  refine ⟨input, output, hat, hown, fun input' output' hsol l hl => ?_⟩
  obtain ⟨i, rfl⟩ := Graph.exists_slot_of_contains hl
  rw [← hin, ← hout]
  exact ⟨(hbelow hsol i).1.2, (hbelow hsol i).2.2⟩

theorem IsLeast.unique (ha : a.MonotoneOn g S) {sol sol' : Solution L g} (h : sol.IsLeast a S)
    (h' : sol'.IsLeast a S) : sol.inputs = sol'.inputs ∧ sol.outputs = sol'.outputs := by
  obtain ⟨input, output, hat, hsol, hleast⟩ := h
  obtain ⟨input', output', hat', hsol', hleast'⟩ := h'
  have hsame : ∀ i : g.Slot, sol.inputs.get i = sol'.inputs.get i ∧
      sol.outputs.get i = sol'.outputs.get i := fun i => by
    have hl := Graph.contains_location i
    obtain ⟨hin, hout⟩ := hat _ hl
    obtain ⟨hin', hout'⟩ := hat' _ hl
    rw [input?_location, Option.some.injEq] at hin hin'
    rw [output?_location, Option.some.injEq] at hout hout'
    rw [hin, hin', hout, hout']
    obtain ⟨hle, hle'⟩ := And.intro (hleast _ _ hsol' _ hl) (hleast' _ _ hsol _ hl)
    exact ⟨ha.lawful.below_antisymm (hsol.inputs hl) (hsol'.inputs hl) hle.1 hle'.1,
      ha.lawful.below_antisymm (hsol.outputs hl) (hsol'.outputs hl) hle.2 hle'.2⟩
  exact ⟨Vector.ext fun i hi => (hsame ⟨i, hi⟩).1, Vector.ext fun i hi => (hsame ⟨i, hi⟩).2⟩

end Solution

/-- A schedule that leaves nothing pending has found the least solution, which is therefore also the
end of every other schedule and the answer of the solver. -/
theorem schedule_finds_least {a : Analysis L} {g : Graph} {S : L → Prop} (hg : g.Accepted)
    (ha : a.MonotoneOn g S) {s : State L g.slotCount} (h : a.Schedule g (a.start g) s)
    (hempty : s.pending = []) :
    s.solution.IsLeast a S ∧
      (∀ t, a.Schedule g (a.start g) t → t.pending = [] →
        t.inputs = s.inputs ∧ t.outputs = s.outputs) ∧
      ∀ limit sol, a.solve g limit = .ok sol →
        sol.inputs = s.inputs ∧ sol.outputs = s.outputs := by
  have hleast := Solution.isLeast_of_schedule hg.consistent ha h hempty
  have hsame : ∀ t, a.Schedule g (a.start g) t → t.pending = [] →
      t.inputs = s.inputs ∧ t.outputs = s.outputs := fun t ht hdone =>
    (Solution.isLeast_of_schedule hg.consistent ha ht hdone).unique ha hleast
  refine ⟨hleast, hsame, fun limit sol hsolve => ?_⟩
  obtain ⟨t, ht, hdone, rfl⟩ := Analysis.schedule_of_solve hsolve
  exact hsame t ht hdone

theorem below_nat_iff {x y : Nat} : Below x y ↔ x ≤ y := by
  simp only [Below, join, Except.ok.injEq]
  omega

theorem lawfulOn_nat : LawfulOn fun _ : Nat => True where
  closed {x y} _ _ := ⟨max x y, trivial, rfl⟩
  idem {x} _ := congrArg Except.ok (Nat.max_self x)
  comm {x y} _ _ := congrArg Except.ok (Nat.max_comm x y)
  assoc {x y z} _ _ _ := congrArg Except.ok (Nat.max_assoc x y z)
  joinWith_eq _ _ := rfl

theorem Analysis.longest_monotoneOn (cap : Nat) (weights : List (Location × Nat)) (g : Graph) :
    (longest cap weights).MonotoneOn g fun _ => True where
  lawful := lawfulOn_nat
  bottom := trivial
  least _ := below_nat_iff.mpr (Nat.zero_le _)
  closed _ _ := ⟨_, trivial, rfl⟩
  monotone {l x x' y y'} _ _ _ hle hy hy' := by
    rw [below_nat_iff] at hle ⊢
    rw [← Except.ok.inj hy, ← Except.ok.inj hy']
    omega

theorem schedule_finds_least_seesaw :
    Graph.seesaw.Accepted ∧
      (Analysis.longest 4 []).MonotoneOn Graph.seesaw (fun _ => True) ∧
      ∃ s, (Analysis.longest 4 []).Schedule Graph.seesaw ((Analysis.longest 4 []).start _) s ∧
        s.pending = [] ∧ s.outputs.toList = [1, 4, 4, 4] ∧
        s.solution.IsLeast (Analysis.longest 4 []) fun _ => True := by
  have hrun : (Analysis.longest 4 []).run Graph.seesaw 20 ((Analysis.longest 4 []).start _) =
      .ok (some ⟨#v[0, 4, 4, 4], #v[1, 4, 4, 4], [], 7⟩) := rfl
  have hmono := Analysis.longest_monotoneOn 4 [] Graph.seesaw
  obtain ⟨hschedule, hempty⟩ := Analysis.schedule_of_run hrun
  exact ⟨Graph.seesaw_accepted, hmono, _, hschedule, hempty, rfl,
    (schedule_finds_least Graph.seesaw_accepted hmono hschedule hempty).1⟩

end Dependence
