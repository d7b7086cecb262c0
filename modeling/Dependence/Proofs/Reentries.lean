import Dependence.Proofs.RegionHistories

/-! Coming back to the middle of a block. A call keeps for each block how many regions were open right
after it was last entered, and the regions that are open now are cut down to that number. They are not
opened again: if fewer are open by then, it stays at these. -/

namespace Dependence

namespace Call

variable {c c' : Call} {l : Layout} {event : BlockEvent} {position : String} {events : List BlockEvent}
  {b j k : Nat}

theorem enter_depths (h : c.enter b position = .ok c') :
    c'.depths = c.depths.set b (some c'.depth) := by
  obtain ⟨preds, -, hc'⟩ := bind_eq_ok.mp h
  obtain rfl := Except.ok.inj hc'
  rfl

theorem Sound.depths_of_entered (h : c.Sound) (hb : c.layout.entered? event = some b) :
    (c.observe event).depths[b]? = some (some (c.observe event).depth) := by
  rcases observe_cases h.sized event with
    ⟨block, position, hentered, hblock, henter⟩ | ⟨regions, last, hentered, -, -⟩
  · obtain rfl := Option.some.inj (hentered.symm.trans hb)
    rw [enter_depths henter, List.getElem?_set_self (h.depths ▸ hblock)]
  · cases hentered.symm.trans hb

theorem Sound.depths_of_not_entered (h : c.Sound) (hb : c.layout.entered? event ≠ some b) :
    (c.observe event).depths[b]? = c.depths[b]? := by
  rcases observe_cases h.sized event with
    ⟨block, position, hentered, hblock, henter⟩ | ⟨regions, last, -, -, heq⟩
  · have hne : block ≠ b := fun heq => hb (heq ▸ hentered)
    rw [enter_depths henter, List.getElem?_set_ne hne]
  · rw [heq]

theorem before_succ_of_none (h : (timeline position events)[k]? = none) :
    before l position events (k + 1) = before l position events k := by
  rw [before, before, List.take_add_one, h, Option.toList_none, List.append_nil]

theorem depths_before (hj : l.EntersAt (timeline position events) j b) (hjk : j < k)
    (hlast : ∀ i, j < i → i < k → ¬l.EntersAt (timeline position events) i b) :
    (before l position events k).depths[b]? = some (some (before l position events (j + 1)).depth) := by
  induction k, hjk using Nat.le_induction with
  | base =>
    obtain ⟨hsound, hlayout⟩ := sound_before l position events j
    obtain ⟨event, hevent, hentered⟩ := Option.bind_eq_some_iff.mp hj
    rw [before_succ hevent]
    apply hsound.depths_of_entered
    rw [hlayout, hentered]
  | succ k hjk ih =>
    have hkept := ih fun i hi hik => hlast i hi (Nat.lt_succ_of_lt hik)
    cases hevent : (timeline position events)[k]? with
    | none => rw [before_succ_of_none hevent, hkept]
    | some event =>
      obtain ⟨hsound, hlayout⟩ := sound_before l position events k
      rw [before_succ hevent, hsound.depths_of_not_entered, hkept]
      rw [hlayout]
      intro hentered
      apply hlast k hjk (Nat.lt_succ_self k)
      rw [Layout.EntersAt, hevent]
      exact hentered

theorem handle_resume {depth : Nat} (hb : b < c.layout.nodeCount)
    (hdepth : c.depths[b]? = some (some depth)) (stmt : Nat) (position : String) :
    c.handle (.resume b (stmt + 1) position) =
      .ok { c with regions := c.regions.take depth, last := some ⟨b, stmt + 1, position⟩ } := by
  have hblock : (BlockEvent.resume b (stmt + 1) position).block < c.layout.nodeCount := hb
  rw [handle_of_lt hblock, act, resume, hdepth]
  rfl

end Call

open Call in
/-- Coming back to the middle of a block leaves open the outer ones of the regions that are open, at most
as many as right after the block was last entered. So the depth from then is there again just if the call
has not become less deep, and the regions from then just if all of them have stayed open. -/
theorem reentry_only_closes_regions {l : Layout} {position : String} {events : List BlockEvent}
    {b j k : Nat} (hj : l.EntersAt (timeline position events) j b) (hjk : j < k)
    (hlast : ∀ i, j < i → i < k → ¬l.EntersAt (timeline position events) i b)
    (stmt : Nat) (position' : String) :
    ∃ c, (before l position events k).handle (.resume b (stmt + 1) position') = .ok c ∧
      c.regions = (before l position events k).regions.take (before l position events (j + 1)).depth ∧
      c.depth = min (before l position events (j + 1)).depth (before l position events k).depth ∧
      (c.depth = (before l position events (j + 1)).depth ↔
        (before l position events (j + 1)).depth ≤ (before l position events k).depth) ∧
      (c.regions = (before l position events (j + 1)).regions ↔
        (before l position events (j + 1)).regions <+: (before l position events k).regions) := by
  have hdepth := depths_before hj hjk hlast
  have hb : b < (before l position events k).layout.nodeCount := by
    obtain ⟨event, -, hentered⟩ := Option.bind_eq_some_iff.mp hj
    rw [(sound_before l position events k).2]
    exact (Layout.entered?_eq_some_iff.mp hentered).2
  refine ⟨_, handle_resume hb hdepth stmt position', rfl, List.length_take, ?_, ?_⟩
  · rw [← min_eq_left_iff]
    exact Eq.congr_left List.length_take
  · rw [List.prefix_iff_eq_take]
    exact eq_comm

/-- A block that a branch may skip, and the block where both ways meet. -/
def Layout.oneArm : Layout := ⟨⟨"f", 16⟩, [[1, 2], [2], []], [some 2, some 2, none]⟩

open Call in
theorem reentry_only_closes_regions_oneArm :
    ∃ c, (before .oneArm "" [.enter 1 ""] 2).handle (.resume 0 1 "") = .ok c ∧
      c.depth = 1 ∧ c.regions = (before .oneArm "" [.enter 1 ""] 1).regions := by
  have hj : Layout.oneArm.EntersAt (timeline "" [.enter 1 ""]) 0 0 := rfl
  have hlast : ∀ i, 0 < i → i < 2 → ¬Layout.oneArm.EntersAt (timeline "" [.enter 1 ""]) i 0 := by
    intro i hi hi'
    obtain rfl : i = 1 := by omega
    unfold Layout.EntersAt
    decide
  obtain ⟨c, hc, -, -, hdepth, hregions⟩ :=
    reentry_only_closes_regions hj (by decide : 0 < 2) hlast 0 ""
  exact ⟨c, hc, hdepth.mpr (by decide), hregions.mpr (by decide)⟩

open Call in
/-- After both ways have met, coming back to the arm does not open the region of the branch again. -/
theorem reentry_less_deep_oneArm :
    let events : List BlockEvent := [.enter 1 "a", .enter 2 "b"]
    Layout.oneArm.EntersAt (timeline "" events) 1 1 ∧
      ¬Layout.oneArm.EntersAt (timeline "" events) 2 1 ∧
      ∃ c, (before .oneArm "" events 3).handle (.resume 1 1 "c") = .ok c ∧
        (before .oneArm "" events 2).depth = 1 ∧ c.depth = 0 := by
  unfold Layout.EntersAt
  exact ⟨rfl, by decide, _, rfl, by decide, by decide⟩

end Dependence
