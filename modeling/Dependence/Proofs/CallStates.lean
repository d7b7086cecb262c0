import Dependence.Proofs.RecordedBranches

/-! What holds of a call whatever events it is given: it keeps the layout it began with, its sets
and regions stay within the blocks of that layout, and an event for a block that exists is never
refused. -/

namespace Dependence

namespace BlockEvent

def block : BlockEvent → Nat
  | enter block _ | resume block _ _ => block

def entered? : BlockEvent → Option Nat
  | enter block _ | resume block 0 _ => some block
  | resume _ (_ + 1) _ => none

end BlockEvent

namespace Call

variable {c c' : Call} {l : Layout} {position : String} {event : BlockEvent}

theorem start_ok (l : Layout) (position : String) :
    ∃ c, start l position = .ok c ∧ c.Sized ∧ c.layout = l ∧ ∀ x y, ¬c.DependsOn x y := by
  have hblank := sized_blank l position
  have hnone := BitSet.not_memAt_replicate l.nodeCount l.nodeCount
  by_cases hn : l.nodeCount = 0
  · exact ⟨_, by rw [start, if_pos hn], hblank, rfl, hnone⟩
  · obtain ⟨c, henter, hsized, hlayout, -, hdepends⟩ :=
      enter_ok hblank (Nat.pos_of_ne_zero hn) position
    refine ⟨c, by rw [start, if_neg hn]; exact henter, hsized, hlayout, fun x y hxy => ?_⟩
    rcases (hdepends x y).mp hxy with hxy | ⟨-, hrecorded⟩
    · exact hnone x y hxy
    · simp [recorded?, openAt] at hrecorded

theorem Sized.allSized (h : c.Sized) : BitSet.AllSized c.layout.nodeCount c.preds :=
  ⟨h.length, h.sized⟩

def act (c : Call) : BlockEvent → Except Error Call
  | .enter block position | .resume block 0 position => c.enter block position
  | .resume block (stmt + 1) position => .ok (c.resume block (stmt + 1) position)

theorem handle_eq_bind (c : Call) (event : BlockEvent) :
    c.handle event = c.checkBlock event.block >>= fun _ => c.act event := by
  cases event with
  | enter block position => rfl
  | resume block stmt position => cases stmt <;> rfl

theorem handle_of_lt (h : event.block < c.layout.nodeCount) : c.handle event = c.act event := by
  rw [handle_eq_bind, checkBlock, if_pos h]
  rfl

theorem handle_of_le (h : c.layout.nodeCount ≤ event.block) : c.handle event =
    .error (.blockOutOfRange c.layout.name event.block c.layout.nodeCount) := by
  rw [handle_eq_bind, checkBlock, if_neg (Nat.not_lt.mpr h)]
  rfl

theorem resume_keeps_outer (c : Call) (block stmt : Nat) (position : String) :
    (c.resume block stmt position).regions <+: c.regions := by
  simp only [resume]
  split
  · exact List.take_prefix _ _
  · exact List.takeWhile_prefix _

theorem act_cases (c : Call) (event : BlockEvent) :
    (∃ position, event.entered? = some event.block ∧ c.act event = c.enter event.block position) ∨
    ∃ regions last, event.entered? = none ∧ regions <+: c.regions ∧
      c.act event = .ok { c with regions, last } := by
  cases event with
  | enter block position => exact .inl ⟨position, rfl, rfl⟩
  | resume block stmt position =>
    cases stmt with
    | zero => exact .inl ⟨position, rfl, rfl⟩
    | succ stmt =>
      have houter := c.resume_keeps_outer block (stmt + 1) position
      exact .inr ⟨_, _, rfl, houter, rfl⟩

theorem Sized.cut (h : c.Sized) {regions : List Region} (houter : regions <+: c.regions)
    (last : Option Entrance) : Sized { c with regions, last } :=
  ⟨h.length, h.sized, fun region hregion => h.branch_lt region (houter.subset hregion)⟩

theorem handle_sized (h : c.Sized) (hevent : c.handle event = .ok c') :
    c'.Sized ∧ c'.layout = c.layout := by
  rcases Nat.lt_or_ge event.block c.layout.nodeCount with hlt | hge
  · rw [handle_of_lt hlt] at hevent
    rcases c.act_cases event with ⟨position, -, hact⟩ | ⟨regions, last, -, houter, hact⟩
    · obtain ⟨c'', henter, hsized, hlayout, -⟩ := enter_ok h hlt position
      obtain rfl := Except.ok.inj (hevent.symm.trans (hact.trans henter))
      exact ⟨hsized, hlayout⟩
    · obtain rfl := Except.ok.inj (hevent.symm.trans hact)
      exact ⟨h.cut houter last, rfl⟩
  · rw [handle_of_le hge] at hevent
    cases hevent

theorem foldlM_handle_sized {events : List BlockEvent} (h : c.Sized)
    (hevents : events.foldlM handle c = .ok c') : c'.Sized ∧ c'.layout = c.layout := by
  induction events generalizing c with
  | nil =>
    obtain rfl := Except.ok.inj hevents
    exact ⟨h, rfl⟩
  | cons event events ih =>
    obtain ⟨c₁, hfirst, hrest⟩ := bind_eq_ok.mp hevents
    obtain ⟨hsized, hlayout⟩ := handle_sized h hfirst
    obtain ⟨hsized', hlayout'⟩ := ih hsized hrest
    exact ⟨hsized', hlayout'.trans hlayout⟩

theorem ofEvents_sized {events : List BlockEvent} (h : ofEvents l position events = .ok c) :
    c.Sized ∧ c.layout = l := by
  obtain ⟨c₀, hstart, hsized, hlayout, -⟩ := start_ok l position
  unfold ofEvents at h
  rw [hstart] at h
  obtain ⟨hsized', hlayout'⟩ := foldlM_handle_sized hsized h
  exact ⟨hsized', hlayout'.trans hlayout⟩

end Call

end Dependence
