import Mathlib.Data.List.Perm.Subperm
import Dependence.Proofs.CallStates

/-! What holds of a call whatever events it is given, in any order and whether or not they are accepted.
Closing regions, opening one anew and going back to an earlier depth all cut the stack off somewhere, so
its regions stay those of different branches, and there are never more of them than branches. -/

namespace Dependence

namespace Layout

def entered? (l : Layout) (event : BlockEvent) : Option Nat :=
  event.entered?.filter (· < l.nodeCount)

def branches (l : Layout) : List Nat :=
  (List.range l.nodeCount).filter fun b => 2 ≤ (l.successors.getD b []).length

theorem mem_branches {l : Layout} {b : Nat} : b ∈ l.branches ↔ l.isBranch b = true := by
  rw [branches, List.mem_filter, List.mem_range, isBranch, nodeCount, List.getD_eq_getElem?_getD]
  cases hb : l.successors[b]? with
  | none => simp
  | some succs =>
    have hlt := (List.getElem?_eq_some_iff.mp hb).1
    simp [hlt, Nat.succ_le_iff]

theorem entered?_eq_some_iff {l : Layout} {event : BlockEvent} {b : Nat} :
    l.entered? event = some b ↔ event.entered? = some b ∧ b < l.nodeCount := by
  simp [entered?, Option.filter_eq_some_iff]

end Layout

namespace Call

variable {c c' : Call} {l : Layout} {event : BlockEvent} {block : Nat} {position : String}
  {regions : List Region}

def observe (c : Call) (event : BlockEvent) : Call :=
  match c.handle event with
  | .ok c' => c'
  | .error _ => c

def observeAll (c : Call) (events : List BlockEvent) : Call := events.foldl observe c

theorem observeAll_append (c : Call) (first later : List BlockEvent) :
    c.observeAll (first ++ later) = (c.observeAll first).observeAll later := List.foldl_append

theorem observe_of_ok (h : c.handle event = .ok c') : c.observe event = c' := by
  rw [observe, h]

structure Sound (c : Call) : Prop where
  sized : c.Sized
  depths : c.depths.length = c.layout.nodeCount
  distinct : (c.regions.map (·.branch)).Nodup
  region : ∀ r ∈ c.regions,
    c.layout.isBranch r.branch = true ∧ r.finish = c.layout.postdominator? r.branch
  recorded : ∀ x y, c.DependsOn x y → c.layout.isBranch y = true

theorem observe_cases (h : c.Sized) (event : BlockEvent) :
    (∃ block position, c.layout.entered? event = some block ∧ block < c.layout.nodeCount ∧
      c.enter block position = .ok (c.observe event)) ∨
    ∃ regions last, c.layout.entered? event = none ∧ regions <+: c.regions ∧
      c.observe event = { c with regions, last } := by
  rcases Nat.lt_or_ge event.block c.layout.nodeCount with hlt | hge
  · have hhandle := handle_of_lt hlt
    rcases c.act_cases event with ⟨position, hevent, hact⟩ | ⟨regions, last, hevent, houter, hact⟩
    · obtain ⟨c', hc', -⟩ := enter_ok h hlt position
      refine .inl ⟨event.block, position, Layout.entered?_eq_some_iff.mpr ⟨hevent, hlt⟩, hlt, ?_⟩
      rw [observe_of_ok (hhandle.trans (hact.trans hc')), hc']
    · exact .inr ⟨regions, last, by rw [Layout.entered?, hevent]; rfl, houter,
        observe_of_ok (hhandle.trans hact)⟩
  · refine .inr ⟨c.regions, c.last, ?_, List.prefix_rfl, by rw [observe, handle_of_le hge]⟩
    rcases c.act_cases event with ⟨-, hevent, -⟩ | ⟨-, -, hevent, -⟩
    · simpa [Layout.entered?, hevent] using hge
    · rw [Layout.entered?, hevent]
      rfl

theorem enter_depths_length {position : String} (h : c.enter block position = .ok c') :
    c'.depths.length = c.depths.length := by
  obtain ⟨preds, -, hc'⟩ := bind_eq_ok.mp h
  obtain rfl := Except.ok.inj hc'
  exact List.length_set

theorem mem_reopen {r : Region} (h : r ∈ reopen l regions block) :
    (r ∈ regions ∧ (l.isBranch block = true → r.branch ≠ block)) ∨
      (l.isBranch block = true ∧ r = ⟨block, l.postdominator? block⟩) := by
  unfold reopen at h
  split at h
  · next hbranch =>
    rcases List.mem_append.mp h with h | h
    · have hne := List.mem_takeWhile_imp h
      exact .inl ⟨(List.takeWhile_sublist _).subset h, fun _ => by simpa using hne⟩
    · exact .inr ⟨hbranch, List.mem_singleton.mp h⟩
  · next hbranch => exact .inl ⟨h, fun hb => absurd hb hbranch⟩

theorem nodup_reopen (h : (regions.map (·.branch)).Nodup) :
    ((reopen l regions block).map (·.branch)).Nodup := by
  unfold reopen
  split
  · -- the older region of the branch is cut off before the new one is opened
    rw [List.map_append, List.nodup_append]
    refine ⟨h.sublist ((List.takeWhile_sublist _).map _), List.nodup_singleton _, ?_⟩
    rintro b hb b' hb' rfl
    obtain ⟨r, hr, rfl⟩ := List.mem_map.mp hb
    have hne := List.mem_takeWhile_imp hr
    simp only [List.map_cons, List.map_nil, List.mem_singleton] at hb'
    simp [hb'] at hne
  · exact h

theorem Sound.isBranch_of_recorded? (h : c.Sound) {branch : Nat} (hr : c.recorded? block = some branch) :
    c.layout.isBranch branch = true := by
  obtain ⟨r, hlast, rfl⟩ := Option.map_eq_some_iff.mp hr
  exact (h.region r ((List.takeWhile_sublist _).subset (List.mem_of_getLast? hlast))).1

theorem Sound.enter (h : c.Sound) (hblock : block < c.layout.nodeCount)
    (hc' : c.enter block position = .ok c') : c'.Sound ∧ c'.layout = c.layout := by
  obtain ⟨c'', hok, hsized, hlayout, hregions, hdepends⟩ := enter_ok h.sized hblock position
  obtain rfl := Except.ok.inj (hc'.symm.trans hok)
  have hopen : (openAt c.regions block).Sublist c.regions := List.takeWhile_sublist _
  refine ⟨⟨hsized, ?_, ?_, fun r hr => ?_, fun x y hxy => ?_⟩, hlayout⟩
  · rw [enter_depths_length hc', h.depths, hlayout]
  · rw [hregions]
    exact nodup_reopen (h.distinct.sublist (hopen.map _))
  · rw [hregions] at hr
    rw [hlayout]
    rcases mem_reopen hr with ⟨hr, -⟩ | ⟨hbranch, rfl⟩
    · exact h.region r (hopen.subset hr)
    · exact ⟨hbranch, rfl⟩
  · rw [hlayout]
    rcases (hdepends x y).mp hxy with hxy | ⟨-, hrecorded⟩
    · exact h.recorded x y hxy
    · exact h.isBranch_of_recorded? hrecorded

theorem Sound.cut (h : c.Sound) (hregions : regions <+: c.regions) (last : Option Entrance) :
    Sound { c with regions, last } where
  sized := h.sized.cut hregions last
  depths := h.depths
  distinct := h.distinct.sublist (hregions.sublist.map _)
  region r hr := h.region r (hregions.subset hr)
  recorded := h.recorded

theorem Sound.observe (h : c.Sound) (event : BlockEvent) :
    (c.observe event).Sound ∧ (c.observe event).layout = c.layout := by
  rcases observe_cases h.sized event with
    ⟨block, position, -, hblock, henter⟩ | ⟨regions, last, -, houter, heq⟩
  · exact h.enter hblock henter
  · rw [heq]
    exact ⟨h.cut houter last, rfl⟩

theorem Sound.observeAll (h : c.Sound) (events : List BlockEvent) :
    (c.observeAll events).Sound ∧ (c.observeAll events).layout = c.layout := by
  induction events generalizing c with
  | nil => exact ⟨h, rfl⟩
  | cons event events ih =>
    obtain ⟨hsound, hlayout⟩ := h.observe event
    obtain ⟨hsound', hlayout'⟩ := ih hsound
    exact ⟨hsound', hlayout'.trans hlayout⟩

theorem Sound.dependsOn_observe_iff (h : c.Sound) (event : BlockEvent) (x y : Nat) :
    (c.observe event).DependsOn x y ↔ c.DependsOn x y ∨
      (c.layout.entered? event = some x ∧ c.recorded? x = some y) := by
  rcases observe_cases h.sized event with
    ⟨block, position, hentered, hblock, henter⟩ | ⟨regions, last, hentered, -, heq⟩
  · obtain ⟨c', hok, -, -, -, hdepends⟩ := enter_ok h.sized hblock position
    rw [Except.ok.inj (henter.symm.trans hok), hdepends, hentered, Option.some.injEq, eq_comm]
    refine or_congr_right (and_congr_right ?_)
    rintro rfl
    rfl
  · rw [heq, hentered]
    simp [DependsOn]

theorem Sound.dependsOn_observeAll (h : c.Sound) (events : List BlockEvent) {x y : Nat}
    (hxy : c.DependsOn x y) : (c.observeAll events).DependsOn x y := by
  induction events generalizing c with
  | nil => exact hxy
  | cons event events ih =>
    exact ih (h.observe event).1 ((h.dependsOn_observe_iff event x y).mpr (.inl hxy))

theorem Sound.depth_le (h : c.Sound) : c.depth ≤ c.layout.branches.length := by
  have hsub : c.regions.map (·.branch) ⊆ c.layout.branches := by
    intro b hb
    obtain ⟨r, hr, rfl⟩ := List.mem_map.mp hb
    exact Layout.mem_branches.mpr (h.region r hr).1
  simpa [depth] using (h.distinct.subperm hsub).length_le

def blank (l : Layout) (position : String) : Call where
  layout := l
  regions := []
  preds := List.replicate l.nodeCount (.empty l.nodeCount)
  depths := List.replicate l.nodeCount none
  last := none
  position := position

theorem sound_blank (l : Layout) (position : String) : (blank l position).Sound where
  sized := sized_blank l position
  depths := List.length_replicate
  distinct := List.nodup_nil
  region := by simp [blank]
  recorded x y hxy := absurd hxy (BitSet.not_memAt_replicate l.nodeCount l.nodeCount x y)

theorem start_eq (l : Layout) (position : String) :
    start l position = .ok ((blank l position).observe (.enter 0 position)) := by
  unfold start
  extract_lets n call
  split
  · next hn =>
    have hrefused : (blank l position).handle (.enter 0 position) = .error _ :=
      handle_of_le (show l.nodeCount ≤ 0 from Nat.le_of_eq hn)
    rw [observe, hrefused]
    rfl
  · next hn =>
    have hpos : 0 < l.nodeCount := Nat.pos_of_ne_zero hn
    have hhandle : (blank l position).handle (.enter 0 position) = call.enter 0 position :=
      handle_of_lt (show 0 < l.nodeCount from hpos)
    obtain ⟨c', hok, -⟩ := enter_ok (sized_blank l position) hpos position
    rw [observe_of_ok (hhandle.trans hok)]
    exact hok

end Call

end Dependence
