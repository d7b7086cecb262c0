import Dependence.Proofs.CallInvariants
import Dependence.Proofs.Edits

/-! Events as edits. A call is changed in place and piece by piece, so a fault halfway through an event
would leave a call that is neither the old nor the new one. None occurs: an event for a block that exists
runs to its end, and any other is refused before the first change. -/

namespace Dependence

namespace Call

/-- Changes to a call. A failure keeps the changes made before it. -/
abbrev Edit := EStateM Error Call

namespace Edit

def truncate (depth : Nat) : Edit Unit :=
  modify fun c => { c with regions := c.regions.take depth }

def cutBefore (p : Region → Bool) : Edit Unit := do
  match (← get).regions.findIdx? p with
  | some depth => truncate depth
  | none => pure ()

def closeRegions (block : Nat) : Edit Unit := cutBefore (·.finish = some block)

def recordInnermost (block : Nat) : Edit Unit := do
  match (← get).regions.getLast? with
  | some region =>
    let set ← MonadExcept.ofExcept (fetch (← get).preds block)
    let inserted ← MonadExcept.ofExcept (set.insert region.branch)
    modify fun c => { c with preds := c.preds.set block inserted.1 }
  | none => pure ()

def openRegion (block : Nat) : Edit Unit := do
  if (← get).layout.isBranch block then
    cutBefore (·.branch = block)
    modify fun c => { c with regions := c.regions ++ [⟨block, c.layout.postdominator? block⟩] }
  else
    pure ()

def rememberDepth (block : Nat) : Edit Unit := do
  let _ ← MonadExcept.ofExcept (fetch (← get).depths block)
  modify fun c => { c with depths := c.depths.set block (some c.regions.length) }

def touch (block stmt : Nat) (position : String) : Edit Unit :=
  modify fun c => { c with last := some ⟨block, stmt, position⟩ }

def enter (block : Nat) (position : String) : Edit Unit := do
  closeRegions block
  recordInnermost block
  openRegion block
  rememberDepth block
  touch block 0 position

def resume (block stmt : Nat) (position : String) : Edit Unit := do
  match ← MonadExcept.ofExcept (fetch (← get).depths block) with
  | some depth => truncate depth
  | none => closeRegions block
  touch block stmt position

def start (position : String) : Edit Unit := do
  if (← get).layout.nodeCount = 0 then pure () else enter 0 position

def check (block : Nat) : Edit Unit := do
  MonadExcept.ofExcept ((← get).checkBlock block)

def act : BlockEvent → Edit Unit
  | .enter block position | .resume block 0 position => enter block position
  | .resume block (stmt + 1) position => resume block (stmt + 1) position

def perform (event : BlockEvent) : Edit Unit := do
  check event.block
  act event

def attempt (event : BlockEvent) : Edit Unit := tryCatch (perform event) fun _ => pure ()

def attemptAll (events : List BlockEvent) : Edit Unit := forM events attempt

variable {c c' : Call} {event : BlockEvent} {block : Nat} {position : String}

theorem run_cutBefore (p : Region → Bool) (c : Call) :
    (cutBefore p).run c = .ok () { c with regions := c.regions.takeWhile (!p ·) } := by
  rw [cutBefore, run_bind_get]
  cases hfirst : c.regions.findIdx? p with
  | none =>
    have hall : c.regions.takeWhile (!p ·) = c.regions :=
      List.takeWhile_eq_self_iff.mpr (by simpa using hfirst)
    rw [hall]
    rfl
  | some depth =>
    have htake : c.regions.takeWhile (!p ·) = c.regions.take depth := by
      rw [List.takeWhile_eq_take_findIdx_not]
      simp [(List.findIdx?_eq_some_iff_findIdx_eq.mp hfirst).2]
    rw [htake]
    rfl

theorem run_closeRegions (block : Nat) (c : Call) :
    (closeRegions block).run c = .ok () { c with regions := openAt c.regions block } := by
  rw [closeRegions, run_cutBefore, openAt]
  simp

theorem run_recordInnermost {preds : List BitSet} (hblock : block < c.preds.length)
    (hpreds : depend c.preds c.regions block = .ok preds) :
    (recordInnermost block).run c = .ok () { c with preds } := by
  have hset := List.getElem?_eq_getElem hblock
  rw [recordInnermost, run_bind_get]
  unfold depend at hpreds
  rw [hset] at hpreds
  cases hlast : c.regions.getLast? with
  | none =>
    rw [hlast] at hpreds
    obtain rfl := Except.ok.inj hpreds
    rfl
  | some region =>
    rw [hlast] at hpreds
    obtain ⟨inserted, hinsert, hpreds⟩ := bind_eq_ok.mp hpreds
    obtain rfl := Except.ok.inj hpreds
    dsimp only
    rw [run_bind_get, run_bind_of_ok (run_fetch hset c), run_bind_of_ok (run_ofExcept_ok hinsert c)]
    rfl

theorem run_openRegion (block : Nat) (c : Call) :
    (openRegion block).run c = .ok () { c with regions := reopen c.layout c.regions block } := by
  rw [openRegion, run_bind_get, reopen]
  split
  · rw [run_bind_of_ok (run_cutBefore _ c)]
    simp
  · rfl

theorem run_rememberDepth (hblock : block < c.depths.length) :
    (rememberDepth block).run c =
      .ok () { c with depths := c.depths.set block (some c.regions.length) } := by
  rw [rememberDepth, run_bind_get,
    run_bind_of_ok (run_fetch (List.getElem?_eq_getElem hblock) c)]
  rfl

theorem run_enter (h : c.Sound) (hblock : block < c.layout.nodeCount)
    (hc' : c.enter block position = .ok c') : (enter block position).run c = .ok () c' := by
  obtain ⟨preds, hpreds, hc'⟩ := bind_eq_ok.mp hc'
  obtain rfl := Except.ok.inj hc'
  rw [enter, run_bind_of_ok (run_closeRegions block c),
    run_bind_of_ok (run_recordInnermost (h.sized.length ▸ hblock) hpreds),
    run_bind_of_ok (run_openRegion block _), run_bind_of_ok (run_rememberDepth (h.depths ▸ hblock))]
  rfl

theorem run_start (l : Layout) (position : String) : (start position).run (blank l position) =
    .ok () ((blank l position).observe (.enter 0 position)) := by
  rw [start, run_bind_get]
  split
  · next hn =>
    rw [← Except.ok.inj ((if_pos hn).symm.trans (start_eq l position))]
    rfl
  · next hn =>
    exact run_enter (sound_blank l position) (Nat.pos_of_ne_zero hn)
      ((if_neg hn).symm.trans (start_eq l position))

theorem run_resume (hblock : block < c.depths.length) (stmt : Nat) (position : String) :
    (resume block stmt position).run c = .ok () (c.resume block stmt position) := by
  have hdepth := List.getElem?_eq_getElem hblock
  rw [resume, run_bind_get, run_bind_of_ok (run_fetch hdepth c), Call.resume, hdepth]
  cases c.depths[block] with
  | none =>
    exact run_bind_of_ok (run_closeRegions block c)
  | some depth => rfl

theorem exists_run_act (h : c.Sound) (hlt : event.block < c.layout.nodeCount) :
    ∃ c', c.act event = .ok c' ∧ (act event).run c = .ok () c' := by
  have henter : ∀ position, ∃ c', c.enter event.block position = .ok c' ∧
      (enter event.block position).run c = .ok () c' := by
    intro position
    obtain ⟨c', hc', -⟩ := enter_ok h.sized hlt position
    exact ⟨c', hc', run_enter h hlt hc'⟩
  cases event with
  | enter block position => exact henter position
  | resume block stmt position =>
    cases stmt with
    | zero => exact henter position
    | succ stmt => exact ⟨_, rfl, run_resume (h.depths ▸ hlt) _ _⟩

theorem exists_run_perform (h : c.Sound) (hlt : event.block < c.layout.nodeCount) :
    ∃ c', c.handle event = .ok c' ∧ (perform event).run c = .ok () c' := by
  obtain ⟨c', hact, hrun⟩ := exists_run_act h hlt
  have hcheck : c.checkBlock event.block = .ok () := if_pos hlt
  refine ⟨c', (handle_of_lt hlt).trans hact, ?_⟩
  rw [perform, check, bind_assoc, run_bind_get, run_bind_of_ok (run_ofExcept_ok hcheck c), hrun]

theorem run_perform_of_le (hge : c.layout.nodeCount ≤ event.block) : (perform event).run c =
    .error (.blockOutOfRange c.layout.name event.block c.layout.nodeCount) c := by
  have hcheck : c.checkBlock event.block = .error _ := if_neg (Nat.not_lt.mpr hge)
  rw [perform, check, bind_assoc, run_bind_get, hcheck]
  rfl

theorem run_attempt (h : c.Sound) (event : BlockEvent) :
    (attempt event).run c = .ok () (c.observe event) := by
  show EStateM.tryCatch (perform event) _ c = _
  rcases Nat.lt_or_ge event.block c.layout.nodeCount with hlt | hge
  · obtain ⟨c', hhandle, hrun⟩ := exists_run_perform h hlt
    rw [observe_of_ok hhandle, EStateM.tryCatch, show perform event c = _ from hrun]
  · -- what is caught comes with the call as the failure left it, which is the old one
    rw [observe, handle_of_le hge, EStateM.tryCatch,
      show perform event c = _ from run_perform_of_le hge]
    rfl

theorem run_attemptAll (h : c.Sound) (events : List BlockEvent) :
    (attemptAll events).run c = .ok () (c.observeAll events) := by
  induction events generalizing c with
  | nil => rfl
  | cons event events ih =>
    rw [attemptAll, List.forM_cons, run_bind_of_ok (run_attempt h event)]
    exact ih (h.observe event).1

end Edit

end Call

open Call in
/-- Whatever events a call is given, in whatever order, its open regions are those of different branches
and end where these have their postdominators, so there are at most as many as branches. Each block has a
set that holds only branches and only grows. An event for a block that exists succeeds, and any other is
refused and changes nothing. -/
theorem events_keep_calls_sound (l : Layout) (position : String) (events : List BlockEvent) :
    ∃ first c, start l position = .ok first ∧ c = first.observeAll events ∧
      (Edit.start position).run (blank l position) = .ok () first ∧
      (Edit.attemptAll events).run first = .ok () c ∧ c.layout = l ∧
      (c.regions.map (·.branch)).Nodup ∧
      (∀ r ∈ c.regions, r.branch ∈ l.branches ∧ r.finish = l.postdominator? r.branch) ∧
      c.depth ≤ l.branches.length ∧ c.preds.length = l.nodeCount ∧
      (∀ set ∈ c.preds, set.Sized l.nodeCount ∧ ∀ branch ∈ set, branch ∈ l.branches) ∧
      (∀ later, (Edit.attemptAll later).run c = .ok () (c.observeAll later) ∧
        ∀ block branch, c.DependsOn block branch → (c.observeAll later).DependsOn block branch) ∧
      ∀ event,
        (event.block < l.nodeCount →
          ∃ c', c.handle event = .ok c' ∧ (Edit.perform event).run c = .ok () c') ∧
        (l.nodeCount ≤ event.block →
          c.handle event = .error (.blockOutOfRange l.name event.block l.nodeCount) ∧
          (Edit.perform event).run c =
            .error (.blockOutOfRange l.name event.block l.nodeCount) c) := by
  obtain ⟨hfirst, hlayout⟩ := (sound_blank l position).observe (.enter 0 position)
  obtain ⟨h, hlayout'⟩ := hfirst.observeAll events
  refine ⟨_, _, start_eq l position, rfl, Edit.run_start l position,
    Edit.run_attemptAll hfirst events, ?_⟩
  generalize observeAll _ events = c at h hlayout' ⊢
  obtain rfl : c.layout = l := hlayout'.trans hlayout
  refine ⟨rfl, h.distinct, fun r hr => ?_, h.depth_le, h.sized.length, fun set hset => ?_,
    fun later => ?_, fun event => ?_⟩
  · obtain ⟨hbranch, hfinish⟩ := h.region r hr
    exact ⟨Layout.mem_branches.mpr hbranch, hfinish⟩
  · obtain ⟨block, hblock⟩ := List.mem_iff_getElem?.mp hset
    refine ⟨h.sized.sized set hset, fun branch hbranch => ?_⟩
    exact Layout.mem_branches.mpr (h.recorded block branch ⟨set, hblock, hbranch⟩)
  · exact ⟨Edit.run_attemptAll h later, fun block branch => h.dependsOn_observeAll later⟩
  · exact ⟨Edit.exists_run_perform h, fun hge => ⟨handle_of_le hge, Edit.run_perform_of_le hge⟩⟩

end Dependence
