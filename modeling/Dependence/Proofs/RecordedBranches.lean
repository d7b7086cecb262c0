import Dependence.Profiling.Call
import Dependence.Proofs.BitSets
import Dependence.Proofs.Layouts
import Dependence.Proofs.OpenRegions

/-! What a call records. Entering a block adds the branch on top of the stack to what the block
depends on; along a path through the function that is the branch of the innermost open region. -/

namespace Dependence

variable {l : Layout} {t : Nat → Nat} {position : String} {block k m x y : Nat} {stack : List Nat}

namespace Call

def recorded? (c : Call) (block : Nat) : Option Nat :=
  (openAt c.regions block).getLast?.map (·.branch)

def DependsOn (c : Call) (block branch : Nat) : Prop :=
  ∃ set, c.preds[block]? = some set ∧ branch ∈ set

structure Sized (c : Call) : Prop where
  length : c.preds.length = c.layout.nodeCount
  sized : ∀ set ∈ c.preds, set.Sized c.layout.nodeCount
  branch_lt : ∀ region ∈ c.regions, region.branch < c.layout.nodeCount

theorem branch_lt_of_openAt {c : Call} (h : c.Sized) {region : Region}
    (hregion : region ∈ openAt c.regions block) : region.branch < c.layout.nodeCount :=
  h.branch_lt region ((List.takeWhile_sublist _).subset hregion)

theorem depend_ok {c : Call} (h : c.Sized) (hblock : block < c.layout.nodeCount) :
    ∃ preds, depend c.preds (openAt c.regions block) block = .ok preds ∧
      preds.length = c.preds.length ∧ (∀ set ∈ preds, set.Sized c.layout.nodeCount) ∧
      ∀ x y, (∃ set, preds[x]? = some set ∧ y ∈ set) ↔
        c.DependsOn x y ∨ (x = block ∧ c.recorded? block = some y) := by
  have hset : block < c.preds.length := h.length ▸ hblock
  cases hlast : (openAt c.regions block).getLast? with
  | none =>
    refine ⟨c.preds, by simp [depend, hlast], rfl, h.sized, fun x y => ?_⟩
    simp [recorded?, hlast, DependsOn]
  | some region =>
    have hlt := branch_lt_of_openAt h (List.mem_of_getLast? hlast)
    obtain ⟨hvalid, hcapacity⟩ := h.sized _ (List.getElem_mem hset)
    obtain ⟨set, new, hinsert, hvalid', hcapacity', hmem⟩ := hvalid.insert (hcapacity ▸ hlt)
    refine ⟨c.preds.set block set, ?_, by simp, fun s hs => ?_, fun x y => ?_⟩
    · simp [depend, hlast, hset, hinsert, bind, Except.bind, pure, Except.pure]
    · rcases List.mem_or_eq_of_mem_set hs with hs | rfl
      · exact h.sized s hs
      · exact ⟨hvalid', hcapacity'.trans hcapacity⟩
    · by_cases hx : x = block
      · subst hx
        simp [recorded?, hlast, DependsOn, hset, hmem, eq_comm]
      · simp [recorded?, hlast, DependsOn, hx, List.getElem?_set_ne (Ne.symm hx)]

theorem enter_ok {c : Call} (h : c.Sized) (hblock : block < c.layout.nodeCount)
    (position : String) :
    ∃ c', c.enter block position = .ok c' ∧ c'.Sized ∧ c'.layout = c.layout ∧
      c'.regions = reopen c.layout (openAt c.regions block) block ∧
      ∀ x y, c'.DependsOn x y ↔ c.DependsOn x y ∨ (x = block ∧ c.recorded? block = some y) := by
  obtain ⟨preds, hdepend, hlength, hsized, hmem⟩ := depend_ok h hblock
  have hregions : ∀ region ∈ reopen c.layout (openAt c.regions block) block,
      region.branch < c.layout.nodeCount := by
    intro region hregion
    unfold reopen at hregion
    split at hregion
    · rcases List.mem_append.mp hregion with hregion | hregion
      · exact branch_lt_of_openAt h ((List.takeWhile_sublist _).subset hregion)
      · exact List.mem_singleton.mp hregion ▸ hblock
    · exact branch_lt_of_openAt h hregion
  have henter : c.enter block position = .ok { c with
      regions := reopen c.layout (openAt c.regions block) block
      preds
      depths := c.depths.set block (some (reopen c.layout (openAt c.regions block) block).length)
      last := some ⟨block, 0, position⟩ } := by
    rw [enter, hdepend]
    rfl
  exact ⟨_, henter, ⟨hlength.trans h.length, hsized, hregions⟩, rfl, rfl, hmem⟩

def regionsAt (l : Layout) (t : Nat → Nat) (stack : List Nat) : List Region :=
  stack.map fun i => ⟨t i, l.postdominator? (t i)⟩

theorem openAt_regionsAt (block : Nat) :
    openAt (regionsAt l t stack) block =
      regionsAt l t (stack.takeWhile fun i => l.postdominator? (t i) ≠ some block) := by
  rw [openAt, regionsAt, List.takeWhile_map]
  rfl

theorem exists_reopen (h : l.Tracks t m k k stack) (hfollows : l.Follows t m) :
    ∃ stack', l.Tracks t m (k + 1) k stack' ∧
      reopen l (regionsAt l t stack) (t k) = regionsAt l t stack' := by
  cases hbranch : l.isBranch (t k) with
  | false => exact ⟨stack, h.skip hbranch, by simp [reopen, hbranch]⟩
  | true =>
    refine ⟨_, h.push hfollows hbranch, ?_⟩
    rw [reopen, if_pos hbranch, regionsAt, List.takeWhile_map, regionsAt, List.map_append]
    rfl

structure Recording (l : Layout) (t : Nat → Nat) (m k : Nat) (c : Call) : Prop where
  layout : c.layout = l
  sized : c.Sized
  tracks : ∃ stack, l.Tracks t m (k + 1) k stack ∧ c.regions = regionsAt l t stack

theorem Recording.exists_open {c : Call} (h : Recording l t m k c) (hfollows : l.Follows t m)
    (hk : k < m) : ∃ stack, l.Tracks t m (k + 1) (k + 1) stack ∧
      openAt c.regions (t (k + 1)) = regionsAt l t stack := by
  obtain ⟨stack, htracks, hregions⟩ := h.tracks
  exact ⟨_, htracks.close hfollows hk, hregions ▸ openAt_regionsAt _⟩

theorem recording_of_enter {c : Call} (hlayout : c.layout = l) (hsized : c.Sized)
    (hfollows : l.Follows t m) (hblock : t k < l.nodeCount) (htracks : l.Tracks t m k k stack)
    (hregions : openAt c.regions (t k) = regionsAt l t stack) (position : String) :
    ∃ c', c.enter (t k) position = .ok c' ∧ Recording l t m k c' ∧
      ∀ x y, c'.DependsOn x y ↔ c.DependsOn x y ∨ (x = t k ∧ c.recorded? (t k) = some y) := by
  subst hlayout
  obtain ⟨c', henter, hsized', hlayout', hregions', hmem⟩ := enter_ok hsized hblock position
  obtain ⟨stack', htracks', hreopen⟩ := exists_reopen htracks hfollows
  have hstack : c'.regions = regionsAt c.layout t stack' := by rw [hregions', hregions, hreopen]
  exact ⟨c', henter, ⟨hlayout', hsized', stack', htracks', hstack⟩, hmem⟩

theorem sized_blank (l : Layout) (position : String) :
    Sized ⟨l, [], .replicate l.nodeCount (.empty l.nodeCount), .replicate l.nodeCount none, none,
      position⟩ :=
  ⟨(BitSet.allSized_replicate _).length, (BitSet.allSized_replicate _).sized, by simp⟩

def entrances (t : Nat → Nat) (position : Nat → String) (k : Nat) : List BlockEvent :=
  (List.range k).map fun i => .enter (t (i + 1)) (position (i + 1))

theorem ofEvents_entrances_succ (l : Layout) (t : Nat → Nat) (position : Nat → String) (k : Nat) :
    ofEvents l (position 0) (entrances t position (k + 1)) =
      ofEvents l (position 0) (entrances t position k) >>= fun c =>
        c.handle (.enter (t (k + 1)) (position (k + 1))) := by
  simp [ofEvents, entrances, List.range_succ]

theorem exists_start (hfollows : l.Follows t m) (hm : 0 < m) (h0 : t 0 = 0) (position : String) :
    ∃ c, start l position = .ok c ∧ Recording l t m 0 c := by
  have hlt : t 0 < l.nodeCount := hfollows.lt hm (Nat.zero_le m)
  have hne : l.nodeCount ≠ 0 := Nat.ne_zero_of_lt hlt
  obtain ⟨c, henter, hrecording, -⟩ :=
    recording_of_enter rfl (sized_blank l position) hfollows hlt Layout.Tracks.nil rfl position
  refine ⟨c, ?_, hrecording⟩
  rw [start, if_neg hne]
  exact h0 ▸ henter

theorem Recording.handle {c : Call} (h : Recording l t m k c) (hfollows : l.Follows t m)
    (hk : k < m) (position : String) :
    ∃ c', c.handle (.enter (t (k + 1)) position) = .ok c' ∧ Recording l t m (k + 1) c' ∧
      ∀ x y, c'.DependsOn x y ↔
        c.DependsOn x y ∨ (x = t (k + 1) ∧ c.recorded? (t (k + 1)) = some y) := by
  have hblock : t (k + 1) < l.nodeCount := hfollows.lt (Nat.zero_lt_of_lt hk) hk
  obtain ⟨stack, htracks, hregions⟩ := h.exists_open hfollows hk
  obtain ⟨c', henter, hrecording⟩ :=
    recording_of_enter h.layout h.sized hfollows hblock htracks hregions position
  have hcheck : c.checkBlock (t (k + 1)) = .ok () := by
    rw [checkBlock, h.layout, if_pos hblock]
  refine ⟨c', ?_, hrecording⟩
  rw [Call.handle, hcheck]
  exact henter

theorem exists_recording (hfollows : l.Follows t m) (hm : 0 < m) (h0 : t 0 = 0)
    (position : Nat → String) (hk : k ≤ m) :
    ∃ c, ofEvents l (position 0) (entrances t position k) = .ok c ∧ Recording l t m k c := by
  induction k with
  | zero =>
    obtain ⟨c, hstart, hrecording⟩ := exists_start hfollows hm h0 (position 0)
    exact ⟨c, by rw [ofEvents, hstart]; rfl, hrecording⟩
  | succ k ih =>
    obtain ⟨c, hevents, hrecording⟩ := ih (Nat.le_of_succ_le hk)
    obtain ⟨c', hhandle, hrecording', -⟩ := hrecording.handle hfollows hk (position (k + 1))
    exact ⟨c', by rw [ofEvents_entrances_succ, hevents]; exact hhandle, hrecording'⟩

theorem Recording.recorded?_eq_some_iff {c : Call} (h : Recording l t m k c)
    (hfollows : l.Follows t m) (hk : k < m) {branch : Nat} :
    c.recorded? (t (k + 1)) = some branch ↔
      ∃ i, t i = branch ∧ (i < k + 1 ∧ l.Open t i (k + 1)) ∧
        ∀ j < k + 1, l.Open t j (k + 1) → j ≤ i := by
  obtain ⟨stack, htracks, hregions⟩ := h.exists_open hfollows hk
  simp only [recorded?, hregions, regionsAt, List.getLast?_map, Option.map_map,
    Option.map_eq_some_iff, htracks.getLast?_eq_some_iff]
  constructor
  · rintro ⟨i, hi, rfl⟩
    exact ⟨i, rfl, hi⟩
  · rintro ⟨i, rfl, hi⟩
    exact ⟨i, hi, rfl⟩

theorem Recording.recorded?_eq_none_iff {c : Call} (h : Recording l t m k c)
    (hfollows : l.Follows t m) (hk : k < m) :
    c.recorded? (t (k + 1)) = none ↔ ∀ i < k + 1, ¬l.Open t i (k + 1) := by
  obtain ⟨stack, htracks, hregions⟩ := h.exists_open hfollows hk
  simp only [recorded?, hregions, regionsAt, List.getLast?_map, Option.map_eq_none_iff,
    htracks.getLast?_eq_none_iff]

end Call

theorem Layout.eq_of_ofSuccessors {id : FunctionId} {successors : Adjacency}
    (h : ofSuccessors id successors = .ok l) : l = ⟨id, successors, successors.postdominators⟩ :=
  (ofSuccessors_eq_ok_iff.mp h).1

/-- Along a path from the first block, what is recorded on entering a block is the branch of the
innermost region that is open then, and nothing if there is none. Nothing else is recorded. -/
theorem recorded_is_innermost_open {id : FunctionId} {successors : Adjacency}
    (hl : Layout.ofSuccessors id successors = .ok l) (h0 : t 0 = 0)
    (hpath : ∀ k < m, successors.Edge (t k) (t (k + 1))) (position : Nat → String) (hk : k < m) :
    ∃ before after : Call,
      Call.ofEvents l (position 0) (Call.entrances t position k) = .ok before ∧
      Call.ofEvents l (position 0) (Call.entrances t position (k + 1)) = .ok after ∧
      (∀ branch, before.recorded? (t (k + 1)) = some branch ↔
        ∃ i, t i = branch ∧ (i < k + 1 ∧ l.Open t i (k + 1)) ∧
          ∀ j < k + 1, l.Open t j (k + 1) → j ≤ i) ∧
      (before.recorded? (t (k + 1)) = none ↔ ∀ i < k + 1, ¬l.Open t i (k + 1)) ∧
      ∀ block branch, after.DependsOn block branch ↔ before.DependsOn block branch ∨
        (block = t (k + 1) ∧ before.recorded? (t (k + 1)) = some branch) := by
  have hfollows : l.Follows t m := by
    rw [Layout.eq_of_ofSuccessors hl]
    exact ⟨rfl, hpath⟩
  obtain ⟨before, hbefore, hrecording⟩ :=
    Call.exists_recording hfollows (Nat.zero_lt_of_lt hk) h0 position hk.le
  obtain ⟨after, hafter, -, hdepends⟩ := hrecording.handle hfollows hk (position (k + 1))
  refine ⟨before, after, hbefore, ?_, fun branch => hrecording.recorded?_eq_some_iff hfollows hk,
    hrecording.recorded?_eq_none_iff hfollows hk, hdepends⟩
  rw [Call.ofEvents_entrances_succ, hbefore]
  exact hafter

/-- A loop whose body may leave it: block 1 goes on to the body or to the end, block 2 to a way out
or back. -/
def Layout.breakableLoop : Layout where
  id := ⟨"search", 0⟩
  successors := [[1], [2, 5], [3, 4], [5], [1], []]
  postdominators := [some 1, some 5, some 5, some 5, some 1, none]

/-- When control comes back to the head of the loop, the way out of the body is still open. -/
theorem recorded_is_innermost_open_breakableLoop :
    ∃ before after : Call,
      Call.ofEvents .breakableLoop "" (Call.entrances ([0, 1, 2, 4, 1].getD · 0) (fun _ => "") 3) =
        .ok before ∧
      Call.ofEvents .breakableLoop "" (Call.entrances ([0, 1, 2, 4, 1].getD · 0) (fun _ => "") 4) =
        .ok after ∧
      before.recorded? 1 = some 2 ∧ after.DependsOn 1 2 := by
  have hl : Layout.ofSuccessors ⟨"search", 0⟩ [[1], [2, 5], [3, 4], [5], [1], []] =
      .ok .breakableLoop := by decide +kernel
  have hpath : ∀ k < 4, Adjacency.Edge [[1], [2, 5], [3, 4], [5], [1], []]
      ([0, 1, 2, 4, 1].getD k 0) ([0, 1, 2, 4, 1].getD (k + 1) 0) := by
    unfold Adjacency.Edge
    decide
  obtain ⟨before, after, hbefore, hafter, hsome, -, hdepends⟩ :=
    recorded_is_innermost_open (t := ([0, 1, 2, 4, 1].getD · 0)) hl rfl hpath (fun _ => "")
      (show 3 < 4 by decide)
  have hrecorded : before.recorded? 1 = some 2 :=
    (hsome 2).mpr ⟨2, rfl, ⟨by decide, by decide⟩, by decide⟩
  exact ⟨before, after, hbefore, hafter, hrecorded, (hdepends 1 2).mpr (.inr ⟨rfl, hrecorded⟩)⟩

end Dependence
