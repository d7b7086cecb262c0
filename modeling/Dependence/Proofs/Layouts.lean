import Dependence.Profiling.Layout
import Dependence.Proofs.IndexedLists
import Dependence.Proofs.Postdominance
import Dependence.Proofs.Slots

/-! The layouts that can be made. Whether its parts were checked or it was read off a checked graph,
a layout names only blocks that exist. Computed postdominators always do, so that a layout of successors
is refused for a successor only, and the one that is read off a graph need not be checked. -/

namespace Dependence

namespace Layout

variable {l : Layout}

def Checked (l : Layout) : Prop := defect? l.id l.successors l.postdominators = none

theorem checked_iff : l.Checked ↔ l.postdominators.length = l.nodeCount ∧
    (∀ succs ∈ l.successors, ∀ s ∈ succs, s < l.nodeCount) ∧
      ∀ p, some p ∈ l.postdominators → p < l.nodeCount := by
  unfold Checked defect? nodeCount
  dsimp only
  split
  · next hlength => simp [hlength]
  · next hlength =>
    rw [and_iff_right (not_not.mp hlength), Option.or_eq_none_iff, List.findSome?_eq_none_iff,
      List.findSome?_eq_none_iff]
    simp only [Option.map_eq_none_iff]
    rw [forall_mem_zipIdx (P := fun succs : List Nat => succs.find? _ = none),
      forall_mem_zipIdx (P := fun p : Option Nat => p.filter _ = none)]
    refine and_congr (by simp) ⟨fun h p hp => ?_, fun h p hp => ?_⟩
    · simpa using h (some p) hp
    · cases p with
      | none => rfl
      | some p => simpa using h p hp

theorem ofParts_eq_ok_iff {id : FunctionId} {successors : Adjacency}
    {postdominators : List (Option Nat)} :
    ofParts id successors postdominators = .ok l ↔
      l = ⟨id, successors, postdominators⟩ ∧ l.Checked := by
  unfold ofParts
  constructor
  · intro h
    split at h
    · next hdefect =>
      obtain rfl := Except.ok.inj h
      exact ⟨rfl, hdefect⟩
    · cases h
  · rintro ⟨rfl, hdefect⟩
    rw [show defect? _ _ _ = none from hdefect]

theorem Checked.ofParts (h : l.Checked) :
    ofParts l.id l.successors l.postdominators = .ok l := ofParts_eq_ok_iff.mpr ⟨rfl, h⟩

theorem defect?_postdominators (id : FunctionId) (successors : Adjacency) :
    defect? id successors successors.postdominators =
      successors.zipIdx.findSome? fun x =>
        (x.1.find? (successors.length ≤ ·)).map (.successorRange id x.2 · successors.length) := by
  have hrange : ∀ x ∈ successors.postdominators.zipIdx,
      (x.1.filter (successors.length ≤ ·)).map
        (Defect.postdominatorRange id x.2 · successors.length) = none := by
    intro x hx
    rw [Option.map_eq_none_iff, Option.filter_eq_none_iff]
    intro p hp
    have hmem : some p ∈ successors.postdominators :=
      hp ▸ List.mem_of_getElem? (List.mem_zipIdx_iff_getElem?.mp hx)
    simpa using Adjacency.lt_of_mem_postdominators hmem
  unfold defect?
  dsimp only
  rw [if_neg (not_not.mpr (Adjacency.length_postdominators successors)),
    List.findSome?_eq_none_iff.mpr hrange, Option.or_none]

theorem checked_postdominators_iff (id : FunctionId) {successors : Adjacency} :
    Checked ⟨id, successors, successors.postdominators⟩ ↔
      ∀ succs ∈ successors, ∀ s ∈ succs, s < successors.length := by
  rw [checked_iff]
  exact ⟨fun h => h.2.1, fun h => ⟨Adjacency.length_postdominators successors, h,
    fun _ => Adjacency.lt_of_mem_postdominators⟩⟩

theorem checked_ofGraph {g : Graph} (hg : g.Accepted) (entry : Nat) :
    (ofGraph entry g).Checked := by
  refine (checked_postdominators_iff _).mpr fun succs hsuccs s hs => ?_
  obtain ⟨block, hblock, rfl⟩ := List.mem_map.mp hsuccs
  obtain ⟨b, hb⟩ := List.mem_iff_getElem?.mp hblock
  obtain ⟨target, htarget, -⟩ := hg.consistent.next hb hs
  have hlt := (List.getElem?_eq_some_iff.mp htarget).1
  simpa [Graph.successorLists] using hlt

inductive Accepted : Layout → Prop
  | parts {id : FunctionId} {successors : Adjacency} {postdominators : List (Option Nat)}
      {l : Layout} (h : ofParts id successors postdominators = .ok l) : Accepted l
  | graph {g : Graph} (h : g.Accepted) (entry : Nat) : Accepted (ofGraph entry g)

theorem Accepted.checked (h : l.Accepted) : l.Checked := by
  cases h with
  | parts h => exact (ofParts_eq_ok_iff.mp h).2
  | graph h entry => exact checked_ofGraph h entry

theorem ofSuccessors_eq_ok_iff {id : FunctionId} {successors : Adjacency} :
    ofSuccessors id successors = .ok l ↔ l = ⟨id, successors, successors.postdominators⟩ ∧
      ∀ succs ∈ successors, ∀ s ∈ succs, s < successors.length := by
  rw [ofSuccessors, ofParts_eq_ok_iff, ← checked_postdominators_iff id]
  constructor
  · rintro ⟨rfl, hchecked⟩
    exact ⟨rfl, hchecked⟩
  · rintro ⟨rfl, hchecked⟩
    exact ⟨rfl, hchecked⟩

theorem ofParts_eq_error_iff {id : FunctionId} {successors : Adjacency}
    {postdominators : List (Option Nat)} {e : Error} :
    ofParts id successors postdominators = .error e ↔
      ∃ defect, defect? id successors postdominators = some defect ∧ e = .malformed defect := by
  unfold ofParts
  cases defect? id successors postdominators <;> simp [eq_comm]

theorem ofSuccessors_eq_error_iff {id : FunctionId} {successors : Adjacency} {e : Error} :
    ofSuccessors id successors = .error e ↔
      ∃ before succs after s, successors = before ++ succs :: after ∧
        (∀ earlier ∈ before, ∀ t ∈ earlier, t < successors.length) ∧
        succs.find? (successors.length ≤ ·) = some s ∧
        e = .malformed (.successorRange id before.length s successors.length) := by
  have hnone : ∀ before : Adjacency, (∀ x ∈ before.zipIdx,
      (x.1.find? (successors.length ≤ ·)).map (Defect.successorRange id x.2 · successors.length) =
        none) ↔ ∀ earlier ∈ before, ∀ t ∈ earlier, t < successors.length := by
    intro before
    simp only [Option.map_eq_none_iff]
    rw [forall_mem_zipIdx (P := fun succs : List Nat => succs.find? _ = none)]
    simp
  rw [ofSuccessors, ofParts_eq_error_iff]
  simp only [defect?_postdominators, findSome?_zipIdx_eq_some_iff, hnone, Option.map_eq_some_iff]
  constructor
  · rintro ⟨defect, ⟨before, succs, after, hsplit, hbefore, s, hs, rfl⟩, rfl⟩
    exact ⟨before, succs, after, s, hsplit, hbefore, hs, rfl⟩
  · rintro ⟨before, succs, after, s, hsplit, hbefore, hs, rfl⟩
    exact ⟨_, ⟨before, succs, after, hsplit, hbefore, s, hs, rfl⟩, rfl⟩

theorem exists_ofSuccessors_eq_error_iff {id : FunctionId} {successors : Adjacency} :
    (∃ e, ofSuccessors id successors = .error e) ↔
      ∃ succs ∈ successors, ∃ s ∈ succs, successors.length ≤ s := by
  cases h : ofSuccessors id successors with
  | ok l =>
    obtain ⟨-, hrange⟩ := ofSuccessors_eq_ok_iff.mp h
    refine ⟨nofun, ?_⟩
    rintro ⟨succs, hsuccs, s, hs, hle⟩
    exact absurd (hrange succs hsuccs s hs) (Nat.not_lt.mpr hle)
  | error e =>
    refine ⟨fun _ => ?_, fun _ => ⟨e, rfl⟩⟩
    by_contra hrange
    push Not at hrange
    have hmade : ofSuccessors id successors = .ok ⟨id, successors, successors.postdominators⟩ :=
      ofSuccessors_eq_ok_iff.mpr ⟨rfl, hrange⟩
    rw [h] at hmade
    cases hmade

/-- The layout read off a checked graph is the one made of its successors, and would pass the check that
it is spared. Making a layout of successors fails exactly if one of them does not exist, and the first
such is what it reports: the postdominators that are computed are always fine. -/
theorem constructors_agree :
    (∀ g : Graph, g.Accepted → ∀ entry,
      ofSuccessors ⟨g.name, entry⟩ g.successorLists = .ok (ofGraph entry g) ∧
      ofParts (ofGraph entry g).id (ofGraph entry g).successors (ofGraph entry g).postdominators =
        .ok (ofGraph entry g)) ∧
    ∀ (id : FunctionId) (successors : Adjacency),
      ((∃ e, ofSuccessors id successors = .error e) ↔
        ∃ succs ∈ successors, ∃ s ∈ succs, successors.length ≤ s) ∧
      ∀ e, ofSuccessors id successors = .error e ↔
        ∃ before succs after s, successors = before ++ succs :: after ∧
          (∀ earlier ∈ before, ∀ t ∈ earlier, t < successors.length) ∧
          succs.find? (successors.length ≤ ·) = some s ∧
          e = .malformed (.successorRange id before.length s successors.length) := by
  refine ⟨fun g hg entry => ?_, fun id successors => ?_⟩
  · have hchecked : (ofGraph entry g).Checked := checked_ofGraph hg entry
    exact ⟨hchecked.ofParts, hchecked.ofParts⟩
  · exact ⟨exists_ofSuccessors_eq_error_iff, fun e => ofSuccessors_eq_error_iff⟩

/-- Two ways that come together again, and a block that nothing leads to and that never ends. -/
theorem constructors_agree_rejoined :
    let g : Graph := ⟨"rejoined", ⟨[], [], []⟩,
      [⟨[], [], [1, 2]⟩, ⟨[], [0], [3]⟩, ⟨[], [0], [3]⟩, ⟨[], [1, 2], []⟩, ⟨[], [4], [4]⟩]⟩
    g.Accepted ∧ ofSuccessors ⟨"rejoined", 16⟩ [[1, 2], [3], [3], [], [4]] = .ok
      ⟨⟨"rejoined", 16⟩, [[1, 2], [3], [3], [], [4]], [some 3, some 3, some 3, none, none]⟩ := by
  intro g
  have hg : g.Accepted :=
    .body (show Graph.ofBlocks g.name g.signature g.blocks = .ok g from rfl)
  have hlayout : ofGraph 16 g =
      ⟨⟨"rejoined", 16⟩, [[1, 2], [3], [3], [], [4]], [some 3, some 3, some 3, none, none]⟩ := by
    decide +kernel
  exact ⟨hg, hlayout ▸ (constructors_agree.1 g hg 16).1⟩

end Layout

end Dependence
