import Dependence.Proofs.Records

/-! Which records can be read back. A record is well formed if it has one entry of each kind for
each of its blocks and names no block that it does not have; just these are turned into aggregates,
which keep the layout, the calls and the dependences of the record. -/

namespace Dependence

namespace Record

def layout (r : Record) : Layout := ⟨⟨r.name, r.entry⟩, r.successors, r.postdominators⟩

def nodeCount (r : Record) : Nat := r.successors.length

structure WellFormed (r : Record) : Prop where
  postdominators_length : r.postdominators.length = r.nodeCount
  preds_length : r.preds.length = r.nodeCount
  successors_lt : ∀ succs ∈ r.successors, ∀ s ∈ succs, s < r.nodeCount
  postdominators_lt : ∀ p, some p ∈ r.postdominators → p < r.nodeCount
  preds_lt : ∀ members ∈ r.preds, ∀ p ∈ members, p < r.nodeCount

def Lists (r : Record) (x y : Nat) : Prop := ∃ members, r.preds[x]? = some members ∧ y ∈ members

theorem wellFormed_iff {r : Record} : r.WellFormed ↔ r.layout.Checked ∧
    Aggregate.predsDefect? r.layout.id r.layout.nodeCount r.preds = none := by
  rw [Layout.checked_iff, Aggregate.predsDefect?_eq_none_iff]
  constructor
  · intro h
    exact ⟨⟨h.postdominators_length, h.successors_lt, h.postdominators_lt⟩, h.preds_length,
      h.preds_lt⟩
  · rintro ⟨⟨hlength, hsuccs, hpost⟩, hpreds, hmembers⟩
    exact ⟨hlength, hpreds, hsuccs, hpost, hmembers⟩

end Record

namespace Aggregate

variable {r : Record} {a : Aggregate} {records : List Record} {aggregates : List Aggregate}

structure Holds (a : Aggregate) (r : Record) : Prop where
  sized : a.Sized
  layout : a.layout = r.layout
  calls : a.calls = r.calls
  dependsOn : ∀ x y, a.DependsOn x y ↔ r.Lists x y

theorem Holds.name (h : a.Holds r) : a.layout.name = r.name := by
  rw [h.layout]
  rfl

theorem exists_sets {n : Nat} {lists : List (List Nat)} (h : ∀ members ∈ lists, ∀ p ∈ members, p < n) :
    ∃ sets, lists.mapM (BitSet.ofList n) = .ok sets ∧ sets.length = lists.length ∧
      (∀ set ∈ sets, set.Sized n) ∧
      ∀ x y, BitSet.MemAt sets x y ↔ ∃ members, lists[x]? = some members ∧ y ∈ members := by
  induction lists with
  | nil => exact ⟨[], rfl, rfl, by simp, by simp [BitSet.MemAt]⟩
  | cons members lists ih =>
    rw [List.forall_mem_cons] at h
    obtain ⟨set, hset, hsized, hmem⟩ := BitSet.ofList_ok h.1
    obtain ⟨sets, hsets, hlength, hall, hmems⟩ := ih h.2
    refine ⟨set :: sets, ?_, by simp [hlength], List.forall_mem_cons.mpr ⟨hsized, hall⟩, ?_⟩
    · rw [List.mapM_cons, hset, hsets]
      rfl
    · intro x y
      cases x with
      | zero => simp [BitSet.MemAt, hmem]
      | succ x => exact hmems x y

theorem ofRecord_ok (h : r.WellFormed) : ∃ a, ofRecord r = .ok a ∧ a.Holds r := by
  obtain ⟨hchecked, hdefect⟩ := Record.wellFormed_iff.mp h
  have hparts : Layout.ofParts ⟨r.name, r.entry⟩ r.successors r.postdominators = .ok r.layout :=
    hchecked.ofParts
  obtain ⟨sets, hsets, hlength, hsized, hmem⟩ := exists_sets h.preds_lt
  refine ⟨⟨r.layout, r.calls, sets⟩, ?_, ⟨hlength.trans h.preds_length, hsized⟩, rfl, rfl, hmem⟩
  have hsets' : r.preds.mapM (BitSet.ofList r.layout.nodeCount) = .ok sets := hsets
  unfold ofRecord
  simp only [hparts, hdefect, hsets', bind, Except.bind]
  rfl

theorem wellFormed_of_ofRecord (h : ofRecord r = .ok a) : r.WellFormed := by
  obtain ⟨l, hl, h⟩ := bind_eq_ok.mp h
  obtain ⟨rfl, hchecked⟩ := Layout.ofParts_eq_ok_iff.mp hl
  dsimp only at h
  split at h
  · cases h
  · next hdefect => exact Record.wellFormed_iff.mpr ⟨hchecked, hdefect⟩

/-- A record that cannot be read has a defect: all numbers are checked before they go into a set. -/
theorem isFault_of_ofRecord {e : Error} (h : ofRecord r = .error e) : e.isFault = false := by
  have herror := h
  rcases bind_eq_error.mp h with hl | ⟨l, hl, h⟩
  · unfold Layout.ofParts at hl
    split at hl
    · cases hl
    · exact Except.error.inj hl ▸ rfl
  · obtain ⟨rfl, hchecked⟩ := Layout.ofParts_eq_ok_iff.mp hl
    dsimp only at h
    split at h
    · exact Except.error.inj h ▸ rfl
    · next hdefect =>
      obtain ⟨a, ha, -⟩ := ofRecord_ok (Record.wellFormed_iff.mpr ⟨hchecked, hdefect⟩)
      rw [herror] at ha
      cases ha

theorem Holds.of_ofRecord (h : ofRecord r = .ok a) : a.Holds r := by
  obtain ⟨b, hb, hholds⟩ := ofRecord_ok (wellFormed_of_ofRecord h)
  obtain rfl := Except.ok.inj (h.symm.trans hb)
  exact hholds

end Aggregate

end Dependence
