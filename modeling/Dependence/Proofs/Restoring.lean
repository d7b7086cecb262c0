import Mathlib.Data.List.Dedup
import Dependence.Proofs.BuiltStores

/-! Records as another form of aggregates. Nothing is lost on the way to a record and back, and on the way
from a record and back only the lists of its branches are put in order. So a store is restored from its own
profile. -/

namespace Dependence

def ascending (numbers : List Nat) : List Nat := numbers.dedup.mergeSort Nat.ble

theorem ascending_eq {numbers xs : List Nat} (hxs : xs.Pairwise (· < ·))
    (h : ∀ i, i ∈ xs ↔ i ∈ numbers) : ascending numbers = xs := by
  have hperm : (ascending numbers).Perm xs := by
    apply (List.mergeSort_perm _ _).trans
    rw [List.perm_ext_iff_of_nodup (List.nodup_dedup numbers) (hxs.imp Nat.ne_of_lt)]
    intro i
    rw [List.mem_dedup, h]
  have hsorted : (ascending numbers).Pairwise (Nat.ble · ·) := by
    apply List.pairwise_mergeSort
    · intro i j k hij hjk
      exact Nat.ble_eq.mpr ((Nat.ble_eq.mp hij).trans (Nat.ble_eq.mp hjk))
    · intro i j
      simpa using Nat.le_total i j
  apply hperm.eq_of_pairwise _ hsorted (hxs.imp fun hij => Nat.ble_eq.mpr hij.le)
  intro i j _ _ hij hji
  exact (Nat.ble_eq.mp hij).antisymm (Nat.ble_eq.mp hji)

namespace Aggregate

variable {a : Aggregate} {r : Record}

theorem Made.ofRecord_toRecord (h : a.Made) : ofRecord a.toRecord = .ok a := by
  obtain ⟨hsized, hchecked⟩ := consistent_iff.mp h.consistent
  exact Aggregate.ofRecord_toRecord hsized hchecked

theorem ofRecord_isOk_iff : (∃ a, ofRecord r = .ok a) ↔ r.WellFormed :=
  ⟨fun ⟨_, h⟩ => wellFormed_of_ofRecord h, fun h => (ofRecord_ok h).imp fun _ => And.left⟩

theorem map_toList_preds (h : ofRecord r = .ok a) :
    a.preds.map (·.toList) = r.preds.map ascending := by
  have hholds := Holds.of_ofRecord h
  have hlength : a.preds.length = r.preds.length := by
    rw [hholds.sized.length, (wellFormed_of_ofRecord h).preds_length, hholds.layout]
    rfl
  refine List.ext_getElem (by simpa using hlength) fun x hx hx' => ?_
  rw [List.length_map] at hx hx'
  rw [List.getElem_map, List.getElem_map]
  refine (ascending_eq (BitSet.pairwise_lt_toList _) fun y => ?_).symm
  have hset := hholds.sized.sized a.preds[x] (List.getElem_mem hx)
  have hlists := hholds.dependsOn x y
  simp only [DependsOn, BitSet.MemAt, Record.Lists, List.getElem?_eq_getElem hx,
    List.getElem?_eq_getElem hx', Option.some.injEq, exists_eq_left'] at hlists
  rw [hset.1.mem_toList, hlists]

theorem toRecord_of_ofRecord (h : ofRecord r = .ok a) :
    a.toRecord = { r with preds := r.preds.map ascending } := by
  have hholds := Holds.of_ofRecord h
  rw [toRecord, map_toList_preds h, hholds.layout, hholds.calls]
  rfl

end Aggregate

namespace Store

variable {s : Store}

theorem Sized.adds_values (hs : s.Sized) : empty.Adds s s.values := by
  intro name
  rw [filter_values hs, get?_empty]
  simpa using hs.adds_nil name

theorem agree_values (hs : s.Sized) : ∀ a ∈ s.values, ∀ b ∈ s.values, Agree a b := by
  intro a ha b hb hname
  have hsame : some a = some b := by
    rw [← (mem_values hs).mp ha, ← (mem_values hs).mp hb, hname]
  rw [Option.some.inj hsame]

theorem Consistent.absorb_profile (hs : s.Consistent) : empty.absorb s.profile = (s, .ok ()) := by
  have hvalues := hs.sized.adds_values
  have hchecked : ∀ a ∈ s.values, a.layout.Checked := fun a ha =>
    (Aggregate.consistent_iff.mp (hs.consistent _ a ((mem_values hs.sized).mp ha))).2
  obtain ⟨s', habsorb, hadds⟩ :=
    Store.absorb_profile sized_empty.adds_nil hvalues hchecked (by simp)
  -- both stores are the sum of the same aggregates
  have hsame : s' = s := hadds.unique hvalues (List.Perm.refl _) (agree_values hs.sized)
  rw [habsorb, hsame]

end Store

open Aggregate in
/-- An aggregate is read back from its record as it was. A record can be read just if it is well formed,
and what was read has that record again, with each list of branches in ascending order and without
repetition. A new store that takes the profile of another one is equal to it. -/
theorem records_restore_aggregates :
    (∀ a : Aggregate, a.Made → ofRecord a.toRecord = .ok a) ∧
    (∀ r : Record, ((∃ a, ofRecord r = .ok a) ↔ r.WellFormed) ∧
      ∀ a, ofRecord r = .ok a → a.toRecord = { r with preds := r.preds.map ascending }) ∧
    ∀ s : Store, s.Built → Store.empty.absorb s.profile = (s, .ok ()) := by
  refine ⟨fun a ha => ha.ofRecord_toRecord, fun r => ⟨ofRecord_isOk_iff, fun a ha => ?_⟩, fun s hs => ?_⟩
  · exact toRecord_of_ofRecord ha
  · exact hs.consistent.absorb_profile

open Aggregate in
theorem records_restore_aggregates_detour :
    let untidy : Record := { detour with preds := [[], [2, 0, 2], []] }
    (∃ a, ofRecord untidy = .ok a ∧ a.toRecord = { detour with preds := [[], [0, 2], []] }) ∧
    ∃ a b ab : Aggregate, ofRecord detour = .ok a ∧ ofRecord row = .ok b ∧ a.merge b = .ok ab ∧
      ofRecord ab.toRecord = .ok ab ∧
      Store.empty.absorb (Store.empty.merge ab).1.profile = ((Store.empty.merge ab).1, .ok ()) := by
  intro untidy
  obtain ⟨hmade, hrecord, hstore⟩ := records_restore_aggregates
  constructor
  · obtain ⟨a, ha⟩ : ∃ a, ofRecord untidy = .ok a := ⟨_, rfl⟩
    have hnone : ascending [] = [] := ascending_eq .nil (by simp)
    have htwo : ascending [2, 0, 2] = [0, 2] := ascending_eq (by decide) (by grind)
    have hlists : untidy.preds.map ascending = [[], [0, 2], []] := by
      show [ascending [], ascending [2, 0, 2], ascending []] = _
      rw [hnone, htwo]
    exact ⟨a, ha, ((hrecord untidy).2 a ha).trans (by rw [hlists])⟩
  · obtain ⟨a, b, ab, ha, hb, hab⟩ : ∃ a b ab : Aggregate, ofRecord detour = .ok a ∧
        ofRecord row = .ok b ∧ a.merge b = .ok ab := ⟨_, _, _, rfl, rfl, rfl⟩
    have hsum : ab.Made := .merge (.basic (.read ha)) (.basic (.read hb)) hab
    have hop : (Operation.merge ab).Made := hsum
    exact ⟨a, b, ab, ha, hb, hab, hmade ab hsum, hstore _ (.step .empty (.perform hop))⟩

end Dependence
