import Dependence.Profiling.Profile

/-! Profiles in the order of names. Sorting keeps the records, puts them in order and leaves those of
one name as they were; what is in order already stays as it is. -/

namespace Dependence.Profile

variable {records : List Record} {p : Profile}

structure Sorts (p : Profile) (records : List Record) : Prop where
  perm : p.records.Perm records
  sorted : p.records.Pairwise fun a b => a.name ≤ b.name
  stable : ∀ name, p.records.filter (·.name = name) = records.filter (·.name = name)

theorem name_le_trans (a b c : Record) (hab : decide (a.name ≤ b.name) = true)
    (hbc : decide (b.name ≤ c.name) = true) : decide (a.name ≤ c.name) = true := by
  rw [decide_eq_true_eq] at hab hbc ⊢
  exact String.le_trans hab hbc

theorem name_le_total (a b : Record) :
    (decide (a.name ≤ b.name) || decide (b.name ≤ a.name)) = true := by
  rw [Bool.or_eq_true, decide_eq_true_eq, decide_eq_true_eq]
  exact String.le_total a.name b.name

theorem ofRecords_sorts (records : List Record) : (ofRecords records).Sorts records where
  perm := List.mergeSort_perm records _
  sorted := (List.pairwise_mergeSort name_le_trans name_le_total records).imp of_decide_eq_true
  stable name := by
    -- the records of one name are in order whatever their order is
    have hties : (records.filter (·.name = name)).Pairwise fun a b =>
        decide (a.name ≤ b.name) = true := by
      refine List.pairwise_of_forall_mem_list fun a ha b hb => ?_
      have ha : a.name = name := of_decide_eq_true (List.mem_filter.mp ha).2
      have hb : b.name = name := of_decide_eq_true (List.mem_filter.mp hb).2
      rw [ha, hb]
      exact decide_eq_true (String.le_refl name)
    have hkept : (records.filter (·.name = name)).Sublist (ofRecords records).records :=
      List.sublist_mergeSort name_le_trans name_le_total hties List.filter_sublist
    have hsub := hkept.filter (·.name = name)
    simp only [List.filter_filter, Bool.and_self] at hsub
    have hlength : (records.filter (·.name = name)).length =
        ((ofRecords records).records.filter (·.name = name)).length :=
      ((List.mergeSort_perm records _).filter _).length_eq.symm
    exact (hsub.eq_of_length hlength).symm

theorem ofRecords_of_sorted (h : p.records.Pairwise fun a b => a.name ≤ b.name) :
    ofRecords p.records = p := by
  have hsame : p.records.mergeSort (fun a b => decide (a.name ≤ b.name)) = p.records :=
    List.mergeSort_of_pairwise (h.imp decide_eq_true)
  unfold ofRecords
  rw [hsame]

end Dependence.Profile
