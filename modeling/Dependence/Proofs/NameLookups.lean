import Dependence.Proofs.ByteOrder
import Dependence.Proofs.NameOrder

/-! Finding records by name. Halving comes to the last record whose name is not after the name looked
for. In the order of names this is the last record of that name, if there is one. -/

namespace Dependence.Profile

variable {records : List Record} {name : String} {base size i j : Nat} {p : Profile}
  {r r' : Record}

theorem name_le_of_le (hsorted : records.Pairwise fun a b => a.name ≤ b.name) (hij : i ≤ j)
    (hr : records[i]? = some r) (hr' : records[j]? = some r') : r.name ≤ r'.name := by
  rcases Nat.lt_or_eq_of_le hij with hlt | rfl
  · obtain ⟨hi, rfl⟩ := List.getElem?_eq_some_iff.mp hr
    obtain ⟨hj, rfl⟩ := List.getElem?_eq_some_iff.mp hr'
    exact List.pairwise_iff_getElem.mp hsorted i j hi hj hlt
  · obtain rfl := Option.some.inj (hr.symm.trans hr')
    exact String.le_refl r.name

/-- A place in the part that is halved. The records behind it have names after the name looked for,
and it has none itself unless it is the first place. -/
structure Located (records : List Record) (name : String) (base size i : Nat) : Prop where
  base_le : base ≤ i
  lt : i < base + size
  not_after : base < i → ∀ r, records[i]? = some r → r.name ≤ name
  after : ∀ j r, i < j → j < base + size → records[j]? = some r → name < r.name

theorem located_locate (hsorted : records.Pairwise fun a b => a.name ≤ b.name) (hsize : 0 < size)
    (hle : base + size ≤ records.length) :
    Located records name base size (locate records name base size) := by
  fun_induction locate records name base size with
  | case1 base size hone =>
    refine ⟨Nat.le_refl base, Nat.lt_add_of_pos_right hsize,
      fun h => absurd h (Nat.lt_irrefl base), fun j r hlt hlast => ?_⟩
    omega
  | case2 base size hmore half hafter ih =>
    have hhalf : half = size / 2 := rfl
    have hmid := List.getElem?_eq_getElem (show base + half < records.length by omega)
    rw [hmid, Option.all_some, decide_eq_true_eq] at hafter
    have h := ih (by omega) (by omega)
    refine ⟨h.base_le, Nat.lt_of_lt_of_le h.lt (by omega), h.not_after, fun j r hij hj hr => ?_⟩
    by_cases hin : j < base + (size - half)
    · exact h.after j r hij hin hr
    · exact Std.lt_of_lt_of_le hafter (name_le_of_le hsorted (by omega) hmid hr)
  | case3 base size hmore half hafter ih =>
    have hhalf : half = size / 2 := rfl
    have hmid := List.getElem?_eq_getElem (show base + half < records.length by omega)
    rw [hmid, Option.all_some, decide_eq_true_eq, String.not_lt] at hafter
    have h := ih (by omega) (by omega)
    have hend : base + half + (size - half) = base + size := by omega
    refine ⟨Nat.le_trans (Nat.le_add_right base half) h.base_le, hend ▸ h.lt, fun _ r hr => ?_,
      fun j r hij hj hr => h.after j r hij (hend ▸ hj) hr⟩
    rcases Nat.lt_or_eq_of_le h.base_le with hlt | heq
    · exact h.not_after hlt r hr
    · rw [← heq, hmid] at hr
      exact Option.some.inj hr ▸ hafter

theorem Located.filter_drop (h : Located records name 0 records.length i) :
    (records.drop (i + 1)).filter (·.name = name) = [] := by
  refine List.filter_eq_nil_iff.mpr fun r hr => ?_
  obtain ⟨k, hk⟩ := List.mem_iff_getElem?.mp hr
  rw [List.getElem?_drop] at hk
  have hlt : i + 1 + k < records.length := (List.getElem?_eq_some_iff.mp hk).1
  have hafter := h.after _ r (by omega) (by omega) hk
  simpa using (Std.ne_of_lt hafter).symm

theorem Located.filter_take (h : Located records name 0 records.length i)
    (hsorted : records.Pairwise fun a b => a.name ≤ b.name) (hr : records[i]? = some r)
    (hname : r.name ≠ name) : (records.take i).filter (·.name = name) = [] := by
  refine List.filter_eq_nil_iff.mpr fun r' hr' => ?_
  rw [decide_eq_true_eq]
  rintro rfl
  obtain ⟨j, hj, hget⟩ := List.mem_take_iff_getElem.mp hr'
  have hji : j < i := by omega
  -- the name lies between those of two records, so it is that of the second one too
  have hle : r'.name ≤ r.name :=
    name_le_of_le hsorted hji.le (List.getElem?_eq_some_iff.mpr ⟨_, hget⟩) hr
  exact hname (String.le_antisymm (h.not_after (by omega) r hr) hle)

theorem get?_eq_getLast? (hsorted : p.records.Pairwise fun a b => a.name ≤ b.name) (name : String) :
    p.get? name = (p.records.filter (·.name = name)).getLast? := by
  by_cases hempty : p.records = []
  · simp [get?, hempty]
  have hpos : 0 < p.size := List.length_pos_iff.mpr hempty
  have h : Located p.records name 0 p.records.length (locate p.records name 0 p.size) :=
    located_locate hsorted hpos (Nat.le_of_eq (Nat.zero_add p.size))
  rw [get?]
  generalize locate p.records name 0 p.size = i at h ⊢
  have hi : i < p.records.length := Nat.zero_add p.records.length ▸ h.lt
  obtain ⟨r, hr⟩ : ∃ r, p.records[i]? = some r := ⟨_, List.getElem?_eq_getElem hi⟩
  have hsplit : p.records.filter (·.name = name) =
      (p.records.take i).filter (·.name = name) ++ [r].filter (·.name = name) := by
    have hall := congrArg (List.filter (·.name = name)) (List.take_append_drop (i + 1) p.records)
    rw [List.filter_append, h.filter_drop, List.append_nil, List.take_add_one, hr,
      List.filter_append] at hall
    exact hall.symm
  by_cases hname : r.name = name
  · simp [hsplit, hr, hname]
  · rw [hsplit, h.filter_take hsorted hr hname]
    simp [hr, hname]

section Given

theorem get?_ofRecords (records : List Record) (name : String) :
    (ofRecords records).get? name = (records.filter (·.name = name)).getLast? := by
  have h := ofRecords_sorts records
  rw [get?_eq_getLast? h.sorted, h.stable]

theorem mem_of_get?_ofRecords (h : (ofRecords records).get? name = some r) :
    r ∈ records ∧ r.name = name := by
  rw [get?_ofRecords] at h
  obtain ⟨hmem, hname⟩ := List.mem_filter.mp (List.mem_of_getLast? h)
  exact ⟨hmem, of_decide_eq_true hname⟩

theorem get?_ofRecords_eq_none_iff :
    (ofRecords records).get? name = none ↔ ∀ r ∈ records, r.name ≠ name := by
  rw [get?_ofRecords, List.getLast?_eq_none_iff, List.filter_eq_nil_iff]
  simp only [decide_eq_true_eq, ne_eq]

theorem exists_get?_ofRecords (hr : r ∈ records) : ∃ r', (ofRecords records).get? r.name = some r' :=
  Option.ne_none_iff_exists'.mp fun hnone => get?_ofRecords_eq_none_iff.mp hnone r hr rfl

end Given

/-- A profile keeps the records it is made from, in the order of the bytes of their names, where those
of one name stand as they are given. Looking for a name finds one of the given records that has it just
if there is any, so the only one if there is one only, and otherwise nothing. -/
theorem lookup_finds_given (records : List Record) :
    (ofRecords records).records.Perm records ∧
    ((ofRecords records).records.Pairwise fun a b =>
      Json.Bytes.ofString a.name ≤ Json.Bytes.ofString b.name) ∧
    (∀ name, (ofRecords records).records.filter (·.name = name) = records.filter (·.name = name)) ∧
    (∀ name, (∃ r, (ofRecords records).get? name = some r ∧ r.name = name) ↔
      ∃ r ∈ records, r.name = name) ∧
    (∀ name, (¬∃ r ∈ records, r.name = name) → (ofRecords records).get? name = none) ∧
    (∀ name r, (ofRecords records).get? name = some r → r ∈ records) ∧
    ∀ r ∈ records, (∀ r' ∈ records, r'.name = r.name → r' = r) →
      (ofRecords records).get? r.name = some r := by
  have h := ofRecords_sorts records
  refine ⟨h.perm, h.sorted.imp Json.ofString_le_ofString.mpr, h.stable, fun name => ⟨?_, ?_⟩,
    fun name hnone => ?_, fun name r hget => (mem_of_get?_ofRecords hget).1, fun r hr honly => ?_⟩
  · rintro ⟨r, hget, hname⟩
    exact ⟨r, (mem_of_get?_ofRecords hget).1, hname⟩
  · rintro ⟨r, hr, rfl⟩
    obtain ⟨r', hget⟩ := exists_get?_ofRecords hr
    exact ⟨r', hget, (mem_of_get?_ofRecords hget).2⟩
  · exact get?_ofRecords_eq_none_iff.mpr fun r hr hname => hnone ⟨r, hr, hname⟩
  · obtain ⟨r', hget⟩ := exists_get?_ofRecords hr
    obtain ⟨hr', hname⟩ := mem_of_get?_ofRecords hget
    rw [hget, honly r' hr' hname]

-- Of two records of one name the one that is given last is found.
example :
    let first : Record := ⟨"é", 1, [], [], 0, []⟩
    let second : Record := ⟨"é", 2, [], [], 0, []⟩
    let other : Record := ⟨"z", 3, [], [], 0, []⟩
    (ofRecords [first, other, second]).get? "é" = some second ∧
      (ofRecords [first, other, second]).get? "e" = none := by
  cbv

end Dependence.Profile
