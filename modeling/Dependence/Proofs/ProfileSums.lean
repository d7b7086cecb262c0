import Dependence.Proofs.Absorption
import Dependence.Proofs.NameOrder

/-! Merging profiles adds them up name by name. It succeeds just if all records of both are well
formed and those of one name are of one function; the outcome has one record for each name, in the
order of the names, which is the sum of all records of that name. -/

namespace Dependence

namespace Record

variable {r : Record} {parts : List Record}

def total (parts : List Record) : Nat := parts.foldr (fun part n => part.calls + n) 0

structure IsSum (r : Record) (parts : List Record) : Prop where
  layout : parts.head?.map (·.layout) = some r.layout
  calls : r.calls = total parts
  preds_length : r.preds.length = r.nodeCount
  ascending : ∀ members ∈ r.preds, members.Pairwise (· < ·)
  lists : ∀ x y, r.Lists x y ↔ ∃ part ∈ parts, part.Lists x y

structure Summable (records : List Record) : Prop where
  wellFormed : ∀ r ∈ records, r.WellFormed
  agree : ∀ r ∈ records, ∀ r' ∈ records, r.Agrees r'

end Record

namespace Aggregate

variable {a : Aggregate} {x y : Nat} {aggregates : List Aggregate} {records : List Record}

theorem Sized.lists_toRecord (ha : a.Sized) : a.toRecord.Lists x y ↔ a.DependsOn x y := by
  simp only [Record.Lists, toRecord, List.getElem?_map, Option.map_eq_some_iff, DependsOn,
    BitSet.MemAt]
  constructor
  · rintro ⟨_, ⟨set, hset, rfl⟩, hy⟩
    exact ⟨set, hset, (ha.sized set (List.mem_of_getElem? hset)).1.mem_toList.mp hy⟩
  · rintro ⟨set, hset, hy⟩
    exact ⟨_, ⟨set, hset, rfl⟩, (ha.sized set (List.mem_of_getElem? hset)).1.mem_toList.mpr hy⟩

theorem total_eq_of_holds (h : List.Forall₂ Holds aggregates records) :
    total aggregates = Record.total records := by
  induction h with
  | nil => rfl
  | cons ha _ ih => exact congrArg₂ (· + ·) ha.calls ih

theorem head?_layout_of_holds (h : List.Forall₂ Holds aggregates records) :
    aggregates.head?.map (·.layout) = records.head?.map (·.layout) := by
  cases h with
  | nil => rfl
  | cons ha _ => exact congrArg some ha.layout

theorem isSum_toRecord (h : List.Forall₂ Holds aggregates records) (ha : a.IsSum aggregates) :
    a.toRecord.IsSum records where
  layout := (head?_layout_of_holds h).symm.trans ha.layout
  calls := ha.calls.trans (total_eq_of_holds h)
  preds_length := (List.length_map _).trans ha.sized.length
  ascending := by
    intro members hmembers
    obtain ⟨set, -, rfl⟩ := List.mem_map.mp hmembers
    exact set.pairwise_lt_toList
  lists x y := by
    rw [ha.sized.lists_toRecord, ha.dependsOn]
    exact exists_mem_iff_of_forall₂ h fun b r hb => hb.dependsOn x y

theorem filter_holds (h : List.Forall₂ Holds aggregates records) (name : String) :
    List.Forall₂ Holds (aggregates.filter (·.layout.name = name))
      (records.filter (·.name = name)) := by
  refine List.rel_filter (fun a r ha => ?_) h
  simp [ha.name]

end Aggregate

namespace Profile

variable {p q : Profile} {records : List Record}

structure IsSum (p : Profile) (records : List Record) : Prop where
  sorted : p.records.Pairwise fun r r' => r.name < r'.name
  covers : ∀ r ∈ records, ∃ sum ∈ p.records, sum.name = r.name
  sums : ∀ sum ∈ p.records, sum.IsSum (records.filter (·.name = sum.name))

end Profile

namespace Store

variable {s : Store} {aggregates : List Aggregate} {records : List Record}

theorem nodup_names (hs : s.Sized) : (s.values.map (·.layout.name)).Nodup := by
  have hkeys : s.values.map (·.layout.name) = s.aggregates.toList.map (·.1) := by
    rw [values, List.map_map]
    refine List.map_congr_left fun x hx => ?_
    exact hs.named x.1 x.2 (Std.ExtTreeMap.mem_toList_iff_getElem?_eq_some.mp hx)
  rw [hkeys, List.Nodup, List.pairwise_map]
  exact Std.ExtTreeMap.distinct_keys_toList.imp fun h => by simpa using h

theorem pairwise_lt_profile (hs : s.Sized) :
    s.profile.records.Pairwise fun r r' => r.name < r'.name := by
  have hle : s.profile.records.Pairwise fun r r' => r.name ≤ r'.name :=
    (Profile.ofRecords_sorts _).sorted
  have hnames : (s.profile.records.map (·.name)).Nodup := by
    rw [(s.records_profile_perm.map _).nodup_iff, List.map_map]
    exact nodup_names hs
  have hne : s.profile.records.Pairwise fun r r' => r.name ≠ r'.name := List.pairwise_map.mp hnames
  exact hle.imp₂ (fun _ _ hle hne => Std.lt_of_le_of_ne hle hne) hne

theorem exists_get?_of_mem (h : empty.Adds s aggregates)
    (hholds : List.Forall₂ Aggregate.Holds aggregates records) {r : Record} (hr : r ∈ records) :
    ∃ a, s.get? r.name = some a := by
  have hsum := h r.name
  cases hget : s.get? r.name with
  | some a => exact ⟨a, rfl⟩
  | none =>
    rw [hget, get?_empty] at hsum
    have hnone : records.filter (·.name = r.name) = [] := by
      have hfilter := Aggregate.filter_holds hholds r.name
      rw [show aggregates.filter _ = [] from hsum] at hfilter
      exact List.forall₂_nil_left_iff.mp hfilter
    exact absurd (List.filter_eq_nil_iff.mp hnone r hr) (by simp)

theorem isSum_profile (h : empty.Adds s aggregates)
    (hholds : List.Forall₂ Aggregate.Holds aggregates records) : s.profile.IsSum records := by
  have hs := h.sized sized_empty
  have hmem : ∀ {a : Aggregate}, a ∈ s.values → s.get? a.layout.name = some a := (mem_values hs).mp
  refine ⟨pairwise_lt_profile hs, fun r hr => ?_, fun sum hsum => ?_⟩
  · obtain ⟨a, ha⟩ := exists_get?_of_mem h hholds hr
    have hname := hs.named _ a ha
    refine ⟨a.toRecord, s.records_profile_perm.mem_iff.mpr (List.mem_map_of_mem ?_), hname⟩
    rwa [mem_values hs, hname]
  · obtain ⟨a, ha, rfl⟩ := List.mem_map.mp (s.records_profile_perm.mem_iff.mp hsum)
    have hparts := h a.layout.name
    rw [hmem ha, get?_empty] at hparts
    exact Aggregate.isSum_toRecord (Aggregate.filter_holds hholds _) hparts

theorem admits_empty_iff : empty.Admits records ↔ Record.Summable records :=
  ⟨fun h => ⟨h.wellFormed, h.agree⟩, fun h => ⟨h.wellFormed, by simp, h.agree⟩⟩

section Second

variable {firsts : List Record} {a : Aggregate} {name : String}

theorem exists_layout_of_get? (h : empty.Adds s aggregates)
    (hholds : List.Forall₂ Aggregate.Holds aggregates firsts) (hget : s.get? name = some a) :
    ∃ first ∈ firsts, first.name = name ∧ first.layout = a.layout := by
  have hsum := h name
  rw [hget, get?_empty] at hsum
  have hlayout : ∃ first ∈ firsts.filter (·.name = name), first.layout = a.layout :=
    (exists_mem_iff_of_forall₂ (Aggregate.filter_holds hholds name) fun b r hb => by
      rw [hb.layout]).mp hsum.exists_layout
  obtain ⟨first, hfirst, hsame⟩ := hlayout
  obtain ⟨hmem, hname⟩ := List.mem_filter.mp hfirst
  exact ⟨first, hmem, of_decide_eq_true hname, hsame⟩

/-- What a store asks of a profile that is added second is what is asked of both together. -/
theorem admits_iff_summable (h : empty.Adds s aggregates)
    (hholds : List.Forall₂ Aggregate.Holds aggregates firsts) (hfirsts : Record.Summable firsts) :
    s.Admits records ↔ Record.Summable (firsts ++ records) := by
  constructor
  · intro hadmits
    have hacross : ∀ first ∈ firsts, ∀ r ∈ records, first.Agrees r := by
      intro first hfirst r hr hname
      obtain ⟨a, hget⟩ := exists_get?_of_mem h hholds hfirst
      obtain ⟨other, hother, hothername, hlayout⟩ := exists_layout_of_get? h hholds hget
      obtain ⟨hentry, hnodes⟩ := hfirsts.agree first hfirst other hother hothername.symm
      obtain ⟨hentry', hnodes'⟩ := hadmits.stored r hr a (hname ▸ hget)
      rw [← hlayout] at hentry' hnodes'
      exact ⟨hentry.trans hentry', hnodes.trans hnodes'⟩
    refine ⟨List.forall_mem_append.mpr ⟨hfirsts.wellFormed, hadmits.wellFormed⟩, ?_⟩
    intro r hr r' hr'
    rcases List.mem_append.mp hr with hr | hr <;> rcases List.mem_append.mp hr' with hr' | hr'
    · exact hfirsts.agree r hr r' hr'
    · exact hacross r hr r' hr'
    · exact fun hname => (hacross r' hr' r hr hname.symm).imp Eq.symm Eq.symm
    · exact hadmits.agree r hr r' hr'
  · intro hall
    have hright : ∀ r ∈ records, r ∈ firsts ++ records := fun r => List.mem_append_right firsts
    refine ⟨fun r hr => hall.wellFormed r (hright r hr), fun r hr a hget => ?_,
      fun r hr r' hr' => hall.agree r (hright r hr) r' (hright r' hr')⟩
    obtain ⟨first, hfirst, hname, hlayout⟩ := exists_layout_of_get? h hholds hget
    rw [← hlayout]
    exact hall.agree first (List.mem_append_left records hfirst) r (hright r hr) hname

end Second

end Store

namespace Profile

theorem merge_cases (p q : Profile) :
    (Record.Summable (p.records ++ q.records) ∧
      ∃ sum, p.merge q = .ok sum ∧ sum.IsSum (p.records ++ q.records)) ∨
    (¬Record.Summable (p.records ++ q.records) ∧ ∃ e, p.merge q = .error e) := by
  rcases Store.absorb_cases Store.sized_empty p with
    ⟨hfirst, s, firsts, habsorb, hholds, hadds⟩ | ⟨hrefused, e, habsorb, -⟩
  · rw [Store.admits_empty_iff] at hfirst
    rcases Store.absorb_cases (hadds.sized Store.sized_empty) q with
      ⟨hsecond, t, seconds, habsorb', hholds', hadds'⟩ | ⟨hrefused, e, habsorb', -⟩
    · rw [Store.admits_iff_summable hadds hholds hfirst] at hsecond
      refine .inl ⟨hsecond, t.profile, ?_, ?_⟩
      · simp only [merge, habsorb, habsorb']
        rfl
      · exact Store.isSum_profile (hadds.trans hadds') (List.rel_append hholds hholds')
    · rw [Store.admits_iff_summable hadds hholds hfirst] at hrefused
      refine .inr ⟨hrefused, e, ?_⟩
      simp only [merge, habsorb, habsorb']
      rfl
  · rw [Store.admits_empty_iff] at hrefused
    refine .inr ⟨fun h => hrefused ?_, e, ?_⟩
    · have hleft : ∀ r ∈ p.records, r ∈ p.records ++ q.records := fun r => List.mem_append_left _
      exact ⟨fun r hr => h.wellFormed r (hleft r hr), fun r hr r' hr' =>
        h.agree r (hleft r hr) r' (hleft r' hr')⟩
    · simp only [merge, habsorb]
      rfl

/-- Adding a profile to another succeeds just if the records of both can be added up, and then gives
their sum; otherwise nothing changes. -/
theorem absorb_is_pointwise_sum (p q : Profile) :
    ((p.absorb q).2 = .ok () ↔
      (∀ r ∈ p.records ++ q.records, r.WellFormed) ∧
        ∀ r ∈ p.records ++ q.records, ∀ r' ∈ p.records ++ q.records, r.Agrees r') ∧
    ((p.absorb q).2 = .ok () → (p.absorb q).1.IsSum (p.records ++ q.records)) ∧
    ((p.absorb q).2 ≠ .ok () → (p.absorb q).1 = p) := by
  rcases merge_cases p q with ⟨hsummable, sum, hmerge, hsum⟩ | ⟨hrefused, e, hmerge⟩
  · have habsorb : p.absorb q = (sum, .ok ()) := by simp only [absorb, hmerge]
    rw [habsorb]
    exact ⟨iff_of_true rfl ⟨hsummable.wellFormed, hsummable.agree⟩, fun _ => hsum,
      fun h => absurd rfl h⟩
  · have habsorb : p.absorb q = (p, .error e) := by simp only [absorb, hmerge]
    rw [habsorb]
    exact ⟨iff_of_false (by simp) fun ⟨hformed, hagree⟩ => hrefused ⟨hformed, hagree⟩, by simp,
      fun _ => rfl⟩

-- Three records of one name, of which the second and third have no edges and lists out of order.
example :
    let whole : Record := ⟨"f", 4, [[1], []], [some 1, none], 1, [[], []]⟩
    let bare : Record := ⟨"f", 4, [[], []], [none, none], 3, [[1, 0, 1], [0]]⟩
    let other : Record := ⟨"e", 4, [[]], [none], 2, [[]]⟩
    absorb ⟨[whole, bare]⟩ ⟨[bare, other]⟩ =
      (⟨[other, ⟨"f", 4, [[1], []], [some 1, none], 7, [[0, 1], [0]]⟩]⟩, .ok ()) := by
  cbv

end Profile

end Dependence
