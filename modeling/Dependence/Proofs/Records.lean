import Dependence.Proofs.KeyedLists
import Dependence.Proofs.Layouts
import Dependence.Proofs.StoreSums

/-! Records as what is kept of a store. Reading back the record of an aggregate gives that
aggregate, so adding the profile of a store to another store adds each of its aggregates once. -/

namespace Dependence

namespace Aggregate

variable {a : Aggregate}

theorem predsDefect?_eq_none_iff {id : FunctionId} {nodes : Nat} {preds : List (List Nat)} :
    predsDefect? id nodes preds = none ↔
      preds.length = nodes ∧ ∀ members ∈ preds, ∀ p ∈ members, p < nodes := by
  unfold predsDefect?
  split
  · next hlength => simp [hlength]
  · next hlength =>
    rw [and_iff_right (not_not.mp hlength), List.findSome?_eq_none_iff]
    simp only [Option.map_eq_none_iff]
    rw [forall_mem_zipIdx (P := fun members : List Nat => members.find? _ = none)]
    simp

theorem Sized.predsDefect?_toRecord (ha : a.Sized) :
    predsDefect? a.layout.id a.layout.nodeCount a.toRecord.preds = none := by
  refine predsDefect?_eq_none_iff.mpr ⟨?_, fun members hmembers => ?_⟩
  · exact (List.length_map _).trans ha.length
  · obtain ⟨set, hset, rfl⟩ := List.mem_map.mp hmembers
    exact fun i hi => (ha.sized set hset).lt_of_mem_toList hi

theorem ofRecord_toRecord (ha : a.Sized) (hl : a.layout.Checked) : ofRecord a.toRecord = .ok a := by
  have hparts : Layout.ofParts ⟨a.toRecord.name, a.toRecord.entry⟩ a.toRecord.successors
      a.toRecord.postdominators = .ok a.layout := hl.ofParts
  have hpreds : a.toRecord.preds.mapM (BitSet.ofList a.layout.nodeCount) = .ok a.preds :=
    mapM_map_eq_ok fun set hset => BitSet.ofList_toList (ha.sized set hset)
  unfold ofRecord
  simp only [hparts, ha.predsDefect?_toRecord, hpreds, bind, Except.bind]
  rfl

end Aggregate

namespace Store

variable {s s' s'' : Store} {a : Aggregate} {aggregates parts qs : List Aggregate}

def values (s : Store) : List Aggregate := s.aggregates.toList.map (·.2)

theorem records_profile_perm (s : Store) :
    s.profile.records.Perm (s.values.map Aggregate.toRecord) := by
  unfold profile Profile.ofRecords values
  rw [List.map_map]
  exact List.mergeSort_perm _ _

theorem mem_values (hs : s.Sized) : a ∈ s.values ↔ s.get? a.layout.name = some a := by
  unfold values get?
  rw [List.mem_map]
  constructor
  · rintro ⟨⟨name, b⟩, hb, rfl⟩
    have hget := Std.ExtTreeMap.mem_toList_iff_getElem?_eq_some.mp hb
    rwa [hs.named name b hget]
  · intro ha
    exact ⟨(a.layout.name, a), Std.ExtTreeMap.mem_toList_iff_getElem?_eq_some.mpr ha, rfl⟩

theorem filter_values (hs : s.Sized) (name : String) :
    s.values.filter (·.layout.name = name) = (s.get? name).toList := by
  have hnamed : ∀ x ∈ s.aggregates.toList, x.2.layout.name = x.1 := fun x hx =>
    hs.named x.1 x.2 (Std.ExtTreeMap.mem_toList_iff_getElem?_eq_some.mp hx)
  have hfilter : ∀ l : List (String × Aggregate), (∀ x ∈ l, x.2.layout.name = x.1) →
      (l.map (·.2)).filter (·.layout.name = name) = valuesAt name l := by
    intro l hl
    induction l with
    | nil => rfl
    | cons x l ih =>
      obtain ⟨hx, hrest⟩ := List.forall_mem_cons.mp hl
      simp [List.filter_cons, hx, ih hrest]
  exact (hfilter _ hnamed).trans (valuesAt_toList _ _)

theorem Adds.flatten {t : Store} (h : s.Adds s' aggregates) (ht : empty.Adds t parts)
    (hvalues : aggregates.Perm t.values) : s.Adds s' parts := by
  intro name
  have hsum := h name
  have hparts := ht name
  have hone : aggregates.filter (·.layout.name = name) = (t.get? name).toList := by
    have hperm := hvalues.filter (·.layout.name = name)
    rw [filter_values (ht.sized sized_empty)] at hperm
    cases hget : t.get? name with
    | none =>
      rw [hget] at hperm
      exact hperm.eq_nil
    | some a =>
      rw [hget] at hperm
      exact List.perm_singleton.mp hperm
  rw [hone, ← List.append_nil (t.get? name).toList] at hsum
  rw [get?_empty] at hparts
  simpa using hsum.flatten _ hparts

theorem checkAll_cons {seen : List Aggregate} : s.checkAll seen (a :: aggregates) = .ok () ↔
    s.verdict a = .ok () ∧
      (∀ b, seen.find? (·.layout.name = a.layout.name) = some b → b.checkMergeable a = .ok ()) ∧
        s.checkAll (a :: seen) aggregates = .ok () := by
  unfold verdict
  rw [checkAll]
  cases s.get? a.layout.name <;> cases seen.find? (·.layout.name = a.layout.name) <;>
    simp [bind_eq_ok, Unique.exists_iff]

theorem checkAll_eq_ok {seen : List Aggregate} (hverdict : ∀ a ∈ aggregates, s.verdict a = .ok ())
    (hsized : ∀ a ∈ seen ++ aggregates, a.Sized)
    (hcompatible : ∀ a ∈ seen ++ aggregates, ∀ b ∈ aggregates, Compatible a b) :
    s.checkAll seen aggregates = .ok () := by
  induction aggregates generalizing seen with
  | nil => rfl
  | cons a aggregates ih =>
    refine checkAll_cons.mpr ⟨hverdict a List.mem_cons_self, fun b hb => ?_, ?_⟩
    · have hmem : b ∈ seen ++ a :: aggregates :=
        List.mem_append_left _ (List.mem_of_find?_eq_some hb)
      have ha : a ∈ seen ++ a :: aggregates := by simp
      have hname : b.layout.name = a.layout.name := by simpa using List.find?_some hb
      obtain ⟨hid, hnodes⟩ := hcompatible b hmem a List.mem_cons_self hname
      exact (Aggregate.checkMergeable_iff (hsized b hmem) (hsized a ha)).mpr ⟨hid.symm, hnodes.symm⟩
    · have hmem : ∀ b ∈ a :: seen ++ aggregates, b ∈ seen ++ a :: aggregates := fun b hb => by
        simpa [or_left_comm] using hb
      exact ih (fun b hb => hverdict b (List.mem_cons_of_mem a hb))
        (fun b hb => hsized b (hmem b hb))
        fun b hb c hc => hcompatible b (hmem b hb) c (List.mem_cons_of_mem a hc)

theorem mergeAll_of_ok (hs : s.Sized) (hsized : ∀ a ∈ aggregates, a.Sized)
    (hverdict : ∀ a ∈ aggregates, s.verdict a = .ok ())
    (hcompatible : ∀ a ∈ aggregates, ∀ b ∈ aggregates, Compatible a b) :
    ∃ s', s.mergeAll aggregates = (s', .ok ()) ∧ s.Adds s' aggregates := by
  induction aggregates generalizing s with
  | nil => exact ⟨s, rfl, hs.adds_nil⟩
  | cons a aggregates ih =>
    rw [List.forall_mem_cons] at hsized hverdict
    obtain ⟨s', hmerge, hadds⟩ := merge_of_ok hs hsized.1 hverdict.1
    have hverdict' : ∀ b ∈ aggregates, s'.verdict b = .ok () := by
      intro b hb
      rw [hadds.verdict_eq hs (hsized.2 b hb) fun p hp => ?_, hverdict.2 b hb]
      rw [List.mem_singleton.mp hp]
      exact hcompatible a List.mem_cons_self b (List.mem_cons_of_mem a hb)
    obtain ⟨s'', hmergeAll, hadds'⟩ := ih (hadds.sized hs) hsized.2 hverdict' fun b hb c hc =>
      hcompatible b (List.mem_cons_of_mem a hb) c (List.mem_cons_of_mem a hc)
    refine ⟨s'', ?_, hadds.trans hadds'⟩
    rw [mergeAll, hmerge]
    exact hmergeAll

theorem exists_layout_of_mem_values (h : empty.Adds s parts) (ha : a ∈ s.values) :
    ∃ p ∈ parts, p.layout = a.layout := by
  have hsum := h a.layout.name
  rw [(mem_values (h.sized sized_empty)).mp ha, get?_empty] at hsum
  obtain ⟨p, hp, hlayout⟩ := hsum.exists_layout
  exact ⟨p, (List.mem_filter.mp hp).1, hlayout⟩

theorem absorb_profile {t : Store} (hs : empty.Adds s parts) (ht : empty.Adds t qs)
    (hchecked : ∀ q ∈ qs, q.layout.Checked) (hagree : ∀ p ∈ parts, ∀ q ∈ qs, Agree p q) :
    ∃ s', s.absorb t.profile = (s', .ok ()) ∧ empty.Adds s' (parts ++ qs) := by
  have hs' := hs.sized sized_empty
  have ht' := ht.sized sized_empty
  obtain ⟨aggregates, haggregates, hvalues⟩ := exists_map_of_perm t.records_profile_perm
  have hget : ∀ a ∈ aggregates, t.get? a.layout.name = some a := fun a ha =>
    (mem_values ht').mp (hvalues.mem_iff.mp ha)
  have hsized : ∀ a ∈ aggregates, a.Sized := fun a ha => ht'.sized _ a (hget a ha)
  have hread : t.profile.records.mapM Aggregate.ofRecord = .ok aggregates := by
    rw [haggregates]
    refine mapM_map_eq_ok fun a ha => Aggregate.ofRecord_toRecord (hsized a ha) ?_
    obtain ⟨q, hq, hlayout⟩ := exists_layout_of_mem_values ht (hvalues.mem_iff.mp ha)
    exact hlayout ▸ hchecked q hq
  have hverdict : ∀ a ∈ aggregates, s.verdict a = .ok () := by
    intro a ha
    obtain ⟨q, hq, hlayout⟩ := exists_layout_of_mem_values ht (hvalues.mem_iff.mp ha)
    rw [hs.verdict_eq sized_empty (hsized a ha) fun p hp => ?_]
    · simp [verdict]
    · unfold Compatible
      rw [← hlayout]
      exact (hagree p hp q hq).compatible
  -- a store has one aggregate of each name, so no two of them can be at odds
  have hcompatible : ∀ a ∈ aggregates, ∀ b ∈ aggregates, Compatible a b := by
    intro a ha b hb hname
    have hsame : some a = some b := by rw [← hget a ha, hname, hget b hb]
    rw [Option.some.inj hsame]
    exact ⟨rfl, rfl⟩
  obtain ⟨s', hmerge, hadds⟩ := mergeAll_of_ok hs' hsized hverdict hcompatible
  refine ⟨s', ?_, hs.trans (hadds.flatten ht hvalues)⟩
  have hcheck : s.checkAll [] aggregates = .ok () := checkAll_eq_ok hverdict hsized hcompatible
  simp only [absorb, hread, hcheck, hmerge]

end Store

open Store in
theorem Profile.merge_profile {s t : Store} {parts qs : List Aggregate}
    (hs : Store.empty.Adds s parts) (ht : Store.empty.Adds t qs)
    (hchecked : ∀ p ∈ parts ++ qs, p.layout.Checked)
    (hagree : ∀ p ∈ parts ++ qs, ∀ q ∈ parts ++ qs, Agree p q) :
    ∃ s', s.profile.merge t.profile = .ok s'.profile ∧ Store.empty.Adds s' (parts ++ qs) := by
  rw [List.forall_mem_append] at hchecked
  obtain ⟨first, hfirst, hadds⟩ :=
    absorb_profile sized_empty.adds_nil hs hchecked.1 (fun p hp => by simp at hp)
  obtain ⟨second, hsecond, hadds'⟩ := absorb_profile hadds ht hchecked.2 fun p hp q hq =>
    hagree p (List.mem_append_left qs hp) q (List.mem_append_right parts hq)
  refine ⟨second, ?_, hadds'⟩
  simp only [Profile.merge, hfirst, hsecond]
  rfl

end Dependence
