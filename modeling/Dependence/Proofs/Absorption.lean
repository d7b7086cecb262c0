import Dependence.Proofs.WellFormedRecords

/-! Which profiles a store accepts. All records of the profile have to be well formed and agree with
what is stored and with each other, record by record of one name; then all of them are added, and
otherwise the store stays as it is. That it is enough to compare a record with the nearest one of its
name before it is because agreement is transitive. -/

namespace Dependence

section Alike

variable {α β : Type} {R : α → β → Prop} {as : List α} {bs : List β} {P : α → Prop} {Q : β → Prop}

theorem forall_mem_iff_of_forall₂ (h : List.Forall₂ R as bs) (hPQ : ∀ a b, R a b → (P a ↔ Q b)) :
    (∀ a ∈ as, P a) ↔ ∀ b ∈ bs, Q b := by
  induction h with
  | nil => simp
  | cons hab _ ih => simp [hPQ _ _ hab, ih]

theorem exists_mem_iff_of_forall₂ (h : List.Forall₂ R as bs) (hPQ : ∀ a b, R a b → (P a ↔ Q b)) :
    (∃ a ∈ as, P a) ↔ ∃ b ∈ bs, Q b := by
  induction h with
  | nil => simp
  | cons hab _ ih => simp [hPQ _ _ hab, ih]

theorem forall_mem_of_forall₂ (h : List.Forall₂ R as bs) (hP : ∀ a b, R a b → P a) :
    ∀ a ∈ as, P a :=
  (forall_mem_iff_of_forall₂ h fun a b hab => iff_of_true (hP a b hab) trivial).mpr fun _ _ => trivial

end Alike

def Record.Agrees (r s : Record) : Prop :=
  r.name = s.name → r.entry = s.entry ∧ r.nodeCount = s.nodeCount

namespace Aggregate

variable {a b : Aggregate} {r s : Record}

theorem Holds.same_iff (ha : a.Holds r) (hb : b.Holds s) (hname : r.name = s.name) :
    a.layout.id = b.layout.id ∧ a.layout.nodeCount = b.layout.nodeCount ↔
      r.entry = s.entry ∧ r.nodeCount = s.nodeCount := by
  rw [ha.layout, hb.layout]
  simp [Record.layout, Layout.nodeCount, Record.nodeCount, hname]

theorem Holds.compatible_iff (ha : a.Holds r) (hb : b.Holds s) :
    Store.Compatible a b ↔ r.Agrees s := by
  unfold Store.Compatible Record.Agrees
  rw [ha.name, hb.name]
  exact forall_congr' fun hname => ha.same_iff hb hname

end Aggregate

namespace Store

variable {s : Store} {a b c : Aggregate} {r : Record} {records : List Record}
  {seen aggregates : List Aggregate} {e : Error}

theorem Compatible.symm (h : Compatible a b) : Compatible b a := fun hname =>
  (h hname.symm).imp Eq.symm Eq.symm

theorem Compatible.trans (hname : a.layout.name = b.layout.name) (hab : Compatible a b)
    (hbc : Compatible b c) : Compatible a c := by
  intro hac
  obtain ⟨hid, hnodes⟩ := hab hname
  obtain ⟨hid', hnodes'⟩ := hbc (hname.symm.trans hac)
  exact ⟨hid.trans hid', hnodes.trans hnodes'⟩

/-- An aggregate that agrees with the last one of its name agrees with all of them. -/
theorem compatible_of_find? (hsized : ∀ b ∈ a :: seen, b.Sized)
    (hseen : ∀ b ∈ seen, ∀ c ∈ seen, Compatible b c)
    (hlast : ∀ b, seen.find? (·.layout.name = a.layout.name) = some b → b.checkMergeable a = .ok ()) :
    ∀ b ∈ a :: seen, ∀ c ∈ a :: seen, Compatible b c := by
  have hagree : ∀ b ∈ seen, Compatible b a := by
    intro b hb hname
    obtain ⟨last, hfound⟩ : ∃ last, seen.find? (·.layout.name = a.layout.name) = some last := by
      refine Option.isSome_iff_exists.mp (List.find?_isSome.mpr ⟨b, hb, ?_⟩)
      simpa using hname
    have hmem : last ∈ seen := List.mem_of_find?_eq_some hfound
    have hlastname : last.layout.name = a.layout.name := by simpa using List.find?_some hfound
    obtain ⟨hid, hnodes⟩ := (Aggregate.checkMergeable_iff (hsized last (List.mem_cons_of_mem a hmem))
      (hsized a List.mem_cons_self)).mp (hlast last hfound)
    have hstep : Compatible last a := fun _ => ⟨hid.symm, hnodes.symm⟩
    exact Compatible.trans (hname.trans hlastname.symm) (hseen b hb last hmem) hstep hname
  intro b hb c hc
  rcases List.mem_cons.mp hb with rfl | hold <;> rcases List.mem_cons.mp hc with rfl | hold'
  · exact fun _ => ⟨rfl, rfl⟩
  · exact (hagree c hold').symm
  · exact hagree b hold
  · exact hseen b hold c hold'

theorem of_checkAll (h : s.checkAll seen aggregates = .ok ())
    (hsized : ∀ a ∈ seen ++ aggregates, a.Sized)
    (hseen : ∀ a ∈ seen, ∀ b ∈ seen, Compatible a b) :
    (∀ a ∈ aggregates, s.verdict a = .ok ()) ∧
      ∀ a ∈ seen ++ aggregates, ∀ b ∈ seen ++ aggregates, Compatible a b := by
  induction aggregates generalizing seen with
  | nil => simpa using hseen
  | cons a aggregates ih =>
    obtain ⟨hverdict, hlast, hrest⟩ := checkAll_cons.mp h
    have hmem : ∀ b, b ∈ a :: seen ++ aggregates ↔ b ∈ seen ++ a :: aggregates := by
      simp [or_left_comm]
    have hsized' : ∀ b ∈ a :: seen ++ aggregates, b.Sized := fun b hb =>
      hsized b ((hmem b).mp hb)
    have hnow := compatible_of_find? (fun b hb => hsized' b (List.mem_append_left _ hb)) hseen hlast
    obtain ⟨hverdicts, hall⟩ := ih hrest hsized' hnow
    simp only [hmem] at hall
    exact ⟨List.forall_mem_cons.mpr ⟨hverdict, hverdicts⟩, hall⟩

theorem checkAll_cons_error (h : s.checkAll seen (a :: aggregates) = .error e) :
    (∃ b, Aggregate.checkMergeable b a = .error e) ∨ s.checkAll (a :: seen) aggregates = .error e := by
  rw [checkAll] at h
  cases hstored : s.get? a.layout.name <;>
    cases hseen : seen.find? (·.layout.name = a.layout.name) <;>
    simp only [hstored, hseen, bind_eq_error] at h <;> grind

theorem isFault_of_checkAll (h : s.checkAll seen aggregates = .error e) : e.isFault = false := by
  induction aggregates generalizing seen with
  | nil => cases h
  | cons a aggregates ih =>
    rcases checkAll_cons_error h with ⟨b, hb⟩ | hrest
    · exact Aggregate.isFault_of_checkMergeable hb
    · exact ih hrest

theorem checkAll_eq_ok_iff (hsized : ∀ a ∈ aggregates, a.Sized) :
    s.checkAll [] aggregates = .ok () ↔ (∀ a ∈ aggregates, s.verdict a = .ok ()) ∧
      ∀ a ∈ aggregates, ∀ b ∈ aggregates, Compatible a b := by
  constructor
  · intro h
    simpa using of_checkAll h (by simpa using hsized) (by simp)
  · rintro ⟨hverdict, hcompatible⟩
    exact checkAll_eq_ok hverdict (by simpa using hsized) (by simpa using hcompatible)

theorem verdict_eq_ok_iff (hs : s.Sized) (ha : a.Holds r) : s.verdict a = .ok () ↔
    ∀ b, s.get? r.name = some b → b.layout.id.entry = r.entry ∧ b.layout.nodeCount = r.nodeCount := by
  unfold verdict
  rw [ha.name]
  cases hget : s.get? r.name with
  | none => simp
  | some b =>
    have hname : b.layout.id.name = r.name := hs.named _ b hget
    have hid : a.layout.id = b.layout.id ↔ b.layout.id.entry = r.entry := by
      rw [ha.layout, Record.layout, ← hname, eq_comm]
      cases b.layout.id
      simp
    have hnodes : a.layout.nodeCount = b.layout.nodeCount ↔ b.layout.nodeCount = r.nodeCount := by
      rw [ha.layout, eq_comm]
      rfl
    simp [Aggregate.checkMergeable_iff (hs.sized _ b hget) ha.sized, hid, hnodes]

structure Admits (s : Store) (records : List Record) : Prop where
  wellFormed : ∀ r ∈ records, r.WellFormed
  stored : ∀ r ∈ records, ∀ a, s.get? r.name = some a →
    a.layout.id.entry = r.entry ∧ a.layout.nodeCount = r.nodeCount
  agree : ∀ r ∈ records, ∀ r' ∈ records, r.Agrees r'

theorem admits_iff_of_holds (hs : s.Sized)
    (h : List.Forall₂ Aggregate.Holds aggregates records) (hformed : ∀ r ∈ records, r.WellFormed) :
    s.Admits records ↔ (∀ a ∈ aggregates, s.verdict a = .ok ()) ∧
      ∀ a ∈ aggregates, ∀ b ∈ aggregates, Compatible a b := by
  have hverdicts : (∀ a ∈ aggregates, s.verdict a = .ok ()) ↔ ∀ r ∈ records, ∀ a,
      s.get? r.name = some a → a.layout.id.entry = r.entry ∧ a.layout.nodeCount = r.nodeCount :=
    forall_mem_iff_of_forall₂ h fun a r ha => verdict_eq_ok_iff hs ha
  have hagree : (∀ a ∈ aggregates, ∀ b ∈ aggregates, Compatible a b) ↔
      ∀ r ∈ records, ∀ r' ∈ records, r.Agrees r' :=
    forall_mem_iff_of_forall₂ h fun a r ha =>
      forall_mem_iff_of_forall₂ h fun b r' hb => ha.compatible_iff hb
  rw [hverdicts, hagree]
  exact ⟨fun hadmits => ⟨hadmits.stored, hadmits.agree⟩, fun ⟨hstored, hrecords⟩ =>
    ⟨hformed, hstored, hrecords⟩⟩

theorem absorb_cases (hs : s.Sized) (p : Profile) :
    (s.Admits p.records ∧ ∃ s' aggregates, s.absorb p = (s', .ok ()) ∧
      List.Forall₂ Aggregate.Holds aggregates p.records ∧ s.Adds s' aggregates) ∨
    (¬s.Admits p.records ∧ ∃ e, s.absorb p = (s, .error e) ∧ e.isFault = false) := by
  cases hread : p.records.mapM Aggregate.ofRecord with
  | error e =>
    obtain ⟨r, -, hr⟩ := exists_of_mapM_eq_error hread
    refine .inr ⟨fun hadmits => ?_, e, by simp only [absorb, hread], Aggregate.isFault_of_ofRecord hr⟩
    obtain ⟨aggregates, hok⟩ := exists_mapM_eq_ok fun r hr =>
      (Aggregate.ofRecord_ok (hadmits.wellFormed r hr)).imp fun _ => And.left
    rw [hread] at hok
    cases hok
  | ok aggregates =>
    have hrecords := mapM_eq_ok_iff.mp hread
    have hholds : List.Forall₂ Aggregate.Holds aggregates p.records :=
      (hrecords.imp fun _ _ => Aggregate.Holds.of_ofRecord).flip
    have hformed : ∀ r ∈ p.records, r.WellFormed :=
      forall_mem_of_forall₂ hrecords fun _ _ => Aggregate.wellFormed_of_ofRecord
    have hsized : ∀ a ∈ aggregates, a.Sized := forall_mem_of_forall₂ hholds fun _ _ h => h.sized
    have hadmits := admits_iff_of_holds hs hholds hformed
    rw [← checkAll_eq_ok_iff hsized] at hadmits
    cases hcheck : s.checkAll [] aggregates with
    | error e =>
      refine .inr ⟨fun h => ?_, e, by simp only [absorb, hread, hcheck], isFault_of_checkAll hcheck⟩
      rw [hadmits, hcheck] at h
      cases h
    | ok =>
      obtain ⟨hverdict, hcompatible⟩ := (checkAll_eq_ok_iff hsized).mp hcheck
      obtain ⟨s', hmerge, hadds⟩ := mergeAll_of_ok hs hsized hverdict hcompatible
      exact .inl ⟨hadmits.mpr hcheck, s', aggregates, by simp only [absorb, hread, hcheck, hmerge],
        hholds, hadds⟩

end Store

end Dependence
