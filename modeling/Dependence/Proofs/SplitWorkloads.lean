import Dependence.Proofs.Records

/-! Splitting the calls of a program over several stores. Merging the profiles of the stores gives
the profile of one store that was given all the calls. -/

namespace Dependence

variable {s : Store} {calls done : List Call} {parts : List (List Call)} {profiles : List Profile}

theorem Profile.empty_eq : Profile.empty = Store.empty.profile := by
  have hnil : (∅ : Std.ExtTreeMap String Aggregate compare).toList = [] :=
    Std.ExtTreeMap.toList_eq_nil_iff.mpr rfl
  simp [Profile.empty, Store.empty, Store.profile, Profile.ofRecords, hnil]

theorem Store.adds_foldAll (hcalls : Foldable calls) :
    (Session.foldAll empty calls).2 = .ok () ∧
      empty.Adds (Session.foldAll empty calls).1 (calls.map .ofCall) := by
  have hverdict : ∀ call ∈ calls, empty.verdict (.ofCall call) = .ok () := by simp [verdict]
  obtain ⟨hadds, hresult⟩ := foldAll_spec sized_empty hcalls
  have htaken : empty.taken calls = calls := by
    simpa [taken] using hverdict
  rw [htaken] at hadds
  exact ⟨hresult.mpr hverdict, hadds⟩

theorem Profile.foldlM_merge (hs : Store.empty.Adds s (done.map .ofCall))
    (hcalls : Store.Foldable (done ++ parts.flatten))
    (hchecked : ∀ call ∈ done ++ parts.flatten, call.layout.Checked) :
    ∃ s', (parts.map fun part => (Session.foldAll .empty part).1.profile).foldlM
        Profile.merge s.profile = .ok s'.profile ∧
      Store.empty.Adds s' ((done ++ parts.flatten).map .ofCall) := by
  induction parts generalizing s done with
  | nil => exact ⟨s, rfl, by simpa using hs⟩
  | cons part parts ih =>
    rw [List.flatten_cons, ← List.append_assoc] at hcalls hchecked ⊢
    have hsub : done ++ part ⊆ done ++ part ++ parts.flatten := List.subset_append_left _ _
    have hnow : Store.Foldable (done ++ part) := hcalls.mono hsub
    obtain ⟨-, hadds⟩ := Store.adds_foldAll (hnow.mono (List.subset_append_right done part))
    have hmerged := Profile.merge_profile hs hadds
    rw [← List.map_append] at hmerged
    have hlayouts : ∀ p ∈ (done ++ part).map Aggregate.ofCall, p.layout.Checked :=
      List.forall_mem_map.mpr fun c hc => hchecked c (hsub hc)
    obtain ⟨s', hmerge, hboth⟩ := hmerged hlayouts hnow.agree_ofCall
    obtain ⟨s'', hrest, hall⟩ := ih hboth hcalls hchecked
    refine ⟨s'', ?_, hall⟩
    rw [List.map_cons, List.foldlM_cons, hmerge]
    exact hrest

/-- However finished calls are split over new stores, merging the profiles of the stores in any
order succeeds and gives the profile of a store to which all the calls were added. -/
theorem merge_of_split_workload
    (hcalls : ∀ call ∈ calls, ∃ l : Layout, l.Accepted ∧
      ∃ position events, Call.ofEvents l position events = .ok call)
    (hagree : ∀ c ∈ calls, ∀ d ∈ calls, c.layout.name = d.layout.name → c.layout = d.layout)
    (hparts : parts.flatten.Perm calls)
    (hprofiles : profiles.Perm (parts.map fun part => (Session.foldAll .empty part).1.profile)) :
    (∀ part ∈ parts, (Session.foldAll .empty part).2 = .ok ()) ∧
      (Session.foldAll .empty calls).2 = .ok () ∧
      profiles.foldlM Profile.merge .empty = .ok (Session.foldAll .empty calls).1.profile := by
  have hfoldable : Store.Foldable calls := by
    refine ⟨fun call hcall => ?_, hagree⟩
    obtain ⟨l, -, position, events, hevents⟩ := hcalls call hcall
    exact (Call.ofEvents_sized hevents).1
  have hchecked : ∀ call ∈ calls, call.layout.Checked := by
    intro call hcall
    obtain ⟨l, hl, position, events, hevents⟩ := hcalls call hcall
    exact (Call.ofEvents_sized hevents).2 ▸ hl.checked
  obtain ⟨hall, hadds⟩ := Store.adds_foldAll hfoldable
  refine ⟨fun part hpart => ?_, hall, ?_⟩
  · have hsub : part ⊆ calls := fun c hc => hparts.subset (List.mem_flatten_of_mem hpart hc)
    exact (Store.adds_foldAll (hfoldable.mono hsub)).1
  · obtain ⟨parts', rfl, hperm⟩ := exists_map_of_perm hprofiles
    have hflatten : parts'.flatten.Perm calls := hperm.flatten.trans hparts
    have hnone : Store.empty.Adds .empty (([] : List Call).map .ofCall) :=
      Store.sized_empty.adds_nil
    obtain ⟨s, hmerge, hsum⟩ := Profile.foldlM_merge hnone (hfoldable.mono hflatten.subset)
      (fun call hcall => hchecked call (hflatten.subset hcall))
    have hsame : s = (Session.foldAll .empty calls).1 :=
      hsum.unique hadds (hflatten.map _) (hfoldable.mono hflatten.subset).agree_ofCall
    rw [Profile.empty_eq, hmerge, hsame]

/-- Two calls of one function and one of another, over three stores of which one gets none. -/
theorem merge_of_split_workload_three :
    let log : Layout := ⟨⟨"log", 64⟩, [[]], [none]⟩
    ∃ c d e : Call,
      Call.ofEvents .breakableLoop "" [.enter 1 "", .enter 2 "", .enter 4 ""] = .ok c ∧
      Call.ofEvents .breakableLoop "" [.enter 1 "", .enter 5 ""] = .ok d ∧
      Call.ofEvents log "" [] = .ok e ∧
      [(Session.foldAll .empty [c]).1.profile, (Session.foldAll .empty []).1.profile,
          (Session.foldAll .empty [e, d]).1.profile].foldlM Profile.merge .empty =
        .ok (Session.foldAll .empty [c, d, e]).1.profile ∧
      ∃ r ∈ (Session.foldAll .empty [c, d, e]).1.profile.records,
        r.name = "search" ∧ r.calls = 2 ∧ r.preds = [[], [], [1], [], [2], []] := by
  intro log
  obtain ⟨c, d, e, hc, hd, he, hsearch⟩ : ∃ c d e : Call,
      Call.ofEvents .breakableLoop "" [.enter 1 "", .enter 2 "", .enter 4 ""] = .ok c ∧
      Call.ofEvents .breakableLoop "" [.enter 1 "", .enter 5 ""] = .ok d ∧
      Call.ofEvents log "" [] = .ok e ∧
      ∃ r ∈ (Session.foldAll .empty [c, d, e]).1.values.map Aggregate.toRecord,
        r.name = "search" ∧ r.calls = 2 ∧ r.preds = [[], [], [1], [], [2], []] :=
    ⟨_, _, _, rfl, rfl, rfl, by decide +kernel⟩
  have hloop : Layout.breakableLoop.Accepted :=
    .parts (show Layout.ofParts Layout.breakableLoop.id Layout.breakableLoop.successors
      Layout.breakableLoop.postdominators = .ok .breakableLoop by decide +kernel)
  have hlog : log.Accepted :=
    .parts (show Layout.ofParts ⟨"log", 64⟩ [[]] [none] = .ok log by decide)
  have hcalls : ∀ call ∈ [c, d, e], ∃ l : Layout, l.Accepted ∧
      ∃ position events, Call.ofEvents l position events = .ok call := by
    simp only [List.forall_mem_cons]
    exact ⟨⟨_, hloop, "", _, hc⟩, ⟨_, hloop, "", _, hd⟩, ⟨_, hlog, "", _, he⟩, by simp⟩
  have hagree : ∀ x ∈ [c, d, e], ∀ y ∈ [c, d, e], x.layout.name = y.layout.name →
      x.layout = y.layout := by
    simp [(Call.ofEvents_sized hc).2, (Call.ofEvents_sized hd).2, (Call.ofEvents_sized he).2, log,
      Layout.name, Layout.breakableLoop]
  have hparts : [[e, d], [], [c]].flatten.Perm [c, d, e] := List.reverse_perm [c, d, e]
  refine ⟨c, d, e, hc, hd, he,
    (merge_of_split_workload hcalls hagree hparts (List.reverse_perm _)).2.2, ?_⟩
  simpa only [(Store.records_profile_perm _).mem_iff] using hsearch

end Dependence
