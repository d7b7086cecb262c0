import Dependence.Proofs.WellFormedRecords

/-! The algebra of merging. Calls are added and dependences united, for which the order does not
matter; the layout is that of the aggregate that is merged into. So merging is associative, and it
is commutative but for the layout, which the check before it does not look at beyond the number of
blocks. -/

namespace Dependence.Aggregate

variable {a b c ab abc : Aggregate} {xs ys : List Aggregate}

inductive Basic : Aggregate → Prop
  | new {l : Layout} (h : l.Accepted) : Basic (.new l)
  | read {r : Record} {a : Aggregate} (h : ofRecord r = .ok a) : Basic a

theorem Basic.sized (h : a.Basic) : a.Sized := by
  cases h with
  | new h => exact sized_new _
  | read h => exact (Holds.of_ofRecord h).sized

theorem IsSum.preds_eq (ha : a.IsSum xs) (hb : b.IsSum ys) (h : xs.Perm ys)
    (hnodes : a.layout.nodeCount = b.layout.nodeCount) : a.preds = b.preds := by
  refine BitSet.AllSized.ext ha.sized (hnodes ▸ hb.sized) fun x y => ?_
  have hmem : (∃ p ∈ xs, p.DependsOn x y) ↔ ∃ p ∈ ys, p.DependsOn x y := by
    simp only [h.mem_iff]
  exact (ha.dependsOn x y).trans (hmem.trans (hb.dependsOn x y).symm)

theorem merge_eq_ok_iff (ha : a.Sized) (hb : b.Sized) :
    a.merge b = .ok c ↔ a.checkMergeable b = .ok () ∧ c.IsSum [a, b] := by
  cases hcheck : a.checkMergeable b with
  | error e => simp [merge_of_error hcheck]
  | ok =>
    obtain ⟨d, hd, hsum⟩ := isSum_of_merge ha hb hcheck
    rw [hd, Except.ok.injEq, and_iff_right rfl]
    constructor
    · rintro rfl
      exact hsum
    · intro hc
      have hlayout : some d.layout = some c.layout := hsum.layout.symm.trans hc.layout
      exact hsum.unique hc (List.Perm.refl _) (Option.some.inj hlayout)

theorem merge_comm_but_layout (ha : a.Sized) (hb : b.Sized) (h : a.merge b = .ok ab) :
    ∃ ba, b.merge a = .ok ba ∧ ba.calls = ab.calls ∧ ba.preds = ab.preds ∧
      ab.layout = a.layout ∧ ba.layout = b.layout := by
  obtain ⟨hcheck, hab⟩ := (merge_eq_ok_iff ha hb).mp h
  obtain ⟨hid, hnodes⟩ := (checkMergeable_iff ha hb).mp hcheck
  have hback : b.checkMergeable a = .ok () :=
    (checkMergeable_iff hb ha).mpr ⟨hid.symm, hnodes.symm⟩
  obtain ⟨ba, hba, hsum⟩ := isSum_of_merge hb ha hback
  have hablayout : a.layout = ab.layout := Option.some.inj hab.layout
  have hbalayout : b.layout = ba.layout := Option.some.inj hsum.layout
  have hperm : [b, a].Perm [a, b] := List.Perm.swap a b []
  refine ⟨ba, hba, ?_, ?_, hablayout.symm, hbalayout.symm⟩
  · rw [hsum.calls, hab.calls, total_perm hperm]
  · exact hsum.preds_eq hab hperm (by rw [← hbalayout, ← hablayout, hnodes])

theorem merge_assoc_of_ok (ha : a.Sized) (hb : b.Sized) (hc : c.Sized) (hab : a.merge b = .ok ab)
    (habc : ab.merge c = .ok abc) : ∃ bc, b.merge c = .ok bc ∧ a.merge bc = .ok abc := by
  obtain ⟨hcheck, hsum⟩ := (merge_eq_ok_iff ha hb).mp hab
  obtain ⟨hcheck', hsum'⟩ := (merge_eq_ok_iff hsum.sized hc).mp habc
  have hlayout : a.layout = ab.layout := Option.some.inj hsum.layout
  have hall : abc.IsSum ([] ++ ([a, b] ++ [c])) := IsSum.flatten hsum' hsum
  obtain ⟨hid, hnodes⟩ := (checkMergeable_iff ha hb).mp hcheck
  obtain ⟨hid', hnodes'⟩ := (checkMergeable_iff hsum.sized hc).mp hcheck'
  rw [← hlayout] at hid' hnodes'
  have hbc : b.checkMergeable c = .ok () :=
    (checkMergeable_iff hb hc).mpr ⟨hid'.trans hid.symm, hnodes'.trans hnodes.symm⟩
  obtain ⟨bc, hmerge, hright⟩ := isSum_of_merge hb hc hbc
  have hbclayout : b.layout = bc.layout := Option.some.inj hright.layout
  have houter : a.checkMergeable bc = .ok () :=
    (checkMergeable_iff ha hright.sized).mpr (hbclayout ▸ ⟨hid, hnodes⟩)
  obtain ⟨d, hd, hdsum⟩ := isSum_of_merge ha hright.sized houter
  have hdall : d.IsSum ([a] ++ ([b, c] ++ [])) := IsSum.flatten hdsum hright
  have hsame : d = abc := hdall.unique hall (List.Perm.refl _)
    (Option.some.inj (hdall.layout.symm.trans hall.layout))
  exact ⟨bc, hmerge, hsame ▸ hd⟩

/-- If one aggregate can be merged into another then also the other way round, with the same calls
and dependences; the results have each the layout of the aggregate merged into, so they are equal
just if the layouts are. Merging three aggregates may begin at either end. -/
theorem merge_comm_up_to_layout_and_assoc (ha : a.Basic) (hb : b.Basic) (hc : c.Basic) :
    (∀ ab, a.merge b = .ok ab → ∃ ba, b.merge a = .ok ba ∧ ba.calls = ab.calls ∧
        ba.preds = ab.preds ∧ ab.layout = a.layout ∧ ba.layout = b.layout ∧
        (ba = ab ↔ b.layout = a.layout)) ∧
      ∀ ab abc, a.merge b = .ok ab → ab.merge c = .ok abc →
        ∃ bc, b.merge c = .ok bc ∧ a.merge bc = .ok abc := by
  refine ⟨fun ab hab => ?_, fun ab abc hab habc =>
    merge_assoc_of_ok ha.sized hb.sized hc.sized hab habc⟩
  obtain ⟨ba, hba, hcalls, hpreds, hablayout, hbalayout⟩ :=
    merge_comm_but_layout ha.sized hb.sized hab
  refine ⟨ba, hba, hcalls, hpreds, hablayout, hbalayout, ?_⟩
  rw [← hablayout, ← hbalayout]
  constructor
  · rintro rfl
    rfl
  · intro hlayout
    cases ba
    cases ab
    simp_all

def row : Record := ⟨"f", 16, [[1], [2], []], [some 1, some 2, none], 1, [[], [], []]⟩

def detour : Record := ⟨"f", 16, [[1, 2], [2], []], [some 2, some 2, none], 2, [[], [0], []]⟩

theorem merge_comm_up_to_layout_and_assoc_detour :
    ∃ a b ab abb : Aggregate, ofRecord detour = .ok a ∧ ofRecord row = .ok b ∧
      a.merge b = .ok ab ∧ ab.merge b = .ok abb ∧
      (∃ ba, b.merge a = .ok ba ∧ ba.calls = ab.calls ∧ ba.preds = ab.preds ∧ ba ≠ ab) ∧
      ∃ bb, b.merge b = .ok bb ∧ a.merge bb = .ok abb := by
  obtain ⟨a, b, ab, abb, ha, hb, hab, habb, hlayouts⟩ : ∃ a b ab abb : Aggregate,
      ofRecord detour = .ok a ∧ ofRecord row = .ok b ∧ a.merge b = .ok ab ∧
        ab.merge b = .ok abb ∧ b.layout ≠ a.layout :=
    ⟨_, _, _, _, rfl, rfl, rfl, rfl, by decide⟩
  obtain ⟨hcomm, hassoc⟩ := merge_comm_up_to_layout_and_assoc (.read ha) (.read hb) (.read hb)
  obtain ⟨ba, hba, hcalls, hpreds, -, -, hsame⟩ := hcomm ab hab
  have hne : ba ≠ ab := fun h => hlayouts (hsame.mp h)
  exact ⟨a, b, ab, abb, ha, hb, hab, habb, ⟨ba, hba, hcalls, hpreds, hne⟩, hassoc ab abb hab habb⟩

/-- Which layout is kept depends on the order. -/
theorem merge_not_comm :
    ∃ a b ab ba : Aggregate, ofRecord row = .ok a ∧ ofRecord detour = .ok b ∧
      a.merge b = .ok ab ∧ b.merge a = .ok ba ∧ ab ≠ ba :=
  ⟨_, _, _, _, rfl, rfl, rfl, rfl, by decide⟩

end Dependence.Aggregate
