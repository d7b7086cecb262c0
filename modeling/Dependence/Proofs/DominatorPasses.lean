import Mathlib.Algebra.BigOperators.Group.Finset.Basic
import Mathlib.Algebra.Order.BigOperators.Group.Finset
import Dependence.Proofs.ParentTables
import Dependence.Proofs.Surveys

/-! The passes over a survey end with the dominator tree. At every moment the nodes above a node in
the table include all that dominate it. Parents only ever move up, so a pass that changes nothing
comes; after it the nodes above a node are on every walk to it. -/

namespace Dependence

open ParentTable

variable {s : Survey} {g : Adjacency} {t t' : ParentTable} {visited rest : List Nat}
  {a c d p u v w : Nat}

namespace ParentTable

theorem parent?_setIfInBounds (hv : v < t.size) (x : Nat) :
    parent? (t.setIfInBounds v (some c)) x = if x = v then some c else t.parent? x := by
  by_cases hx : x = v
  · subst hx
    simp [parent?, hv]
  · simp [parent?, hx, Array.getElem?_setIfInBounds_ne (Ne.symm hx)]

theorem isSome_setIfInBounds (hv : v < t.size) (x : Nat) :
    (parent? (t.setIfInBounds v (some c)) x).isSome ↔ x = v ∨ (t.parent? x).isSome := by
  rw [parent?_setIfInBounds hv]
  by_cases hx : x = v <;> simp [hx]

theorem setIfInBounds_eq_self (h : t.parent? v = some c) :
    t.setIfInBounds v (some c) = t := by
  have hget : t[v]? = some (some c) := Option.join_eq_some_iff.mp h
  refine Array.ext_getElem? fun i => ?_
  by_cases hi : v = i
  · subst hi
    have hlt : v < t.size := (Array.getElem?_eq_some_iff.mp hget).1
    rw [Array.getElem?_setIfInBounds_self_of_lt hlt, hget]
  · rw [Array.getElem?_setIfInBounds_ne hi]

end ParentTable

namespace Survey

theorem exists_meet? (h : t.Rooted s.number s.root) (hsize : t.size = s.size)
    (ha : (t.parent? a).isSome) (hc : (t.parent? c).isSome) :
    ∃ b, s.meet? t a c = some b ∧ t.NearestCommon [a, c] b := by
  have hle : t.above s.number a ≤ t.size := above_le_size
  have hle' : t.above s.number c ≤ t.size := above_le_size
  exact h.exists_meet? ha hc (by omega)

theorem common?_append (nodes : List Nat) (a : Nat) (best : Option Nat) :
    s.common? t nodes = some best → s.common? t (nodes ++ [a]) =
      match t.parent? a, best with
      | none, _ => some best
      | some _, none => some (some a)
      | some _, some c => (s.meet? t a c).map some := by
  intro h
  rw [common?, List.foldlM_append, ← common?, h]
  simp only [Option.bind_eq_bind, Option.bind_some, List.foldlM_cons, List.foldlM_nil]
  cases t.parent? a <;> cases best <;> simp

theorem exists_common? (h : t.Rooted s.number s.root) (hsize : t.size = s.size) (nodes : List Nat) :
    (s.common? t nodes = some none ∧ ∀ n ∈ nodes, t.parent? n = none) ∨
      ∃ c, s.common? t nodes = some (some c) ∧ t.NearestCommon nodes c := by
  induction nodes using List.reverseRecOn with
  | nil => exact .inl ⟨rfl, by simp⟩
  | append_singleton nodes a ih =>
    cases ha : t.parent? a with
    | none =>
      rcases ih with ⟨hcommon, hnone⟩ | ⟨c, hcommon, hc⟩
      · refine .inl ⟨?_, by simpa [ha, or_imp, forall_and] using hnone⟩
        simp [common?_append _ _ _ hcommon, ha]
      · refine .inr ⟨c, ?_, hc.append_of_none ha⟩
        simp [common?_append _ _ _ hcommon, ha]
    | some p =>
      have hsome : (t.parent? a).isSome := ha ▸ rfl
      rcases ih with ⟨hcommon, hnone⟩ | ⟨c, hcommon, hc⟩
      · have hself : t.NearestCommon (nodes ++ [a]) a := by
          refine .self hsome (by simp) fun n hn hpresent => ?_
          rcases List.mem_append.mp hn with hn | hn
          · simp [hnone n hn] at hpresent
          · exact List.mem_singleton.mp hn
        refine .inr ⟨a, ?_, hself⟩
        simp [common?_append _ _ _ hcommon, ha]
      · obtain ⟨b, hmeet, hb⟩ := exists_meet? h hsize hsome hc.isSome
        refine .inr ⟨b, ?_, hc.append hsome hb⟩
        simp [common?_append _ _ _ hcommon, ha, hmeet]

theorem exists_common?_of_mem (h : t.Rooted s.number s.root) (hsize : t.size = s.size)
    {nodes : List Nat} (hu : u ∈ nodes) (hsome : (t.parent? u).isSome) :
    ∃ c, s.common? t nodes = some (some c) ∧ t.NearestCommon nodes c := by
  refine (exists_common? h hsize nodes).resolve_left fun ⟨_, hnone⟩ => ?_
  rw [hnone u hu] at hsome
  simp at hsome

inductive Downhill (s : Survey) (g : Adjacency) (a : Nat) : Nat → Prop
  | refl : Downhill s g a a
  | step {u v : Nat} (h : Downhill s g a u) (he : g.Edge u v) (hlt : s.number v < s.number u) :
      Downhill s g a v

theorem Downhill.number_le (h : s.Downhill g a v) : s.number v ≤ s.number a := by
  induction h with
  | refl => exact le_rfl
  | step _ _ hlt ih => exact hlt.le.trans ih

theorem Downhill.reachable (h : s.Downhill g a v) (ha : g.Reachable s.root a) :
    g.Reachable s.root v := by
  induction h with
  | refl => exact ha
  | step _ he _ ih => exact ih.snoc he

theorem Downhill.trans (hau : s.Downhill g a u) (huv : s.Downhill g u v) : s.Downhill g a v := by
  induction huv with
  | refl => exact hau
  | step _ he hlt ih => exact .step ih he hlt

/-- What holds of the table while a pass has visited some of the nodes. -/
structure Progress (s : Survey) (g : Adjacency) (t : ParentTable) (visited : List Nat) : Prop where
  size_eq : t.size = s.size
  rooted : t.Rooted s.number s.root
  reachable : ∀ v, (t.parent? v).isSome → g.Reachable s.root v
  downhill : ∀ v p, t.parent? v = some p → s.Downhill g p v
  dominated : ∀ v p, t.parent? v = some p → ∀ d, d ≠ v → g.Dominates s.root d v →
    g.Dominates s.root d p
  lowest : ∀ v p, v ≠ s.root → t.parent? v = some p →
    ∀ d, (∀ u, g.Edge u v → (t.parent? u).isSome → t.Ancestor d u) → s.number p ≤ s.number d
  present : ∀ v ∈ visited, (t.parent? v).isSome
  aligned : ∀ v ∈ visited, ∀ p, t.parent? v = some p →
    ∀ u, g.Edge u v → g.Reachable s.root u → s.number v < s.number u → t.Ancestor p u

namespace Progress

section

variable (h : s.Progress g t visited)
include h

theorem downhill_of_ancestor (ha : t.Ancestor a v) : s.Downhill g a v := by
  induction ha with
  | refl => exact .refl
  | up hp _ ih => exact ih.trans (h.downhill _ _ hp)

theorem ancestor_of_dominates (hv : (t.parent? v).isSome) (hd : g.Dominates s.root d v) :
    t.Ancestor d v := by
  revert hd
  refine h.rooted.induction (motive := fun v => g.Dominates s.root d v → t.Ancestor d v) ?_ ?_ hv
  · intro hd
    rw [hd.eq_root]
    exact .refl
  · intro v p _ hp ih hd
    by_cases hdv : d = v
    · exact hdv ▸ .refl
    · exact .up hp (ih (h.dominated v p hp d hdv hd))

theorem dominates_of_between (hv : (t.parent? v).isSome) (hd : g.Dominates s.root d v)
    (hcv : t.Ancestor c v) (hdc : t.Ancestor d c) : g.Dominates s.root d c := by
  induction hcv with
  | refl => exact hd
  | @up v p hp hcp ih =>
    by_cases hdv : d = v
    · subst hdv
      have hcd : c = d := h.rooted.antisymm hv (.up hp hcp) hdc
      exact hcd ▸ .refl g s.root c
    · exact ih (h.rooted.isSome_parent hp) (h.dominated v p hp d hdv hd)

/-- Above the node that a pass is at, parents lie above all predecessors with greater numbers. So
a node above the end of a downhill path is above its beginning or has a smaller number than that. -/
theorem ancestor_of_downhill
    (hvisited : ∀ x, (t.parent? x).isSome → x ≠ s.root → s.number v < s.number x → x ∈ visited)
    (hp : g.Reachable s.root p) (hpw : s.Downhill g p w) (hw : s.number v < s.number w)
    (hd : t.Ancestor d w) (hle : s.number p ≤ s.number d) : t.Ancestor d p := by
  induction hpw with
  | refl => exact hd
  | @step u w hpu he hlt ih =>
    have hne : d ≠ w := by
      rintro rfl
      exact (hlt.trans_le hpu.number_le).not_ge hle
    obtain ⟨q, hq, hdq⟩ := hd.exists_parent hne
    have hroot : w ≠ s.root := by
      rintro rfl
      exact hne (h.rooted.eq_root hd)
    have hqu : t.Ancestor q u :=
      h.aligned w (hvisited w (hq ▸ rfl) hroot hw) q hq u he (hpu.reachable hp) hlt
    exact ih (hw.trans hlt) (hdq.trans hqu)

end

section

variable (hs : s.Faithful g) (h : s.Progress g t visited) (hnext : s.order = visited ++ v :: rest)
include hs hnext

theorem next_reachable : v ≠ s.root ∧ g.Reachable s.root v :=
  (hs.mem_order v).mp (hnext ▸ by simp)

theorem mem_visited (hx : g.Reachable s.root u) (hroot : u ≠ s.root)
    (hlt : s.number v < s.number u) : u ∈ visited := by
  have hmem : u ∈ visited ++ v :: rest := hnext ▸ (hs.mem_order u).mpr ⟨hroot, hx⟩
  have hrest : ∀ w ∈ rest, s.number w < s.number v := by
    have hsorted := hnext ▸ hs.sorted
    exact fun w hw => List.rel_of_pairwise_cons (List.pairwise_append.mp hsorted).2.1 hw
  rcases List.mem_append.mp hmem with hu | hu
  · exact hu
  · rcases List.mem_cons.mp hu with rfl | hu
    · exact absurd hlt (lt_irrefl _)
    · exact absurd hlt (hrest u hu).not_gt

include h

theorem isSome_of_number_lt (hx : g.Reachable s.root u) (hlt : s.number v < s.number u) :
    (t.parent? u).isSome := by
  by_cases hroot : u = s.root
  · rw [hroot, h.rooted.parent_root]
    rfl
  · exact h.present u (mem_visited hs hnext hx hroot hlt)

theorem lt_size : v < t.size := by
  rw [h.size_eq, hs.size_eq]
  exact (next_reachable hs hnext).2.lt hs.root_lt

theorem exists_present_predecessor :
    ∃ u, g.Edge u v ∧ s.number v < s.number u ∧ (t.parent? u).isSome := by
  obtain ⟨u, he, hu, hlt⟩ := hs.exists_greater v ((hs.mem_order v).mpr (next_reachable hs hnext))
  exact ⟨u, he, hlt, isSome_of_number_lt hs h hnext hu hlt⟩

variable (hc : t.NearestCommon (s.predecessors.getD v []) c)
include hc

omit h hnext in
theorem ancestor_of_edge (he : g.Edge u v) (hu : (t.parent? u).isSome) : t.Ancestor c u :=
  hc.common u ((hs.mem_predecessors u v).mpr he) hu

theorem number_lt_common : s.number v < s.number c := by
  obtain ⟨u, he, hlt, hu⟩ := exists_present_predecessor hs h hnext
  exact hlt.trans_le (h.rooted.number_le (ancestor_of_edge hs hc he hu))

theorem ancestor_parent (hp : t.parent? v = some p) : t.Ancestor c p := by
  have hroot : v ≠ s.root := (next_reachable hs hnext).1
  have hle : s.number p ≤ s.number c :=
    h.lowest v p hroot hp c fun u he hu => ancestor_of_edge hs hc he hu
  have hreachable : g.Reachable s.root p := h.reachable p (h.rooted.isSome_parent hp)
  -- the old parent leads downhill to some predecessor, and the new one is above that
  cases h.downhill v p hp with
  | refl => exact absurd (h.rooted.up _ _ hroot hp).2 (lt_irrefl _)
  | @step u _ hpu he hlt =>
    have hu : (t.parent? u).isSome :=
      isSome_of_number_lt hs h hnext (hpu.reachable hreachable) hlt
    refine h.ancestor_of_downhill (fun x hx hxroot => ?_) hreachable hpu hlt
      (ancestor_of_edge hs hc he hu) hle
    exact mem_visited hs hnext (h.reachable x hx) hxroot

theorem ancestor_of_setIfInBounds (hu : (t.parent? u).isSome)
    (ha : Ancestor (t.setIfInBounds v (some c)) a u) : t.Ancestor a u := by
  have hlt := lt_size hs h hnext
  induction ha with
  | refl => exact .refl
  | @up x q hq _ ih =>
    rw [parent?_setIfInBounds hlt] at hq
    split at hq
    · next hx =>
      subst hx
      obtain rfl := Option.some.inj hq
      obtain ⟨p, hp⟩ := Option.isSome_iff_exists.mp hu
      exact .up hp ((ih hc.isSome).trans (ancestor_parent hs h hnext hc hp))
    · exact .up hq (ih (h.rooted.isSome_parent hq))

theorem reachable_setIfInBounds (x : Nat)
    (hx : (parent? (t.setIfInBounds v (some c)) x).isSome) : g.Reachable s.root x := by
  rcases (isSome_setIfInBounds (lt_size hs h hnext) x).mp hx with rfl | hx
  · exact (next_reachable hs hnext).2
  · exact h.reachable x hx

theorem rooted_setIfInBounds : Rooted (t.setIfInBounds v (some c)) s.number s.root := by
  have hlt := lt_size hs h hnext
  have hroot : s.root ≠ v := (next_reachable hs hnext).1.symm
  have hreachable := reachable_setIfInBounds hs h hnext hc
  refine ⟨?_, fun a b ha hb => hs.number_injective (hreachable a ha) (hreachable b hb),
    fun x p hx hp => ?_⟩
  · rw [parent?_setIfInBounds hlt, if_neg hroot]
    exact h.rooted.parent_root
  · rw [isSome_setIfInBounds hlt]
    rw [parent?_setIfInBounds hlt] at hp
    split at hp
    · next hxv =>
      obtain rfl := Option.some.inj hp
      exact ⟨.inr hc.isSome, hxv ▸ number_lt_common hs h hnext hc⟩
    · exact (h.rooted.up x p hx hp).imp_left .inr

theorem downhill_common : s.Downhill g c v := by
  obtain ⟨u, he, hlt, hu⟩ := exists_present_predecessor hs h hnext
  exact .step (h.downhill_of_ancestor (ancestor_of_edge hs hc he hu)) he hlt

theorem dominates_common (hd : g.Dominates s.root d v) (hne : d ≠ v) : g.Dominates s.root d c := by
  obtain ⟨u, he, -, hu⟩ := exists_present_predecessor hs h hnext
  have habove : t.Ancestor d c := hc.nearest d fun n hn hsome =>
    h.ancestor_of_dominates hsome (hd.of_edge hne ((hs.mem_predecessors n v).mp hn))
  exact h.dominates_of_between hu (hd.of_edge hne he) (ancestor_of_edge hs hc he hu) habove

theorem setIfInBounds : s.Progress g (t.setIfInBounds v (some c)) (visited ++ [v]) := by
  have hsize := lt_size hs h hnext
  have hsome := fun x => (isSome_setIfInBounds (c := c) hsize x).mpr
  have hold : ∀ x, x ≠ v → parent? (t.setIfInBounds v (some c)) x = t.parent? x := fun x hx => by
    rw [parent?_setIfInBounds hsize, if_neg hx]
  have hnew : parent? (t.setIfInBounds v (some c)) v = some c := by
    rw [parent?_setIfInBounds hsize, if_pos rfl]
  refine ⟨by simpa using h.size_eq, rooted_setIfInBounds hs h hnext hc,
    reachable_setIfInBounds hs h hnext hc, fun x p hp => ?_, fun x p hp d hdx hd => ?_,
    fun x p hx hp d hd => ?_, fun x hx => ?_, fun x hx p hp u he hu hlt => ?_⟩
  · by_cases hxv : x = v
    · subst hxv
      exact Option.some.inj (hnew.symm.trans hp) ▸ downhill_common hs h hnext hc
    · exact h.downhill x p (hold x hxv ▸ hp)
  · by_cases hxv : x = v
    · subst hxv
      exact Option.some.inj (hnew.symm.trans hp) ▸ dominates_common hs h hnext hc hd hdx
    · exact h.dominated x p (hold x hxv ▸ hp) d hdx hd
  · -- what is above all predecessors after the step was above them before it
    have hd' : ∀ u, g.Edge u x → (t.parent? u).isSome → t.Ancestor d u := fun u he hu =>
      ancestor_of_setIfInBounds hs h hnext hc hu (hd u he (hsome u (.inr hu)))
    by_cases hxv : x = v
    · subst hxv
      obtain rfl := Option.some.inj (hnew.symm.trans hp)
      exact h.rooted.number_le (hc.nearest d fun n hn => hd' n ((hs.mem_predecessors n x).mp hn))
    · exact h.lowest x p hx (hold x hxv ▸ hp) d hd'
  · rcases List.mem_append.mp hx with hx | hx
    · exact hsome x (.inr (h.present x hx))
    · exact hsome x (.inl (List.mem_singleton.mp hx))
  · rcases List.mem_append.mp hx with hx | hx
    · -- predecessors with a number greater than that of `v` keep all that is above them
      have hxv : s.number v < s.number x := by
        have hsorted := hnext ▸ hs.sorted
        exact (List.pairwise_append.mp hsorted).2.2 x hx v List.mem_cons_self
      have hne : x ≠ v := fun hne => (hne ▸ hxv).ne rfl
      exact (h.rooted.ancestor_congr hold (hxv.trans hlt)).mpr
        (h.aligned x hx p (hold x hne ▸ hp) u he hu hlt)
    · obtain rfl := List.mem_singleton.mp hx
      obtain rfl := Option.some.inj (hnew.symm.trans hp)
      have hpresent := isSome_of_number_lt hs h hnext hu hlt
      exact (h.rooted.ancestor_congr hold hlt).mpr (ancestor_of_edge hs hc he hpresent)

end

end Progress

def potential (s : Survey) (t : ParentTable) : Nat :=
  ∑ v ∈ Finset.range s.size, (t.parent? v).elim 0 fun p => s.number p + 1

namespace Progress

theorem potential_le (hs : s.Faithful g) (h : s.Progress g t visited) :
    s.potential t ≤ s.size * (s.size + 1) := by
  have hterm : ∀ v ∈ Finset.range s.size,
      ((t.parent? v).elim 0 fun p => s.number p + 1) ≤ s.size + 1 := by
    intro v _
    cases hp : t.parent? v with
    | none => exact Nat.zero_le _
    | some p =>
      have hle := hs.number_le p (h.reachable p (h.rooted.isSome_parent hp))
      simpa using hle
  simpa [potential] using Finset.sum_le_card_nsmul _ _ _ hterm

theorem eq_or_potential_lt (hs : s.Faithful g) (h : s.Progress g t visited)
    (hnext : s.order = visited ++ v :: rest)
    (hc : t.NearestCommon (s.predecessors.getD v []) c) :
    t.setIfInBounds v (some c) = t ∨ s.potential t < s.potential (t.setIfInBounds v (some c)) := by
  have hsize := lt_size hs h hnext
  by_cases hvc : t.parent? v = some c
  · exact .inl (setIfInBounds_eq_self hvc)
  · have hup : ((t.parent? v).elim 0 fun p => s.number p + 1) < s.number c + 1 := by
      cases hp : t.parent? v with
      | none => exact Nat.succ_pos _
      | some p =>
        have hcp := ancestor_parent hs h hnext hc hp
        have hne : s.number p ≠ s.number c := fun heq => by
          have hpc := h.rooted.injective p c (h.rooted.isSome_parent hp) hc.isSome heq
          exact hvc (hpc ▸ hp)
        exact Nat.succ_lt_succ ((h.rooted.number_le hcp).lt_of_ne hne)
    refine .inr (Finset.sum_lt_sum (fun x _ => ?_)
      ⟨v, Finset.mem_range.mpr (h.size_eq ▸ hsize), ?_⟩)
    · rw [parent?_setIfInBounds hsize]
      by_cases hx : x = v
      · subst hx
        simpa using hup.le
      · rw [if_neg hx]
    · rw [parent?_setIfInBounds hsize, if_pos rfl]
      exact hup

theorem exists_improve (hs : s.Faithful g) (h : s.Progress g t visited)
    (hnext : s.order = visited ++ v :: rest) :
    ∃ c, t.NearestCommon (s.predecessors.getD v []) c ∧
      s.improve t v = some (t.setIfInBounds v (some c)) := by
  obtain ⟨u, he, -, hu⟩ := exists_present_predecessor hs h hnext
  obtain ⟨c, hcommon, hc⟩ :=
    exists_common?_of_mem h.rooted h.size_eq ((hs.mem_predecessors u v).mpr he) hu
  refine ⟨c, hc, ?_⟩
  rw [improve, hcommon]
  rfl

theorem exists_foldlM (hs : s.Faithful g) (h : s.Progress g t visited)
    (hnext : s.order = visited ++ rest) :
    ∃ t', rest.foldlM s.improve t = some t' ∧ s.Progress g t' s.order ∧
      (t' = t ∨ s.potential t < s.potential t') ∧
      (t' = t → ∀ v ∈ rest, s.improve t v = some t) := by
  induction rest generalizing t visited with
  | nil => exact ⟨t, rfl, by simpa [hnext] using h, .inl rfl, by simp⟩
  | cons v rest ih =>
    obtain ⟨c, hc, himprove⟩ := exists_improve hs h hnext
    have hstep := eq_or_potential_lt hs h hnext hc
    obtain ⟨t', hfold, h', hmove, hstill⟩ :=
      ih (setIfInBounds hs h hnext hc) (by simpa using hnext)
    refine ⟨t', ?_, h', ?_, fun heq => ?_⟩
    · rw [List.foldlM_cons, himprove]
      exact hfold
    · rcases hstep with hsame | hlt
      · rwa [hsame] at hmove
      · rcases hmove with rfl | hlt'
        · exact .inr hlt
        · exact .inr (hlt.trans hlt')
    · have hsame : t.setIfInBounds v (some c) = t := by
        subst heq
        rcases hstep with hsame | hlt
        · exact hsame
        · rcases hmove with hback | hlt'
          · exact hback.symm
          · exact absurd (hlt.trans hlt') (lt_irrefl _)
      rw [hsame] at himprove hstill
      simpa [himprove] using hstill heq

theorem exists_settle? (hs : s.Faithful g) (h : s.Progress g t []) (passes : Nat)
    (hpasses : s.size * (s.size + 1) < s.potential t + passes) :
    ∃ t', s.settle? passes t = some t' ∧ s.Progress g t' s.order ∧
      ∀ v ∈ s.order, s.improve t' v = some t' := by
  induction passes generalizing t with
  | zero => exact absurd hpasses (h.potential_le hs).not_gt
  | succ passes ih =>
    obtain ⟨t', hpass, h', hmove, hstill⟩ := exists_foldlM hs h (List.nil_append _).symm
    have hpass : s.pass t = some t' := hpass
    by_cases heq : t' = t
    · subst heq
      exact ⟨t', by simp [settle?, hpass], h', hstill rfl⟩
    · have hlt := hmove.resolve_left heq
      have hagain : s.Progress g t' [] := { h' with present := by simp, aligned := by simp }
      obtain ⟨t'', hsettle, hdone⟩ := ih hagain (by omega)
      exact ⟨t'', by simp [settle?, hpass, heq, hsettle], hdone⟩

end Progress

theorem parent?_start (hroot : s.root < s.size) (v : Nat) :
    s.start.parent? v = if v = s.root then some s.root else none := by
  rw [start, parent?_setIfInBounds (by simpa using hroot)]
  by_cases hv : v = s.root
  · simp [hv]
  · rw [if_neg hv, if_neg hv, parent?, Array.getElem?_replicate]
    split <;> rfl

theorem progress_start (hs : s.Faithful g) : s.Progress g s.start [] := by
  have hstart := parent?_start (s := s) (by simpa [hs.size_eq] using hs.root_lt)
  have honly : ∀ v, (s.start.parent? v).isSome → v = s.root := fun v hv => by
    by_contra hne
    simp [hstart, hne] at hv
  have hroot : ∀ v p, s.start.parent? v = some p → v = p := fun v p hp => by
    have hv := honly v (hp ▸ rfl)
    subst hv
    simpa [hstart] using hp
  refine ⟨by simp [start], ⟨by simp [hstart], fun a b ha hb _ => ?_, fun v p hv hp => ?_⟩,
    fun v hv => ?_, fun v p hp => ?_, fun v p hp d _ hd => ?_, fun v p hv hp => ?_, by simp, by simp⟩
  · exact (honly a ha).trans (honly b hb).symm
  · exact absurd (honly v (hp ▸ rfl)) hv
  · exact honly v hv ▸ .refl _
  · exact hroot v p hp ▸ .refl
  · exact hroot v p hp ▸ hd
  · exact absurd (honly v (hp ▸ rfl)) hv

theorem settle?_start (hs : s.Faithful g) :
    s.settle? ((s.size + 1) * (s.size + 1)) s.start = some s.table ∧
      s.Progress g s.table s.order ∧ ∀ v ∈ s.order, s.improve s.table v = some s.table := by
  have hpasses : s.size * (s.size + 1) < s.potential s.start + (s.size + 1) * (s.size + 1) := by
    rw [Nat.succ_mul s.size (s.size + 1)]
    omega
  obtain ⟨t, hsettle, h⟩ := (progress_start hs).exists_settle? hs _ hpasses
  rw [table, hsettle]
  exact ⟨rfl, h⟩

theorem table_settled (hs : s.Faithful g) :
    s.Progress g s.table s.order ∧ ∀ v ∈ s.order, s.improve s.table v = some s.table :=
  (settle?_start hs).2

end Survey

end Dependence
