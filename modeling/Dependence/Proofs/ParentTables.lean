import Mathlib.Data.Finset.Card
import Mathlib.Data.Finset.Range
import Dependence.Digraph.Dominators

/-! Trees given by a parent table, in which the numbers of the nodes grow towards the root. Two nodes
that climb towards each other meet at their nearest common ancestor. -/

namespace Dependence.ParentTable

variable {t t' : ParentTable} {number : Nat → Nat} {root a b c d v p : Nat} {nodes : List Nat}

inductive Ancestor (t : ParentTable) (a : Nat) : Nat → Prop
  | refl : Ancestor t a a
  | up {v p : Nat} (h : t.parent? v = some p) (hp : Ancestor t a p) : Ancestor t a v

theorem Ancestor.trans (hab : t.Ancestor a b) (hbc : t.Ancestor b c) : t.Ancestor a c := by
  induction hbc with
  | refl => exact hab
  | up h _ ih => exact .up h ih

theorem Ancestor.exists_parent (h : t.Ancestor a v) (hne : a ≠ v) :
    ∃ p, t.parent? v = some p ∧ t.Ancestor a p := by
  cases h with
  | refl => exact absurd rfl hne
  | up hp h => exact ⟨_, hp, h⟩

/-- The nodes in the table are told apart by their numbers, and all but the root have a parent in
the table with a greater number. -/
structure Rooted (t : ParentTable) (number : Nat → Nat) (root : Nat) : Prop where
  parent_root : t.parent? root = some root
  injective : ∀ a b, (t.parent? a).isSome → (t.parent? b).isSome → number a = number b → a = b
  up : ∀ v p, v ≠ root → t.parent? v = some p → (t.parent? p).isSome ∧ number v < number p

def above (t : ParentTable) (number : Nat → Nat) (v : Nat) : Nat :=
  ((Finset.range t.size).filter fun x => (t.parent? x).isSome ∧ number v < number x).card

theorem lt_size_of_isSome (h : (t.parent? v).isSome) : v < t.size := by
  by_contra hv
  rw [parent?, Array.getElem?_eq_none (Nat.le_of_not_lt hv)] at h
  simp at h

theorem above_lt_above (h : (t.parent? b).isSome) (hab : number a < number b) :
    t.above number b < t.above number a := by
  refine Finset.card_lt_card (Finset.ssubset_iff_of_subset ?_ |>.mpr ⟨b, ?_, ?_⟩)
  · intro x hx
    simp only [Finset.mem_filter] at hx ⊢
    exact ⟨hx.1, hx.2.1, hab.trans hx.2.2⟩
  · exact Finset.mem_filter.mpr ⟨Finset.mem_range.mpr (lt_size_of_isSome h), h, hab⟩
  · simp

theorem above_anti (hab : number a ≤ number b) : t.above number b ≤ t.above number a := by
  refine Finset.card_le_card fun x hx => ?_
  simp only [Finset.mem_filter] at hx ⊢
  exact ⟨hx.1, hx.2.1, hab.trans_lt hx.2.2⟩

theorem above_le_size : t.above number v ≤ t.size := by
  have := Finset.card_filter_le (Finset.range t.size)
    fun x => (t.parent? x).isSome ∧ number v < number x
  rwa [Finset.card_range] at this

namespace Rooted

variable (h : t.Rooted number root)
include h

theorem isSome_parent (hp : t.parent? v = some p) : (t.parent? p).isSome := by
  by_cases hv : v = root
  · subst hv
    obtain rfl : v = p := Option.some.inj (h.parent_root.symm.trans hp)
    rw [hp]
    rfl
  · exact (h.up v p hv hp).1

theorem number_le_parent (hp : t.parent? v = some p) : number v ≤ number p := by
  by_cases hv : v = root
  · subst hv
    obtain rfl : v = p := Option.some.inj (h.parent_root.symm.trans hp)
    exact le_rfl
  · exact (h.up v p hv hp).2.le

theorem isSome_ancestor (hv : (t.parent? v).isSome) (ha : t.Ancestor a v) :
    (t.parent? a).isSome := by
  induction ha with
  | refl => exact hv
  | up hp _ ih => exact ih (h.isSome_parent hp)

theorem number_le (ha : t.Ancestor a v) : number v ≤ number a := by
  induction ha with
  | refl => exact le_rfl
  | up hp _ ih => exact (h.number_le_parent hp).trans ih

theorem antisymm (hb : (t.parent? b).isSome) (hab : t.Ancestor a b) (hba : t.Ancestor b a) :
    a = b :=
  h.injective a b (h.isSome_ancestor hb hab) hb ((h.number_le hba).antisymm (h.number_le hab))

theorem eq_root (ha : t.Ancestor a root) : a = root := by
  generalize hv : root = v at ha
  induction ha with
  | refl => rfl
  | up hp _ ih =>
    subst hv
    obtain rfl := Option.some.inj (h.parent_root.symm.trans hp)
    exact ih rfl

theorem induction {motive : Nat → Prop} (base : motive root)
    (step : ∀ v p, v ≠ root → t.parent? v = some p → motive p → motive v)
    (hv : (t.parent? v).isSome) : motive v := by
  induction hn : t.above number v using Nat.strong_induction_on generalizing v with
  | _ n ih =>
    by_cases hroot : v = root
    · exact hroot ▸ base
    · obtain ⟨p, hp⟩ := Option.isSome_iff_exists.mp hv
      obtain ⟨hsome, hlt⟩ := h.up v p hroot hp
      exact step v p hroot hp (ih _ (hn ▸ above_lt_above hsome hlt) hsome rfl)

theorem ancestor_root (hv : (t.parent? v).isSome) : t.Ancestor root v :=
  h.induction .refl (fun _ _ _ hp hroot => .up hp hroot) hv

theorem ancestor_congr (hsame : ∀ x, x ≠ v → t'.parent? x = t.parent? x) (hb : number v < number b) :
    t'.Ancestor a b ↔ t.Ancestor a b := by
  constructor <;> intro ha
  · induction ha with
    | refl => exact .refl
    | @up x p hp _ ih =>
      rw [hsame x (fun hx => (hx ▸ hb).ne rfl)] at hp
      exact .up hp (ih (hb.trans_le (h.number_le_parent hp)))
  · induction ha with
    | refl => exact .refl
    | @up x p hp _ ih =>
      have hp' := (hsame x (fun hx => (hx ▸ hb).ne rfl)).trans hp
      exact .up hp' (ih (hb.trans_le (h.number_le_parent hp)))

end Rooted

structure NearestCommon (t : ParentTable) (nodes : List Nat) (c : Nat) : Prop where
  isSome : (t.parent? c).isSome
  common : ∀ n ∈ nodes, (t.parent? n).isSome → t.Ancestor c n
  nearest : ∀ d, (∀ n ∈ nodes, (t.parent? n).isSome → t.Ancestor d n) → t.Ancestor d c

theorem NearestCommon.self (h : (t.parent? a).isSome) (ha : a ∈ nodes)
    (hnodes : ∀ n ∈ nodes, (t.parent? n).isSome → n = a) : t.NearestCommon nodes a where
  isSome := h
  common n hn hsome := hnodes n hn hsome ▸ .refl
  nearest _ hd := hd a ha h

theorem NearestCommon.append_of_none (h : t.NearestCommon nodes c) (ha : t.parent? a = none) :
    t.NearestCommon (nodes ++ [a]) c where
  isSome := h.isSome
  common n hn hsome := by
    rcases List.mem_append.mp hn with hn | hn
    · exact h.common n hn hsome
    · rw [List.mem_singleton.mp hn, ha] at hsome
      simp at hsome
  nearest d hd := h.nearest d fun n hn => hd n (List.mem_append_left _ hn)

theorem NearestCommon.append (h : t.NearestCommon nodes b) (ha : (t.parent? a).isSome)
    (hc : t.NearestCommon [a, b] c) : t.NearestCommon (nodes ++ [a]) c := by
  have hca : t.Ancestor c a := hc.common a (by simp) ha
  have hcb : t.Ancestor c b := hc.common b (by simp) h.isSome
  refine ⟨hc.isSome, fun n hn hsome => ?_, fun d hd => hc.nearest d fun n hn _ => ?_⟩
  · rcases List.mem_append.mp hn with hn | hn
    · exact hcb.trans (h.common n hn hsome)
    · exact List.mem_singleton.mp hn ▸ hca
  · rcases List.mem_pair.mp hn with rfl | rfl
    · exact hd n (by simp) ha
    · exact h.nearest d fun n hn => hd n (List.mem_append_left _ hn)

/-- The node with the smaller number may climb: no common ancestor is passed. -/
theorem NearestCommon.climb (h : t.Rooted number root) (hlt : number a < number b)
    (hp : t.parent? a = some p) (hb : (t.parent? b).isSome) (hc : t.NearestCommon [p, b] c) :
    t.NearestCommon [a, b] c := by
  have hcp : t.Ancestor c p := hc.common p (by simp) (h.isSome_parent hp)
  have hcb : t.Ancestor c b := hc.common b (by simp) hb
  refine ⟨hc.isSome, fun n hn _ => ?_, fun d hd => hc.nearest d fun n hn _ => ?_⟩
  · rcases List.mem_pair.mp hn with rfl | rfl
    · exact .up hp hcp
    · exact hcb
  · have hda : t.Ancestor d a := hd a (by simp) (hp ▸ rfl)
    have hdb : t.Ancestor d b := hd b (by simp) hb
    rcases List.mem_pair.mp hn with rfl | rfl
    · have hne : d ≠ a := fun hda => absurd (h.number_le hdb) (hda ▸ hlt).not_ge
      obtain ⟨q, hq, hdq⟩ := hda.exists_parent hne
      exact Option.some.inj (hq.symm.trans hp) ▸ hdq
    · exact hdb

theorem NearestCommon.swap (h : t.NearestCommon [a, b] c) : t.NearestCommon [b, a] c where
  isSome := h.isSome
  common n hn := h.common n (by simpa [or_comm] using hn)
  nearest d hd := h.nearest d fun n hn => hd n (by simpa [or_comm] using hn)

theorem NearestCommon.unique {c' : Nat} (h : t.Rooted number root)
    (hc : t.NearestCommon nodes c) (hc' : t.NearestCommon nodes c') : c = c' :=
  h.antisymm hc'.isSome (hc'.nearest c hc.common) (hc.nearest c' hc'.common)

theorem meet?_self (parent? : Nat → Option Nat) (steps : Nat) :
    meet? steps parent? number a a = some a := by
  have hstop : climb parent? number (a, a) = none := by simp [climb]
  rw [meet?, iterate?_of_stop hstop]
  rfl

theorem meet?_succ_left (hlt : number a < number b) (hp : t.parent? a = some p) (steps : Nat) :
    meet? (steps + 1) t.parent? number a b = meet? steps t.parent? number p b := by
  have hne : a ≠ b := fun hab => hlt.ne (congrArg number hab)
  have hstep : climb t.parent? number (a, b) = some (p, b) := by simp [climb, hne, hlt, hp]
  rw [meet?, iterate?_succ_of_step hstep, meet?]

theorem meet?_succ_right (hlt : number b < number a) (hp : t.parent? b = some p) (steps : Nat) :
    meet? (steps + 1) t.parent? number a b = meet? steps t.parent? number a p := by
  have hne : a ≠ b := fun hab => hlt.ne' (congrArg number hab)
  have hstep : climb t.parent? number (a, b) = some (a, p) := by
    simp [climb, hne, hlt, hlt.le.not_gt, hp]
  rw [meet?, iterate?_succ_of_step hstep, meet?]

theorem Rooted.exists_step (h : t.Rooted number root) (ha : (t.parent? a).isSome)
    (hb : (t.parent? b).isSome) (hlt : number a < number b) :
    ∃ p, t.parent? a = some p ∧ (t.parent? p).isSome ∧ t.above number p < t.above number a := by
  have hroot : a ≠ root := by
    rintro rfl
    exact hlt.not_ge (h.number_le (h.ancestor_root hb))
  obtain ⟨p, hp⟩ := Option.isSome_iff_exists.mp ha
  obtain ⟨hsome, hup⟩ := h.up a p hroot hp
  exact ⟨p, hp, hsome, above_lt_above hsome hup⟩

theorem Rooted.exists_meet? (h : t.Rooted number root) (ha : (t.parent? a).isSome)
    (hb : (t.parent? b).isSome) {steps : Nat}
    (hsteps : t.above number a + t.above number b ≤ steps) :
    ∃ c, meet? steps t.parent? number a b = some c ∧ t.NearestCommon [a, b] c := by
  induction steps generalizing a b with
  | zero =>
    -- no step is left, so neither node can have the smaller number
    have heq : a = b := by
      refine h.injective a b ha hb (le_antisymm ?_ ?_) <;> by_contra hlt
      · obtain ⟨p, -, -, hup⟩ := h.exists_step hb ha (not_le.mp hlt)
        omega
      · obtain ⟨p, -, -, hup⟩ := h.exists_step ha hb (not_le.mp hlt)
        omega
    subst heq
    exact ⟨a, meet?_self _ _, .self ha (by simp) (by simp)⟩
  | succ steps ih =>
    rcases lt_trichotomy (number a) (number b) with hlt | heq | hlt
    · obtain ⟨p, hp, hsome, hup⟩ := h.exists_step ha hb hlt
      obtain ⟨c, hmeet, hc⟩ := ih hsome hb (by omega)
      exact ⟨c, (meet?_succ_left hlt hp steps).trans hmeet, hc.climb h hlt hp hb⟩
    · obtain rfl := h.injective a b ha hb heq
      exact ⟨a, meet?_self _ _, .self ha (by simp) (by simp)⟩
    · obtain ⟨p, hp, hsome, hup⟩ := h.exists_step hb ha hlt
      obtain ⟨c, hmeet, hc⟩ := ih ha hsome (by omega)
      exact ⟨c, (meet?_succ_right hlt hp steps).trans hmeet, (hc.swap.climb h hlt hp ha).swap⟩

end Dependence.ParentTable
