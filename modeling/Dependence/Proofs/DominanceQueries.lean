import Dependence.Proofs.DominatorTrees

/-! Asking a dominator tree which node dominates which. The question is answered by going up from the
lower node. The way up ends, since numbers grow along it, and it passes just the nodes that are on
every walk from the root. -/

namespace Dependence

open ParentTable

namespace DominatorTree

variable {t : DominatorTree} {number : Nat → Nat} {a p v : Nat}

theorem immediateDominator?_eq_some_iff :
    t.immediateDominator? v = some p ↔ v ≠ t.root ∧ t.parents.parent? v = some p := by
  rw [immediateDominator?, Option.ite_none_left_eq_some]

theorem walk?_self (t : DominatorTree) (a steps : Nat) : t.walk? a steps a = some a := by
  apply iterate?_of_stop
  exact if_pos rfl

theorem walk?_of_none (h : t.immediateDominator? v = none) (a steps : Nat) :
    t.walk? a steps v = some v := by
  apply iterate?_of_stop
  rw [h, ite_self]

theorem walk?_succ (hne : v ≠ a) (hp : t.immediateDominator? v = some p) (steps : Nat) :
    t.walk? a (steps + 1) v = t.walk? a steps p := by
  apply iterate?_succ_of_step
  rw [if_neg hne, hp]

section Rooted

variable (h : t.parents.Rooted number t.root)
include h

theorem ancestor_iff_of_none (hv : t.immediateDominator? v = none) :
    t.parents.Ancestor a v ↔ v = a := by
  constructor
  · intro ha
    by_contra hne
    obtain ⟨p, hp, -⟩ := ha.exists_parent (Ne.symm hne)
    have hroot : v ≠ t.root := by
      rintro rfl
      exact hne (h.eq_root ha).symm
    rw [immediateDominator?_eq_some_iff.mpr ⟨hroot, hp⟩] at hv
    cases hv
  · rintro rfl
    exact .refl

theorem exists_walk? {steps : Nat} (hsteps : t.parents.above number v ≤ steps) :
    ∃ last, t.walk? a steps v = some last ∧ (last = a ↔ t.parents.Ancestor a v) := by
  induction steps using Nat.strong_induction_on generalizing v with
  | _ steps ih =>
    cases hv : t.immediateDominator? v with
    | none => exact ⟨v, walk?_of_none hv a steps, (ancestor_iff_of_none h hv).symm⟩
    | some p =>
      by_cases hne : v = a
      · subst hne
        exact ⟨v, walk?_self t v steps, iff_of_true rfl .refl⟩
      · -- the parent has fewer nodes above it, so the steps left are enough for it
        obtain ⟨hroot, hp⟩ := immediateDominator?_eq_some_iff.mp hv
        obtain ⟨hsome, hlt⟩ := h.up v p hroot hp
        have hfewer := above_lt_above hsome hlt
        obtain ⟨rest, rfl⟩ : ∃ rest, steps = rest + 1 := ⟨steps - 1, by omega⟩
        obtain ⟨last, hwalk, hlast⟩ := ih rest (Nat.lt_succ_self rest) (v := p) (by omega)
        refine ⟨last, (walk?_succ hne hv rest).trans hwalk, hlast.trans ⟨.up hp, fun ha => ?_⟩⟩
        obtain ⟨q, hq, hqa⟩ := ha.exists_parent (Ne.symm hne)
        exact Option.some.inj (hq.symm.trans hp) ▸ hqa

end Rooted

end DominatorTree

namespace Adjacency

variable {g : Adjacency} {root a b : Nat}

theorem size_dominators (g : Adjacency) (root : Nat) : (g.dominators root).size = g.length := by
  unfold dominators
  split
  · next hroot => exact (Survey.table_settled (Survey.faithful_of hroot)).1.size_eq
  · exact Array.size_replicate

theorem rooted_dominators (hroot : root < g.length) :
    (g.dominators root).parents.Rooted (Survey.of g root).number (g.dominators root).root := by
  rw [dominators_of_lt hroot]
  exact (Survey.table_settled (Survey.faithful_of hroot)).1.rooted

theorem immediateDominator?_of_le (hroot : g.length ≤ root) (b : Nat) :
    (g.dominators root).immediateDominator? b = none := by
  apply Option.eq_none_iff_forall_ne_some.mpr
  intro d hd
  rw [dominators, if_neg hroot.not_gt, DominatorTree.immediateDominator?_eq_some_iff, parent?,
    Array.getElem?_replicate] at hd
  split at hd <;> simp at hd

theorem ancestor_dominators_iff (hroot : root < g.length) :
    (g.dominators root).parents.Ancestor a b ↔
      a = b ∨ (g.Reachable root b ∧ g.Dominates root a b) := by
  by_cases hb : g.Reachable root b
  · have hsame : (g.dominators root).parents.Ancestor a b ↔ g.Dominates root a b := by
      rw [dominators_of_lt hroot]
      exact Survey.ancestor_iff_dominates (Survey.faithful_of hroot) hb
    rw [hsame, and_iff_right hb, iff_or_self]
    rintro rfl
    exact .refl g root a
  · rw [DominatorTree.ancestor_iff_of_none (rooted_dominators hroot)
      (immediateDominator?_of_not_reachable hroot hb)]
    simp [hb, eq_comm]

theorem exists_last (g : Adjacency) (root a b : Nat) :
    ∃ last, (g.dominators root).walk? a g.length b = some last ∧
      (last = a ↔ a = b ∨ (root < g.length ∧ g.Reachable root b ∧ g.Dominates root a b)) := by
  by_cases hroot : root < g.length
  · have hbound : (g.dominators root).parents.above (Survey.of g root).number b ≤ g.length :=
      above_le_size.trans (size_dominators g root).le
    obtain ⟨last, hwalk, hlast⟩ :=
      DominatorTree.exists_walk? (rooted_dominators hroot) (a := a) hbound
    refine ⟨last, hwalk, hlast.trans ?_⟩
    rw [ancestor_dominators_iff hroot, and_iff_right hroot]
  · have hnone := immediateDominator?_of_le (not_lt.mp hroot) b
    exact ⟨b, DominatorTree.walk?_of_none hnone a g.length, by simp [hroot, eq_comm]⟩

/-- Going up from a node ends after at most as many steps as there are nodes, whatever more are
allowed. It meets another node just if that is on every walk from the root to the first one, of which
there is at least one. -/
theorem query_iff_on_every_walk (g : Adjacency) (root a b : Nat) :
    (∃ last, ∀ steps, g.length ≤ steps → (g.dominators root).walk? a steps b = some last) ∧
      ((g.dominators root).dominates a b = true ↔
        a = b ∨ (root < g.length ∧ g.Reachable root b ∧ g.Dominates root a b)) ∧
      (g.length ≤ root ∨ g.length ≤ b ∨ ¬g.Reachable root b →
        ((g.dominators root).dominates a b = true ↔ a = b)) := by
  obtain ⟨last, hwalk, hlast⟩ := exists_last g root a b
  have hanswer : (g.dominators root).dominates a b = true ↔
      a = b ∨ (root < g.length ∧ g.Reachable root b ∧ g.Dominates root a b) := by
    rw [DominatorTree.dominates, decide_eq_true_iff, size_dominators, hwalk, Option.some.injEq]
    exact hlast
  refine ⟨⟨last, fun steps hsteps => iterate?_mono hsteps hwalk⟩, hanswer, fun hb => ?_⟩
  rw [hanswer, or_iff_left_iff_imp]
  rintro ⟨hroot, hreachable, -⟩
  rcases hb with hb | hb | hb
  · exact absurd hroot hb.not_gt
  · exact absurd (hreachable.lt hroot) hb.not_gt
  · exact absurd hreachable hb

example : (dominators [[1, 2], [3], [3], [], [3]] 0).dominates 0 3 = true ∧
    (dominators [[1, 2], [3], [3], [], [3]] 0).dominates 1 3 = false ∧
    (dominators [[1, 2], [3], [3], [], [3]] 0).dominates 0 4 = false := by
  decide +kernel

end Adjacency

end Dependence
