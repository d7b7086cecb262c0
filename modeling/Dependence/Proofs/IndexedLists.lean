import Mathlib.Data.List.Basic

/-! Lists gone through with the place of each element. -/

namespace Dependence

theorem forall_mem_zipIdx {α : Type} {xs : List α} {P : α → Prop} :
    (∀ x ∈ xs.zipIdx, P x.1) ↔ ∀ a ∈ xs, P a := by
  rw [← List.forall_mem_map (f := Prod.fst), List.zipIdx_map_fst]

theorem findSome?_zipIdx_eq_some_iff {α β : Type} {xs : List α} {f : α × Nat → Option β} {b : β} :
    xs.zipIdx.findSome? f = some b ↔ ∃ before x after, xs = before ++ x :: after ∧
      (∀ y ∈ before.zipIdx, f y = none) ∧ f (x, before.length) = some b := by
  rw [List.findSome?_eq_some_iff]
  constructor
  · rintro ⟨front, y, back, hsplit, hb, hfront⟩
    obtain ⟨before, rest, rfl, rfl, hrest⟩ := List.zipIdx_eq_append_iff.mp hsplit
    obtain ⟨x, after, rfl, rfl, -⟩ := List.zipIdx_eq_cons_iff.mp hrest.symm
    rw [Nat.zero_add] at hb
    exact ⟨before, x, after, rfl, hfront, hb⟩
  · rintro ⟨before, x, after, rfl, hbefore, hb⟩
    refine ⟨before.zipIdx, (x, before.length), after.zipIdx (before.length + 1), ?_, hb, hbefore⟩
    rw [List.zipIdx_append, List.zipIdx_cons, Nat.zero_add]

theorem flatMap_zipIdx_eq {α β : Type} (xs : List α) (f : α → Nat → List β) {n : Nat}
    (hn : xs.length ≤ n) :
    (xs.zipIdx.flatMap fun x => f x.1 x.2) =
      (List.range n).flatMap fun k => (xs[k]?.map (f · k)).getD [] := by
  induction xs generalizing f n with
  | nil => simp
  | cons x xs ih =>
    obtain ⟨n, rfl⟩ : ∃ m, n = m + 1 := ⟨n - 1, by simp at hn; omega⟩
    have hrest := ih (fun y k => f y (k + 1)) (Nat.le_of_succ_le_succ hn)
    rw [List.zipIdx_cons', List.range_succ_eq_map, List.flatMap_cons, List.flatMap_cons,
      List.flatMap_map, List.flatMap_map]
    simp only [List.getElem?_cons_succ]
    exact congrArg (f x 0 ++ ·) hrest

end Dependence
