import Mathlib.Data.List.Basic
import Mathlib.Data.List.Forall2
import Mathlib.Data.List.Perm.Basic
import Std.Data.ExtTreeMap

/-! Lists of values with keys, such as the events of many contexts in the order in which they come
in. Two lists that have the same values at each key are the same up to order. -/

namespace Dependence

variable {α β κ : Type} [DecidableEq κ] {k k' : κ} {xs ys : List (κ × α)}

def valuesAt (k : κ) (xs : List (κ × α)) : List α :=
  xs.filterMap fun x => if x.1 = k then some x.2 else none

@[simp] theorem valuesAt_nil : valuesAt k ([] : List (κ × α)) = [] := rfl

@[simp] theorem valuesAt_cons (x : κ × α) :
    valuesAt k (x :: xs) = if x.1 = k then x.2 :: valuesAt k xs else valuesAt k xs := by
  by_cases h : x.1 = k <;> simp [valuesAt, h]

@[simp] theorem valuesAt_append : valuesAt k (xs ++ ys) = valuesAt k xs ++ valuesAt k ys :=
  List.filterMap_append

@[simp] theorem valuesAt_map_mk (l : List α) :
    valuesAt k (l.map (k', ·)) = if k' = k then l else [] := by
  by_cases h : k' = k <;> simp [valuesAt, h]

theorem valuesAt_map (f : α → β) :
    valuesAt k (xs.map fun x => (x.1, f x.2)) = (valuesAt k xs).map f := by
  induction xs with
  | nil => rfl
  | cons x xs ih => by_cases h : x.1 = k <;> simp [h, ih]

theorem valuesAt_of_distinct {o : Option α} (hxs : xs.Pairwise fun x y => x.1 ≠ y.1)
    (h : ∀ x, (k, x) ∈ xs ↔ o = some x) : valuesAt k xs = o.toList := by
  induction xs generalizing o with
  | nil =>
    cases o with
    | none => rfl
    | some x => simpa using (h x).mpr rfl
  | cons y xs ih =>
    obtain ⟨hy, hxs⟩ := List.pairwise_cons.mp hxs
    by_cases hk : y.1 = k
    · obtain rfl : o = some y.2 := (h y.2).mp (by simp [← hk])
      have hnone : valuesAt k xs = (none : Option α).toList :=
        ih hxs fun x => ⟨fun hx => absurd hk (hy _ hx), nofun⟩
      simp [hk, hnone]
    · rw [valuesAt_cons, if_neg hk]
      refine ih hxs fun x => ?_
      rw [← h x, List.mem_cons, or_iff_right]
      exact fun heq => hk (congrArg Prod.fst heq).symm

theorem valuesAt_toList [Ord κ] [Std.TransOrd κ] [Std.LawfulEqOrd κ]
    (m : Std.ExtTreeMap κ α compare) (k : κ) : valuesAt k m.toList = m[k]?.toList := by
  have hdistinct : m.toList.Pairwise fun x y => x.1 ≠ y.1 :=
    Std.ExtTreeMap.distinct_keys_toList.imp fun h => by simpa using h
  exact valuesAt_of_distinct hdistinct fun x => Std.ExtTreeMap.mem_toList_iff_getElem?_eq_some

theorem perm_of_valuesAt (h : ∀ k, (valuesAt k xs).Perm (valuesAt k ys)) : xs.Perm ys := by
  classical
  have hcount : ∀ (zs : List (κ × α)) (x : κ × α), zs.count x = (valuesAt x.1 zs).count x.2 := by
    intro zs x
    induction zs with
    | nil => rfl
    | cons z zs ih =>
      rw [valuesAt_cons, List.count_cons, ih]
      by_cases hk : z.1 = x.1
      · simp [List.count_cons, hk, Prod.ext_iff]
      · simp [hk, Prod.ext_iff]
  rw [List.perm_iff_count]
  intro x
  rw [hcount xs x, hcount ys x]
  exact (h x.1).count_eq x.2

theorem exists_map_of_perm {f : α → β} {as : List α} {bs : List β} (h : bs.Perm (as.map f)) :
    ∃ as' : List α, bs = as'.map f ∧ as'.Perm as := by
  have hmade : List.Forall₂ (fun b a => b = f a) (as.map f) as := by
    rw [List.forall₂_map_left_iff]
    exact List.forall₂_same.mpr fun _ _ => rfl
  obtain ⟨as', hbs, hperm⟩ := List.perm_comp_forall₂ h hmade
  refine ⟨as', ?_, hperm⟩
  rw [← List.forall₂_eq_eq_eq, List.forall₂_map_right_iff]
  exact hbs

section Attempts

variable {ε : Type} {f : β → Except ε α}

theorem mapM_eq_ok_iff {as : List α} {bs : List β} :
    bs.mapM f = .ok as ↔ List.Forall₂ (fun b a => f b = .ok a) bs as := by
  induction bs generalizing as with
  | nil => cases as <;> simp [pure, Except.pure]
  | cons b bs ih =>
    rw [List.mapM_cons, List.forall₂_cons_left_iff]
    cases hb : f b with
    | error e => simp [bind, Except.bind]
    | ok a =>
      cases hbs : bs.mapM f with
      | error e =>
        simp only [hbs, reduceCtorEq, false_iff] at ih
        simp [bind, Except.bind, ih]
      | ok as' =>
        simp only [hbs, Except.ok.injEq] at ih
        simp [bind, Except.bind, pure, Except.pure, ← ih, eq_comm]

theorem exists_mapM_eq_ok {bs : List β} (h : ∀ b ∈ bs, ∃ a, f b = .ok a) :
    ∃ as, bs.mapM f = .ok as := by
  induction bs with
  | nil => exact ⟨[], rfl⟩
  | cons b bs ih =>
    obtain ⟨⟨a, ha⟩, hrest⟩ := List.forall_mem_cons.mp h
    obtain ⟨as, has⟩ := ih hrest
    refine ⟨a :: as, ?_⟩
    rw [List.mapM_cons, ha, has]
    rfl

theorem bind_eq_error {γ : Type} {x : Except ε α} {g : α → Except ε γ} {e : ε} :
    (x >>= g) = .error e ↔ x = .error e ∨ ∃ a, x = .ok a ∧ g a = .error e := by
  cases x <;> simp [bind, Except.bind]

theorem exists_of_mapM_eq_error {bs : List β} {e : ε} (h : bs.mapM f = .error e) :
    ∃ b ∈ bs, f b = .error e := by
  induction bs with
  | nil => cases h
  | cons b bs ih =>
    rw [List.mapM_cons] at h
    rcases bind_eq_error.mp h with hb | ⟨a, -, h⟩
    · exact ⟨b, List.mem_cons_self, hb⟩
    · rcases bind_eq_error.mp h with hbs | ⟨as, -, h⟩
      · obtain ⟨c, hc, herror⟩ := ih hbs
        exact ⟨c, List.mem_cons_of_mem b hc, herror⟩
      · cases h

theorem mapM_map_eq_ok {g : α → β} {as : List α} (h : ∀ a ∈ as, f (g a) = .ok a) :
    (as.map g).mapM f = .ok as := by
  rw [mapM_eq_ok_iff, List.forall₂_map_left_iff]
  exact List.forall₂_same.mpr h

end Attempts

end Dependence
