/-! Taking a step again and again until it asks to stop. The number of steps is bounded from
outside, so the repetition is total; an answer, once found, does not depend on the bound. -/

namespace Dependence

variable {σ : Type}

/-- Follows `next` from a state until there is no next one, for at most the given number of steps.
There is no answer when the steps run out first. -/
def iterate? (next : σ → Option σ) : Nat → σ → Option σ
  | 0, s => if (next s).isNone then some s else none
  | n + 1, s =>
    match next s with
    | none => some s
    | some t => iterate? next n t

theorem iterate?_of_stop {next : σ → Option σ} {s : σ} (h : next s = none) (n : Nat) :
    iterate? next n s = some s := by
  cases n <;> simp [iterate?, h]

theorem iterate?_succ_of_step {next : σ → Option σ} {s t : σ} (h : next s = some t) (n : Nat) :
    iterate? next (n + 1) s = iterate? next n t := by
  simp [iterate?, h]

theorem iterate?_mono {next : σ → Option σ} {n m : Nat} {s r : σ} (hnm : n ≤ m)
    (h : iterate? next n s = some r) : iterate? next m s = some r := by
  induction n generalizing m s with
  | zero =>
    by_cases hs : (next s).isNone
    · simp only [iterate?, hs, if_true] at h
      exact h ▸ iterate?_of_stop (Option.isNone_iff_eq_none.mp hs) m
    · simp [iterate?, hs] at h
  | succ n ih =>
    cases hs : next s with
    | none =>
      simp only [iterate?, hs] at h
      exact h ▸ iterate?_of_stop hs m
    | some t =>
      obtain ⟨m, rfl⟩ : ∃ k, m = k + 1 := ⟨m - 1, by omega⟩
      rw [iterate?_succ_of_step hs] at h ⊢
      exact ih (by omega) h

end Dependence
