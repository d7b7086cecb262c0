import Dependence.Error
import Dependence.Iteration

/-! Loops that nothing limits. A loop ends in a state, or with a fault, or it has no outcome because
it goes on forever. It ends if something goes down with every turn. -/

namespace Dependence

variable {σ : Type}

open Classical in
/-- The state in which following `next` ends, however long that takes. There is none if it goes on
forever. -/
noncomputable def follow (next : σ → Option σ) (s : σ) : Option σ :=
  if h : ∃ n, (iterate? next n s).isSome then iterate? next h.choose s else none

theorem follow_eq_some_iff {next : σ → Option σ} {s r : σ} :
    follow next s = some r ↔ ∃ n, iterate? next n s = some r := by
  rw [follow]
  split
  · next hends =>
    refine ⟨fun h => ⟨_, h⟩, fun ⟨n, hn⟩ => ?_⟩
    -- the chosen number of steps and the given one are both enough
    obtain ⟨r', hr'⟩ := Option.isSome_iff_exists.mp hends.choose_spec
    have hmax := iterate?_mono (Nat.le_max_left _ n) hr'
    rw [iterate?_mono (Nat.le_max_right _ n) hn] at hmax
    rw [hr', hmax]
  · next hforever =>
    refine ⟨fun h => absurd h (by simp), fun ⟨n, hn⟩ => ?_⟩
    exact absurd ⟨n, Option.isSome_iff_exists.mpr ⟨r, hn⟩⟩ hforever

theorem follow_of_stop {next : σ → Option σ} {s : σ} (h : next s = none) : follow next s = some s :=
  follow_eq_some_iff.mpr ⟨0, iterate?_of_stop h 0⟩

theorem follow_of_step {next : σ → Option σ} {s t : σ} (h : next s = some t) :
    follow next s = follow next t := by
  refine Option.ext fun r => ?_
  rw [follow_eq_some_iff, follow_eq_some_iff]
  constructor
  · rintro ⟨n, hn⟩
    cases n with
    | zero => simp [iterate?, h] at hn
    | succ n => exact ⟨n, iterate?_succ_of_step h n ▸ hn⟩
  · rintro ⟨n, hn⟩
    exact ⟨n + 1, (iterate?_succ_of_step h n).trans hn⟩

/-- Computations that can fault and need not end. There is no outcome if one goes on forever. -/
abbrev Run := ExceptT Error Option

def look {α : Type} (xs : List α) (i : Nat) : Run α := MonadExcept.ofExcept (fetch xs i)

theorem look_of_getElem? {α : Type} {xs : List α} {i : Nat} {x : α} (h : xs[i]? = some x) :
    look xs i = pure x := by
  rw [look, fetch_of_getElem? h]
  rfl

/-- What follows a state of a loop: nothing after a fault or when the body says that the loop is over.
If the body never ends then the loop does not move on either. -/
def turn (body : σ → Run (Option σ)) : Except Error σ → Option (Except Error σ)
  | .error _ => none
  | .ok s =>
    match (body s).run with
    | none => some (.ok s)
    | some (.error e) => some (.error e)
    | some (.ok next) => next.map .ok

noncomputable def loop (body : σ → Run (Option σ)) (s : σ) : Run σ :=
  ExceptT.mk (follow (turn body) (.ok s))

section Turns

variable {body : σ → Run (Option σ)} {s t : σ}

theorem loop_of_stop (h : body s = pure none) : loop body s = pure s := by
  have hturn : turn body (.ok s) = none := by
    rw [turn, h]
    rfl
  rw [loop, follow_of_stop hturn]
  rfl

theorem loop_of_again (h : body s = pure (some t)) : loop body s = loop body t := by
  have hturn : turn body (.ok s) = some (.ok t) := by
    rw [turn, h]
    rfl
  rw [loop, follow_of_step hturn, loop]

/-- A loop ends, and without a fault, if its turns keep an invariant and make something smaller. -/
theorem exists_loop (size : σ → Nat) {Inv Post : σ → Prop}
    (hbody : ∀ s, Inv s → (body s = pure none ∧ Post s) ∨
      ∃ t, body s = pure (some t) ∧ Inv t ∧ size t < size s)
    (hs : Inv s) : ∃ r, loop body s = pure r ∧ Post r := by
  induction hn : size s using Nat.strongRecOn generalizing s with
  | ind n ih =>
    rcases hbody s hs with ⟨hstop, hpost⟩ | ⟨t, hagain, ht, hlt⟩
    · exact ⟨s, loop_of_stop hstop, hpost⟩
    · rw [loop_of_again hagain]
      exact ih (size t) (hn ▸ hlt) ht rfl

end Turns

end Dependence
