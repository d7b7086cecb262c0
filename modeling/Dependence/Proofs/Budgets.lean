import Dependence.Proofs.Equations

/-! A limit on the number of visits cuts a run off and has no other influence on it. The loop without
a limit is taken apart into its turns; a run with a limit takes the same turns for as long as it may,
so it ends as the loop does if that ends in time, and is given up otherwise. -/

namespace Dependence.Analysis

variable {L : Type} [DecidableEq L] [JoinLattice L] {a : Analysis L} {g : Graph}
  {s t u : State L g.slotCount} {i : g.Slot} {rest : List g.Slot} {k m : Nat} {e : Error}

inductive Turns (a : Analysis L) (g : Graph) :
    Nat → State L g.slotCount → State L g.slotCount → Prop
  | none (s : State L g.slotCount) : Turns a g 0 s s
  | next {k : Nat} {s t u : State L g.slotCount} {i : g.Slot} {rest : List g.Slot}
      (hi : s.pending = i :: rest) (ht : a.visit g s i = .ok t) (h : Turns a g k t u) :
      Turns a g (k + 1) s u

def EndsAfter (a : Analysis L) (g : Graph) (k : Nat) (sol : Solution L g) : Prop :=
  ∃ t, a.Turns g k (a.start g) t ∧ t.pending = [] ∧ t.solution = sol

def FailsAfter (a : Analysis L) (g : Graph) (k : Nat) (e : Error) : Prop :=
  ∃ t i rest, a.Turns g k (a.start g) t ∧ t.pending = i :: rest ∧ a.visit g t i = .error e

theorem Turns.pops (h : a.Turns g k s t) : t.pops = s.pops + k := by
  induction h with
  | none => rfl
  | next _ ht _ ih =>
    obtain ⟨_, _, _, _, _, _, _, hpops⟩ := visit_ok ht
    omega

theorem Turns.schedule (h : a.Turns g k s t) : a.Schedule g s t := by
  induction h with
  | none => exact .refl
  | next hi ht _ ih => exact .head ⟨_, by simp [hi], ht⟩ ih

theorem run_of_nil (h : s.pending = []) (m : Nat) : a.run g m s = .ok (some s) := by
  cases m <;> simp [run, h]

theorem run_succ_of_cons (h : s.pending = i :: rest) (m : Nat) :
    a.run g (m + 1) s = a.visit g s i >>= a.run g m := by
  rw [run]
  split
  · next hnil => simp [h] at hnil
  · next hcons =>
    rw [h] at hcons
    rw [(List.cons.inj hcons).1]

theorem exhaust_of_nil (h : s.pending = []) : a.exhaust g s = .ok s := by
  have : Nonempty (State L g.slotCount) := ⟨s⟩
  rw [exhaust, repeatM_eq_of_monadTail, repeatM.body, h]
  rfl

theorem exhaust_of_cons (h : s.pending = i :: rest) :
    a.exhaust g s = a.visit g s i >>= a.exhaust g := by
  have : Nonempty (State L g.slotCount) := ⟨s⟩
  rw [exhaust, repeatM_eq_of_monadTail, repeatM.body, h]
  cases hv : a.visit g s i <;> simp only [hv] <;> rfl

theorem Turns.run_add (h : a.Turns g k s t) (m : Nat) : a.run g (k + m) s = a.run g m t := by
  induction h with
  | none => rw [Nat.zero_add]
  | next hi ht _ ih =>
    rw [Nat.succ_add, run_succ_of_cons hi, ht]
    exact ih

theorem Turns.exhaust_eq (h : a.Turns g k s t) : a.exhaust g s = a.exhaust g t := by
  induction h with
  | none => rfl
  | next hi ht _ ih =>
    rw [exhaust_of_cons hi, ht]
    exact ih

theorem turns_cases (a : Analysis L) (g : Graph) (m : Nat) (s : State L g.slotCount) :
    (∃ k ≤ m, ∃ t, a.Turns g k s t ∧ t.pending = []) ∨
      (∃ t i rest, a.Turns g m s t ∧ t.pending = i :: rest) ∨
      ∃ k < m, ∃ e t i rest, a.Turns g k s t ∧ t.pending = i :: rest ∧ a.visit g t i = .error e := by
  induction m generalizing s with
  | zero =>
    cases hs : s.pending with
    | nil => exact .inl ⟨0, Nat.le_refl 0, s, .none s, hs⟩
    | cons i rest => exact .inr (.inl ⟨s, i, rest, .none s, hs⟩)
  | succ m ih =>
    cases hs : s.pending with
    | nil => exact .inl ⟨0, Nat.zero_le _, s, .none s, hs⟩
    | cons i rest =>
      cases hv : a.visit g s i with
      | error e => exact .inr (.inr ⟨0, Nat.succ_pos m, e, s, i, rest, .none s, hs, hv⟩)
      | ok t =>
        rcases ih t with ⟨k, hk, u, hu, hend⟩ | ⟨u, j, rest', hu, hwait⟩ |
          ⟨k, hk, e, u, j, rest', hu, hwait, he⟩
        · exact .inl ⟨k + 1, Nat.succ_le_succ hk, u, .next hs hv hu, hend⟩
        · exact .inr (.inl ⟨u, j, rest', .next hs hv hu, hwait⟩)
        · exact .inr (.inr ⟨k + 1, Nat.succ_lt_succ hk, e, u, j, rest', .next hs hv hu, hwait, he⟩)

variable {sol : Solution L g}

theorem EndsAfter.pops (h : a.EndsAfter g k sol) : sol.pops = k := by
  obtain ⟨t, ht, -, rfl⟩ := h
  exact ht.pops.trans (Nat.zero_add k)

theorem EndsAfter.solve (h : a.EndsAfter g k sol) (hk : k ≤ m) : a.solve g m = .ok sol := by
  obtain ⟨t, ht, hend, rfl⟩ := h
  obtain ⟨d, rfl⟩ := Nat.exists_eq_add_of_le hk
  rw [Analysis.solve, ht.run_add d, run_of_nil hend]
  rfl

theorem EndsAfter.solveUnbounded (h : a.EndsAfter g k sol) : a.solveUnbounded g = .ok sol := by
  obtain ⟨t, ht, hend, rfl⟩ := h
  rw [Analysis.solveUnbounded, ht.exhaust_eq, exhaust_of_nil hend]
  rfl

theorem FailsAfter.solve (h : a.FailsAfter g k e) (hk : k < m) :
    a.solve g m = .error e := by
  obtain ⟨t, i, rest, ht, hwait, he⟩ := h
  obtain ⟨d, rfl⟩ := Nat.exists_eq_add_of_le (Nat.succ_le_of_lt hk)
  rw [Analysis.solve, Nat.succ_add_eq_add_succ, ht.run_add, run_succ_of_cons hwait, he]
  rfl

theorem FailsAfter.solveUnbounded (h : a.FailsAfter g k e) : a.solveUnbounded g = .error e := by
  obtain ⟨t, i, rest, ht, hwait, he⟩ := h
  rw [Analysis.solveUnbounded, ht.exhaust_eq, exhaust_of_cons hwait, he]
  rfl

theorem solve_of_waiting (h : a.Turns g m (a.start g) t) (hwait : t.pending = i :: rest) :
    a.solve g m = .error (.fixpointNotReached g.name (m + 1)) := by
  have hrun : a.run g m (a.start g) = .ok none := by
    rw [← Nat.add_zero m, h.run_add, run, hwait]
    rfl
  rw [solve, hrun]
  rfl

theorem solve_eq_ok_iff : a.solve g m = .ok sol ↔ ∃ k ≤ m, a.EndsAfter g k sol := by
  refine ⟨fun h => ?_, fun ⟨k, hk, hend⟩ => hend.solve hk⟩
  rcases turns_cases a g m (a.start g) with
    ⟨k, hk, t, ht, hempty⟩ | ⟨t, i, rest, ht, hwait⟩ | ⟨k, hk, e, hfail⟩
  · have hend : a.EndsAfter g k t.solution := ⟨t, ht, hempty, rfl⟩
    obtain rfl := Except.ok.inj ((hend.solve hk).symm.trans h)
    exact ⟨k, hk, hend⟩
  · rw [solve_of_waiting ht hwait] at h
    cases h
  · rw [FailsAfter.solve hfail hk] at h
    cases h

/-- With a limit of `m` visits the solver answers just if the loop without a limit ends after at most
`m` of them, and then gives the answer of that loop. Otherwise it gives up with visit `m + 1`, unless a
visit fails before that and so makes both fail. -/
theorem limit_only_cuts_off (a : Analysis L) (g : Graph) (m : Nat) :
    (∀ sol, a.solve g m = .ok sol ↔ ∃ k ≤ m, a.EndsAfter g k sol) ∧
      (∀ k sol, a.EndsAfter g k sol → sol.pops = k ∧ a.solveUnbounded g = .ok sol) ∧
      ((∀ k ≤ m, ∀ sol, ¬a.EndsAfter g k sol) → (∀ k < m, ∀ e, ¬a.FailsAfter g k e) →
        a.solve g m = .error (.fixpointNotReached g.name (m + 1))) ∧
      ∀ k < m, ∀ e, a.FailsAfter g k e → a.solve g m = .error e ∧ a.solveUnbounded g = .error e := by
  refine ⟨fun _ => solve_eq_ok_iff, fun _ _ h => ⟨h.pops, h.solveUnbounded⟩,
    fun hlate hpure => ?_, fun k hk e hfail => ⟨hfail.solve hk, hfail.solveUnbounded⟩⟩
  rcases turns_cases a g m (a.start g) with
    ⟨k, hk, t, ht, hempty⟩ | ⟨t, i, rest, ht, hwait⟩ | ⟨k, hk, e, hfail⟩
  · exact absurd ⟨t, ht, hempty, rfl⟩ (hlate k hk t.solution)
  · exact solve_of_waiting ht hwait
  · exact absurd hfail (hpure k hk e)

example : (longest 4 []).solve .seesaw 7 = .ok ⟨#v[0, 4, 4, 4], #v[1, 4, 4, 4], 7⟩ ∧
    (longest 4 []).solve .seesaw 6 = .error (.fixpointNotReached "seesaw" 7) ∧
    (longest 4 []).solve .seesaw 0 = .error (.fixpointNotReached "seesaw" 1) := by
  exact ⟨rfl, rfl, rfl⟩

end Dependence.Analysis
