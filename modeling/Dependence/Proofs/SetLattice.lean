import Dependence.Proofs.FiniteSets
import Dependence.Proofs.SetAnalyses

/-! The lattice of bit sets. Sets of one capacity are joined by union, with the laws of a join, and one is
below another just if its members are among those of the other. Updating a set by a join and comparing two
sets, which go through the words, agree with what is derived from the join. -/

namespace Dependence

open JoinLattice

namespace JoinLattice

variable {α : Type} [DecidableEq α] [JoinLattice α] {a b j : α} {e : Error}

def update (b : α) : EStateM Error α Bool := do
  let a ← get
  let joined ← MonadExcept.ofExcept (join a b)
  if joined = a then
    return false
  else
    set joined
    return true

theorem run_update_of_join (h : join a b = .ok j) : (update b).run a = .ok (decide (j ≠ a)) j := by
  rw [update, run_bind_get, run_bind_of_ok (run_ofExcept_ok h a)]
  by_cases hsame : j = a
  · rw [if_pos hsame, hsame, decide_eq_false (not_not.mpr rfl)]
    rfl
  · rw [if_neg hsame, decide_eq_true hsame]
    rfl

theorem run_update_of_no_join (h : join a b = .error e) : (update b).run a = .error e a := by
  rw [update, run_bind_get]
  exact run_bind_of_error (run_ofExcept_error h a)

end JoinLattice

namespace BitSet

variable {s t u : BitSet} {n : Nat}

theorem and_not_eq_zero {w o : BitVec 64} :
    w &&& ~~~o = 0#64 ↔ ∀ j < 64, w.getLsbD j = true → o.getLsbD j = true := by
  constructor
  · intro h j hj hw
    have hbit := congrArg (·.getLsbD j) h
    simpa [hj, hw] using hbit
  · intro h
    refine BitVec.eq_of_getLsbD_eq fun j hj => ?_
    cases hw : w.getLsbD j with
    | false => simp [hw]
    | true => simp [hw, hj, h j hj hw]

theorem isSubset_iff_bit : s.isSubset t = true ↔ ∀ i, s.bit i = true → t.bit i = true := by
  simp only [isSubset, List.all_eq_true, Prod.forall, List.mem_zipIdx_iff_getElem?, beq_iff_eq,
    and_not_eq_zero]
  constructor
  · intro h i hi
    rw [bit] at hi ⊢
    cases hw : s.words[i / 64]? with
    | none => simp [hw] at hi
    | some w =>
      rw [hw, Option.getD_some] at hi
      exact h w _ hw _ (Nat.mod_lt i (by decide)) hi
  · intro h w k hw j hj hbit
    rw [← bit_mul_add k hj]
    apply h
    rwa [bit_mul_add k hj, hw, Option.getD_some]

theorem Valid.isSubset_iff (hs : s.Valid) (ht : t.Valid) :
    s.isSubset t = true ↔ ∀ i, i ∈ s → i ∈ t := by
  simp only [isSubset_iff_bit, hs.mem_iff_bit, ht.mem_iff_bit]

theorem Sized.isBelow_iff (hs : s.Sized n) (ht : t.Sized n) : isBelow s t = .ok true ↔ Below s t := by
  rw [hs.below_iff ht, ← hs.1.isSubset_iff ht.1]
  exact ⟨Except.ok.inj, congrArg Except.ok⟩

theorem Sized.isBelow_eq_derived (hs : s.Sized n) (ht : t.Sized n) :
    isBelow s t = derivedIsBelow join s t := by
  obtain ⟨j, hjoin, -⟩ := hs.exists_join ht
  have hsame : s.isSubset t = decide (j = t) := by
    rw [Bool.eq_iff_iff, decide_eq_true_eq, hs.1.isSubset_iff ht.1, ← hs.below_iff ht, Below, hjoin,
      Except.ok.injEq]
  rw [derivedIsBelow, hjoin]
  exact congrArg Except.ok hsame

theorem Valid.run_union (hs : s.Valid) (ht : t.Valid) : (Edit.union t).run s = (update t).run s := by
  have hrun : (Edit.union t).run s = outcome s (derivedJoinWith join s t) := by
    rw [← joinWith_eq_derived]
    exact Edit.run_combine hs ht _
  rw [hrun, derivedJoinWith]
  cases hjoin : join s t with
  | ok j => exact (run_update_of_join hjoin).symm
  | error e => exact (run_update_of_no_join hjoin).symm

theorem Built.exists_join (hs : s.Built) (ht : t.Built) (hcap : s.capacity = t.capacity) :
    ∃ j, join s t = .ok j ∧ j.Built ∧ j.capacity = s.capacity := by
  obtain ⟨j, changed, hj, -, hjcap, -⟩ := hs.valid.union ht.valid hcap
  have hmade : (Change.union t).Made := by
    rintro _ ⟨⟩
    exact ht
  have happly : (Change.union t).apply s = .ok (j, some changed) := by
    rw [Change.apply, hj]
    rfl
  refine ⟨j, ?_, hs.change hmade happly, hjcap⟩
  simp only [join, hj]
  rfl

/-- Comparing sets of any capacities compares their members, and updating a set by the union with another one
is updating it by the join, in place as well. Sets of one capacity are equal if they have the same members.
Their join is idempotent, commutative and associative, and the least set that both are below, with the empty
set below all. Going through the words tells which set is below which, as joining them would. -/
theorem union_is_lawful_join (hs : s.Built) (ht : t.Built) (hu : u.Built) :
    (s.isSubset t = true ↔ ∀ i, i ∈ s → i ∈ t) ∧
    joinWith s t = derivedJoinWith join s t ∧ (Edit.union t).run s = (update t).run s ∧
    (s.capacity = t.capacity → t.capacity = u.capacity →
      (s = t ↔ ∀ i, i ∈ s ↔ i ∈ t) ∧
      join s s = .ok s ∧ join s t = join t s ∧
      (∃ st tu stu, join s t = .ok st ∧ join t u = .ok tu ∧ join st u = .ok stu ∧
        join s tu = .ok stu) ∧
      (∃ st, join s t = .ok st ∧ st.Built ∧ st.capacity = s.capacity ∧
        isBelow s st = .ok true ∧ isBelow t st = .ok true ∧
        (isBelow s u = .ok true → isBelow t u = .ok true → isBelow st u = .ok true)) ∧
      isBelow (empty s.capacity) s = .ok true ∧
      isBelow s t = derivedIsBelow join s t) := by
  refine ⟨hs.valid.isSubset_iff ht.valid, joinWith_eq_derived s t, hs.valid.run_union ht.valid,
    fun hcap hcap' => ?_⟩
  have hs' : s.Sized s.capacity := ⟨hs.valid, rfl⟩
  have ht' : t.Sized s.capacity := ⟨ht.valid, hcap.symm⟩
  have hu' : u.Sized s.capacity := ⟨hu.valid, (hcap.trans hcap').symm⟩
  have laws := lawfulOn_sized s.capacity
  obtain ⟨st, hst, hbuilt, hstcap⟩ := hs.exists_join ht hcap
  have hst' : st.Sized s.capacity := ⟨hbuilt.valid, hstcap⟩
  refine ⟨⟨fun h i => h ▸ Iff.rfl, hs'.ext ht'⟩, laws.idem hs', laws.comm hs' ht', ?_,
    ⟨st, hst, hbuilt, hstcap, ?_, ?_, ?_⟩, ?_, hs'.isBelow_eq_derived ht'⟩
  · obtain ⟨tu, htu, -⟩ := ht'.exists_join hu'
    obtain ⟨stu, hstu, -⟩ := hst'.exists_join hu'
    have hassoc := laws.assoc hs' ht' hu'
    rw [hst, htu] at hassoc
    exact ⟨st, tu, stu, hst, htu, hstu, hassoc.symm.trans hstu⟩
  · exact (hs'.isBelow_iff hst').mpr (laws.below_join_left hs' ht' hst)
  · exact (ht'.isBelow_iff hst').mpr (laws.below_join_right hs' ht' hst)
  · rw [hs'.isBelow_iff hu', ht'.isBelow_iff hu', hst'.isBelow_iff hu']
    exact laws.join_below hs' ht' hu' hst
  · rw [(sized_empty _).isBelow_iff hs', (sized_empty _).below_iff hs']
    exact fun i hi => absurd hi (notMem_empty _ i)

/-- Two sets with members in both words, their union and an upper bound, and a set of larger capacity whose
members are among those of a smaller one. -/
theorem union_is_lawful_join_wide :
    let s : BitSet := ⟨70, [1#64, 2#64]⟩
    let t : BitSet := ⟨70, [8#64, 0x20#64]⟩
    let u : BitSet := ⟨70, [0xb#64, 0x22#64]⟩
    let wide : BitSet := ⟨130, [1#64, 2#64, 0#64]⟩
    ofList 70 [0, 65] = .ok s ∧ ofList 70 [69, 3] = .ok t ∧ ofList 70 [0, 1, 3, 65, 69] = .ok u ∧
      ofList 130 [65, 0] = .ok wide ∧ (∀ i, i ∈ wide → i ∈ s) ∧
      (Edit.union t).run s = .ok true ⟨70, [9#64, 0x22#64]⟩ ∧
      ∃ st, join s t = .ok st ∧ isBelow s st = .ok true ∧ isBelow t st = .ok true ∧
        isBelow st u = .ok true := by
  intro s t u wide
  have hs : ofList 70 [0, 65] = .ok s := by decide +kernel
  have ht : ofList 70 [69, 3] = .ok t := by decide +kernel
  have hu : ofList 70 [0, 1, 3, 65, 69] = .ok u := by decide +kernel
  have hwide : ofList 130 [65, 0] = .ok wide := by decide +kernel
  obtain ⟨hsubset, -⟩ := union_is_lawful_join (.ofList hwide) (.ofList hs) (.ofList hu)
  obtain ⟨-, -, hrun, hlaws⟩ := union_is_lawful_join (.ofList hs) (.ofList ht) (.ofList hu)
  obtain ⟨-, -, -, -, ⟨st, hst, -, -, hleft, hright, hleast⟩, -⟩ := hlaws rfl rfl
  refine ⟨hs, ht, hu, hwide, hsubset.mp (by decide +kernel), ?_, st, hst, hleft, hright, ?_⟩
  · have hjoin : join s t = .ok ⟨70, [9#64, 0x22#64]⟩ := by decide +kernel
    rw [hrun, run_update_of_join hjoin, decide_eq_true (by decide +kernel)]
  · exact hleast (by decide +kernel) (by decide +kernel)

end BitSet

end Dependence
