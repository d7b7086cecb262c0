import Dependence.Proofs.BitSets
import Dependence.Proofs.Edits

/-! Bit sets changed in place, one word after the other, where a word that is not there is a fault. On a valid
set no such fault occurs: a change made in place ends with the set and the answer that making a new set gives,
or it is refused for the same cause, with the set left as it was. -/

namespace Dependence.BitSet

variable {s t : BitSet} {i : Nat}

abbrev Edit := EStateM Error BitSet

namespace Edit

def word (k : Nat) : Edit (BitVec 64) := do
  MonadExcept.ofExcept (fetch (← get).words k)

def setWord (k : Nat) (w : BitVec 64) : Edit Unit :=
  modify fun s => { s with words := s.words.set k w }

def checkIndex (i : Nat) : Edit Unit := do
  let s ← get
  if i < s.capacity then pure () else throw (.indexOutOfBounds i s.capacity)

def atBit (i : Nat) (f : BitVec 64 → BitVec 64) : Edit Bool := do
  checkIndex i
  let w ← word (i / 64)
  setWord (i / 64) (f w)
  return w &&& mask i != 0#64

def insert (i : Nat) : Edit Bool := do
  return !(← atBit i (· ||| mask i))

def erase (i : Nat) : Edit Bool := atBit i (· &&& ~~~(mask i))

def contains (i : Nat) : Edit Bool := do
  if i < (← get).capacity then
    return (← word (i / 64)) &&& mask i != 0#64
  else
    return false

def clear : Edit Unit := modify BitSet.clear

def combineFrom (f : BitVec 64 → BitVec 64 → BitVec 64) (place : Nat) (changed : Bool) :
    List (BitVec 64) → Edit Bool
  | [] => pure changed
  | b :: bs => do
    match (← get).words[place]? with
    | none => pure changed
    | some a =>
      setWord place (f a b)
      combineFrom f (place + 1) (changed || f a b != a) bs

def combine (f : BitVec 64 → BitVec 64 → BitVec 64) (t : BitSet) : Edit Bool := do
  let s ← get
  if s.capacity = t.capacity then combineFrom f 0 false t.words
  else throw (.capacityMismatch s.capacity t.capacity)

def union (t : BitSet) : Edit Bool := combine (· ||| ·) t

def difference (t : BitSet) : Edit Bool := combine (· &&& ~~~ ·) t

end Edit

theorem and_mask_ne_zero (w : BitVec 64) (i : Nat) : (w &&& mask i != 0#64) = w.getLsbD (i % 64) := by
  have hi : i % 64 < 64 := Nat.mod_lt i (by decide)
  rw [Bool.eq_iff_iff, bne_iff_ne]
  constructor
  · intro h
    obtain ⟨j, hj, hbit⟩ : ∃ j, j < 64 ∧ (w &&& mask i).getLsbD j = true := by
      by_contra hno
      push Not at hno
      exact h (BitVec.eq_of_getLsbD_eq fun j hj => by simpa using hno j hj)
    rw [BitVec.getLsbD_and, getLsbD_mask i hj, Bool.and_eq_true, decide_eq_true_eq] at hbit
    exact hbit.2 ▸ hbit.1
  · intro h hzero
    have hbit := congrArg (·.getLsbD (i % 64)) hzero
    simp [getLsbD_mask i hi, h] at hbit

def outcome {α : Type} (s : BitSet) : Except Error (BitSet × α) → EStateM.Result Error BitSet α
  | .ok (u, answer) => .ok answer u
  | .error e => .error e s

namespace Edit

theorem run_checkIndex (h : i < s.capacity) : (checkIndex i).run s = .ok () s := by
  rw [checkIndex, run_bind_get, if_pos h]
  rfl

theorem run_checkIndex_of_le (h : s.capacity ≤ i) :
    (checkIndex i).run s = .error (.indexOutOfBounds i s.capacity) s := by
  rw [checkIndex, run_bind_get, if_neg (Nat.not_lt.mpr h)]
  rfl

theorem run_word {k : Nat} {w : BitVec 64} (h : s.words[k]? = some w) : (word k).run s = .ok w s := by
  rw [word, run_bind_get, run_fetch h]

theorem run_atBit (hs : s.Valid) (hi : i < s.capacity) (f : BitVec 64 → BitVec 64) :
    (atBit i f).run s = .ok (s.bit i) { s with words := s.words.modify (i / 64) f } := by
  obtain ⟨w, hword⟩ : ∃ w, s.words[i / 64]? = some w := ⟨_, List.getElem?_eq_getElem (hs.div_lt hi)⟩
  have hbit : s.bit i = (w &&& mask i != 0#64) := by
    rw [and_mask_ne_zero, bit, hword, Option.getD_some]
  have hwords : s.words.modify (i / 64) f = s.words.set (i / 64) (f w) := by
    rw [List.modify_eq_set_getElem?, hword]
    rfl
  rw [atBit, run_bind_of_ok (run_checkIndex hi), run_bind_of_ok (run_word hword), hbit, hwords]
  rfl

theorem run_atBit_of_le (h : s.capacity ≤ i) (f : BitVec 64 → BitVec 64) :
    (atBit i f).run s = .error (.indexOutOfBounds i s.capacity) s :=
  run_bind_of_error (run_checkIndex_of_le h)

theorem run_insert (hs : s.Valid) (i : Nat) : (insert i).run s = outcome s (s.insert i) := by
  rw [insert, BitSet.insert]
  split
  · next hi => exact run_bind_of_ok (run_atBit hs hi _)
  · next hi => exact run_bind_of_error (run_atBit_of_le (Nat.le_of_not_lt hi) _)

theorem run_erase (hs : s.Valid) (i : Nat) : (erase i).run s = outcome s (s.erase i) := by
  rw [erase, BitSet.erase]
  split
  · next hi => exact run_atBit hs hi _
  · next hi => exact run_atBit_of_le (Nat.le_of_not_lt hi) _

theorem run_contains (hs : s.Valid) (i : Nat) : (contains i).run s = .ok (s.contains i) s := by
  rw [contains, run_bind_get, BitSet.contains]
  split
  · next hi =>
    obtain ⟨w, hword⟩ : ∃ w, s.words[i / 64]? = some w :=
      ⟨_, List.getElem?_eq_getElem (hs.div_lt hi)⟩
    rw [run_bind_of_ok (run_word hword), and_mask_ne_zero, decide_eq_true hi, Bool.true_and, bit, hword]
    rfl
  · next hi =>
    rw [decide_eq_false hi, Bool.false_and]
    rfl

theorem run_combineFrom (f : BitVec 64 → BitVec 64 → BitVec 64) (s : BitSet) (done : List (BitVec 64))
    {as bs : List (BitVec 64)} (h : as.length = bs.length) (changed : Bool) :
    (combineFrom f done.length changed bs).run { s with words := done ++ as } =
      .ok (changed || List.zipWith f as bs != as) { s with words := done ++ List.zipWith f as bs } := by
  induction bs generalizing done as changed with
  | nil =>
    obtain rfl := List.eq_nil_of_length_eq_zero h
    simp [combineFrom]
  | cons b bs ih =>
    cases as with
    | nil => simp at h
    | cons a as =>
      have hword : (done ++ a :: as)[done.length]? = some a := by simp
      have hset : (setWord done.length (f a b)).run { s with words := done ++ a :: as } =
          .ok () { s with words := done ++ [f a b] ++ as } := by
        simp [setWord]
      have hflag : (changed || List.zipWith f (a :: as) (b :: bs) != a :: as) =
          ((changed || f a b != a) || List.zipWith f as bs != as) := by
        rw [List.zipWith_cons_cons, bne, List.cons_beq_cons, Bool.not_and, ← Bool.or_assoc]
        rfl
      have hlater := ih (done ++ [f a b]) (Nat.succ.inj h) (changed || f a b != a)
      rw [List.length_append, List.length_singleton] at hlater
      rw [combineFrom, run_bind_get]
      simp only [hword]
      rw [run_bind_of_ok hset, hlater, hflag, List.zipWith_cons_cons, List.append_assoc]
      rfl

theorem run_combine (hs : s.Valid) (ht : t.Valid) (f : BitVec 64 → BitVec 64 → BitVec 64) :
    (combine f t).run s = outcome s (s.combine f t) := by
  rw [combine, run_bind_get, BitSet.combine]
  split
  · next hcap =>
    have hlength : s.words.length = t.words.length := by rw [hs.length, ht.length, hcap]
    exact run_combineFrom f s [] hlength false
  · rfl

end Edit

end Dependence.BitSet
