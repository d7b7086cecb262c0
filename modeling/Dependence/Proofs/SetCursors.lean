import Mathlib.Data.List.Sort
import Dependence.Proofs.FiniteSets
import Dependence.Proofs.IndexedLists

/-! Going through a bit set. A cursor keeps what is left of the word it has come to: it takes off the lowest
bit, and once no bit is left it goes on to the next word that has one. What it yields are the members of the
set in ascending order, so counting the bits of the words counts what is yielded, and putting what is yielded
into a new set makes the same set again. -/

namespace Dependence

theorem testBit_and_pred {x t : Nat} (hlow : ∀ i < t, x.testBit i = false) (ht : x.testBit t = true)
    (j : Nat) : (x &&& (x - 1)).testBit j = (x.testBit j && decide (j ≠ t)) := by
  rw [Nat.testBit_and]
  -- bit by bit from below: while the lowest bit is further up, half of the number has it one place lower
  induction t generalizing x j with
  | zero =>
    rw [Nat.testBit_zero, decide_eq_true_eq] at ht
    cases j with
    | zero => simp [Nat.testBit_zero, show (x - 1) % 2 = 0 by omega]
    | succ j => simp [Nat.testBit_succ, show (x - 1) / 2 = x / 2 by omega]
  | succ t ih =>
    have heven : x % 2 = 0 := by simpa [Nat.testBit_zero] using hlow 0 (Nat.succ_pos t)
    rw [Nat.testBit_succ] at ht
    cases j with
    | zero => simp [Nat.testBit_zero, heven]
    | succ j =>
      have hlater := ih (fun i hi => Nat.testBit_succ x i ▸ hlow (i + 1) (Nat.succ_lt_succ hi)) ht j
      have hpos : x / 2 ≠ 0 := by
        intro h
        simp [h] at ht
      simpa [Nat.testBit_succ, show (x - 1) / 2 = x / 2 - 1 by omega] using hlater

namespace BitSet

variable {s : BitSet} {w : BitVec 64}

theorem getLsbD_and_pred (h : w ≠ 0#64) (j : Nat) :
    (w &&& (w - 1#64)).getLsbD j = (w.getLsbD j && decide (j ≠ w.ctz.toNat)) := by
  have hpos : w.toNat ≠ 0 := fun hzero => h (BitVec.eq_of_toNat_eq hzero)
  have hpred : (w - 1#64).toNat = w.toNat - 1 :=
    BitVec.toNat_sub_of_le (BitVec.le_def.mpr (Nat.one_le_iff_ne_zero.mpr hpos))
  rw [BitVec.getLsbD, BitVec.toNat_and, hpred]
  exact testBit_and_pred (fun i => BitVec.getLsbD_false_of_lt_ctz)
    (BitVec.getLsbD_true_ctz_of_ne_zero h) j

def bitsFrom (k : Nat) (words : List (BitVec 64)) : List Nat :=
  (words.zipIdx k).flatMap fun x => bitsAt x.2 x.1

theorem toList_eq_bitsFrom (s : BitSet) : s.toList = bitsFrom 0 s.words := rfl

theorem bitsFrom_cons (k : Nat) (w : BitVec 64) (words : List (BitVec 64)) :
    bitsFrom k (w :: words) = bitsAt k w ++ bitsFrom (k + 1) words := rfl

@[simp] theorem bitsAt_zero (k : Nat) : bitsAt k 0#64 = [] := by simp [bitsAt]

theorem bitsAt_eq_cons (k : Nat) (h : w ≠ 0#64) :
    bitsAt k w = (64 * k + w.ctz.toNat) :: bitsAt k (w &&& (w - 1#64)) := by
  -- both are ascending and have the same members
  refine (pairwise_lt_bitsAt k w).eq_of_mem_iff
    (List.pairwise_cons.mpr ⟨fun i hi => ?_, pairwise_lt_bitsAt k _⟩) fun i => ?_
  · obtain ⟨j, hj, rfl⟩ := mem_bitsAt.mp hi
    rw [getLsbD_and_pred h, Bool.and_eq_true, decide_eq_true_eq] at hj
    have hle : w.ctz.toNat ≤ j := by
      by_contra hlt
      simp [BitVec.getLsbD_false_of_lt_ctz (Nat.lt_of_not_le hlt)] at hj
    exact Nat.add_lt_add_left (Nat.lt_of_le_of_ne hle (Ne.symm hj.2)) _
  · simp only [List.mem_cons, mem_bitsAt, getLsbD_and_pred h, Bool.and_eq_true, decide_eq_true_eq]
    constructor
    · rintro ⟨j, hj, rfl⟩
      by_cases hlow : j = w.ctz.toNat
      · exact .inl (by rw [hlow])
      · exact .inr ⟨j, ⟨hj, hlow⟩, rfl⟩
    · rintro (rfl | ⟨j, ⟨hj, -⟩, rfl⟩)
      · exact ⟨_, BitVec.getLsbD_true_ctz_of_ne_zero h, rfl⟩
      · exact ⟨j, hj, rfl⟩

theorem bitsAt_eq_nil {k : Nat} : bitsAt k w = [] ↔ w = 0#64 := by
  constructor
  · intro h
    by_contra hw
    simp [bitsAt_eq_cons k hw] at h
  · rintro rfl
    exact bitsAt_zero k

section Count

theorem cpopNatRec_eq_countP (w : BitVec 64) (n : Nat) :
    w.cpopNatRec n 0 = (List.range n).countP w.getLsbD := by
  induction n with
  | zero => rfl
  | succ n ih =>
    rw [BitVec.cpopNatRec_succ, BitVec.cpopNatRec_add, ih, List.range_succ, List.countP_append,
      List.countP_singleton]
    cases w.getLsbD n <;> rfl

theorem length_bitsAt (k : Nat) (w : BitVec 64) : (bitsAt k w).length = w.cpop.toNat := by
  rw [bitsAt, List.length_map, ← List.countP_eq_length_filter, BitVec.toNat_cpop, cpopNatRec_eq_countP]

theorem length_bitsFrom (k : Nat) (words : List (BitVec 64)) :
    (bitsFrom k words).length = words.foldr (fun w n => w.cpop.toNat + n) 0 := by
  induction words generalizing k with
  | nil => rfl
  | cons w words ih => rw [bitsFrom_cons, List.length_append, length_bitsAt, ih, List.foldr_cons]

theorem count_eq_length_toList (s : BitSet) : s.count = s.toList.length := (length_bitsFrom 0 s.words).symm

theorem isEmpty_iff_toList (s : BitSet) : s.isEmpty = true ↔ s.toList = [] := by
  simp only [isEmpty, List.all_eq_true, beq_iff_eq, toList_eq_flatMap,
    List.flatMap_eq_nil_iff, bitsAt_eq_nil]
  exact (forall_mem_zipIdx (P := (· = 0#64))).symm

end Count

/-- Where going through the words has come to, and what is left of the word there. -/
structure Cursor where
  words : List (BitVec 64)
  place : Nat
  current : BitVec 64

def cursor (s : BitSet) : Cursor := ⟨s.words, 0, s.words.head?.getD 0#64⟩

namespace Cursor

def next (c : Cursor) : Option Nat × Cursor :=
  if c.current ≠ 0#64 then
    (some (c.place * 64 + c.current.ctz.toNat), { c with current := c.current &&& (c.current - 1#64) })
  else
    match _h : c.words[c.place + 1]? with
    | none => (none, { c with place := c.place + 1 })
    | some w => next { c with place := c.place + 1, current := w }
termination_by c.words.length - c.place
decreasing_by
  obtain ⟨hlt, -⟩ := List.getElem?_eq_some_iff.mp _h
  omega

inductive Yields : Cursor → List Nat → Prop
  | done {c c' : Cursor} (h : c.next = (none, c')) : Yields c []
  | item {c c' : Cursor} {i : Nat} {rest : List Nat} (h : c.next = (some i, c')) (hrest : Yields c' rest) :
      Yields c (i :: rest)

def pending (c : Cursor) : List Nat :=
  bitsAt c.place c.current ++ bitsFrom (c.place + 1) (c.words.drop (c.place + 1))

theorem pending_cursor (s : BitSet) : s.cursor.pending = s.toList := by
  rw [toList_eq_bitsFrom]
  obtain ⟨capacity, words⟩ := s
  cases words with
  | nil => simp [cursor, pending, bitsFrom]
  | cons w words => rfl

variable {c : Cursor}

theorem next_cases (c : Cursor) :
    (∃ c', c.next = (none, c') ∧ c.pending = []) ∨
      ∃ i c', c.next = (some i, c') ∧ c.pending = i :: c'.pending := by
  fun_induction next c with
  | case1 c h =>
    refine .inr ⟨_, _, rfl, ?_⟩
    rw [pending, bitsAt_eq_cons _ h, Nat.mul_comm]
    rfl
  | case2 c h hnone =>
    have hend : c.words.length ≤ c.place + 1 := List.getElem?_eq_none_iff.mp hnone
    refine .inl ⟨_, rfl, ?_⟩
    rw [pending, not_not.mp h, List.drop_eq_nil_of_le hend, bitsAt_zero]
    rfl
  | case3 c h w hw ih =>
    have hsame : c.pending = pending { c with place := c.place + 1, current := w } := by
      rw [pending, not_not.mp h, bitsAt_zero, List.nil_append, List.drop_eq_getElem?_toList_append, hw]
      rfl
    rw [hsame]
    exact ih

theorem yields_pending (c : Cursor) : c.Yields c.pending := by
  generalize hitems : c.pending = items
  induction items generalizing c with
  | nil =>
    obtain ⟨c', h, -⟩ | ⟨i, c', -, hpending⟩ := c.next_cases
    · exact .done h
    · cases hitems.symm.trans hpending
  | cons i rest ih =>
    obtain ⟨c', -, hpending⟩ | ⟨j, c', h, hpending⟩ := c.next_cases
    · cases hitems.symm.trans hpending
    · obtain ⟨rfl, hrest⟩ := List.cons.inj (hitems.symm.trans hpending)
      exact .item h (ih c' hrest.symm)

theorem Yields.unique {items items' : List Nat} (h : c.Yields items) (h' : c.Yields items') :
    items = items' := by
  induction h generalizing items' with
  | done hnext =>
    cases h' with
    | done => rfl
    | item hnext' => cases hnext.symm.trans hnext'
  | item hnext _ ih =>
    cases h' with
    | done hnext' => cases hnext.symm.trans hnext'
    | item hnext' hrest' =>
      obtain ⟨hitem, rfl⟩ := Prod.mk.inj (hnext.symm.trans hnext')
      rw [Option.some.inj hitem, ih hrest']

end Cursor

/-- Going through a set that was built comes to an end, and in one way only. What is yielded are the members,
each one once and in strictly ascending order, all of them below the capacity. There are as many as the words
have bits, none just if all words are zero, and a new set of the same capacity with all of them in it is the
set again. -/
theorem cursor_yields_members (hs : s.Built) :
    ∃ items : List Nat, (∀ found, s.cursor.Yields found ↔ found = items) ∧
      (∀ i, i ∈ items ↔ s.contains i = true) ∧ items.Pairwise (· < ·) ∧ (∀ i ∈ items, i < s.capacity) ∧
      items = s.toList ∧ s.count = items.length ∧ (s.isEmpty = true ↔ items = []) ∧
      ofList s.capacity items = .ok s := by
  have hsized : s.Sized s.capacity := ⟨hs.valid, rfl⟩
  have hyields : s.cursor.Yields s.toList := Cursor.pending_cursor s ▸ s.cursor.yields_pending
  exact ⟨s.toList, fun found => ⟨fun h => h.unique hyields, fun h => h ▸ hyields⟩,
    fun i => hs.valid.mem_toList, pairwise_lt_toList s, fun i => hsized.lt_of_mem_toList, rfl,
    count_eq_length_toList s, isEmpty_iff_toList s, ofList_toList hsized⟩

/-- Three members in the first word and one in the last, with two words between them that have none. -/
theorem cursor_yields_members_gap :
    let s : BitSet := ⟨200, [0x8000000000000021#64, 0#64, 0#64, 0x80#64]⟩
    ofList 200 [199, 5, 0, 63, 5] = .ok s ∧ s.cursor.Yields [0, 5, 63, 199] ∧ s.count = 4 ∧
      s.isEmpty = false ∧ ofList 200 [0, 5, 63, 199] = .ok s := by
  intro s
  have hs : ofList 200 [199, 5, 0, 63, 5] = .ok s := by decide +kernel
  obtain ⟨items, hyields, -, -, -, hitems, hcount, hempty, hagain⟩ := cursor_yields_members (.ofList hs)
  have hlist : items = [0, 5, 63, 199] := hitems.trans (by decide +kernel)
  rw [hlist] at hyields hcount hempty hagain
  exact ⟨hs, (hyields _).mpr rfl, hcount, by simpa using hempty, hagain⟩

end BitSet

end Dependence
