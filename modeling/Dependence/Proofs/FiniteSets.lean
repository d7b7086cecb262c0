import Mathlib.Data.Finset.Dedup
import Mathlib.Data.Finset.Erase
import Mathlib.Data.Finset.Filter
import Mathlib.Data.Finset.Range
import Mathlib.Data.Finset.SDiff
import Dependence.Proofs.SetEdits

/-! Bit sets as finite sets. Whatever a bit set is made of, by whatever changes, it stands for the finite set
of its members: each change makes of the members what it makes of a finite set, tells whether they are other
ones than before, and fails for the same cause or not at all. -/

namespace Dependence.BitSet

variable {s t u : BitSet} {i n : Nat} {e : Error}

def members (s : BitSet) : Finset Nat := (Finset.range s.capacity).filter (· ∈ s)

@[simp] theorem mem_members : i ∈ s.members ↔ i ∈ s := by
  rw [members, Finset.mem_filter, Finset.mem_range]
  exact and_iff_right_of_imp lt_of_mem

theorem Sized.eq_iff_members (hs : s.Sized n) (ht : t.Sized n) : s = t ↔ s.members = t.members := by
  refine ⟨fun h => by rw [h], fun h => hs.ext ht fun i => ?_⟩
  rw [← mem_members, h, mem_members]

inductive Change where
  | insert (i : Nat)
  | erase (i : Nat)
  | clear
  | union (other : BitSet)
  | difference (other : BitSet)

namespace Change

def other? : Change → Option BitSet
  | .union t | .difference t => some t
  | _ => none

/-- The set after a change, and what is told: for all but clearing, whether the set has changed. -/
def apply (s : BitSet) : Change → Except Error (BitSet × Option Bool)
  | .insert i => (s.insert i).map (Prod.map id some)
  | .erase i => (s.erase i).map (Prod.map id some)
  | .clear => .ok (s.clear, none)
  | .union t => (s.union t).map (Prod.map id some)
  | .difference t => (s.difference t).map (Prod.map id some)

def perform : Change → Edit (Option Bool)
  | .insert i => return some (← Edit.insert i)
  | .erase i => return some (← Edit.erase i)
  | .clear => do
    Edit.clear
    return none
  | .union t => return some (← Edit.union t)
  | .difference t => return some (← Edit.difference t)

def check (capacity : Nat) : Change → Except Error Unit
  | .insert i | .erase i => if i < capacity then .ok () else .error (.indexOutOfBounds i capacity)
  | .clear => .ok ()
  | .union t | .difference t =>
    if capacity = t.capacity then .ok () else .error (.capacityMismatch capacity t.capacity)

def result (members : Finset Nat) : Change → Finset Nat
  | .insert i => Insert.insert i members
  | .erase i => members.erase i
  | .clear => ∅
  | .union t => members ∪ t.members
  | .difference t => members \ t.members

def report (changed : Bool) : Change → Option Bool
  | .clear => none
  | _ => some changed

end Change

inductive Built : BitSet → Prop
  | new (capacity : Nat) : Built (empty capacity)
  | default : Built default
  | ofList {capacity : Nat} {indices : List Nat} {s : BitSet} (h : ofList capacity indices = .ok s) :
      Built s
  | change {s u : BitSet} {change : Change} {answer : Option Bool} (hs : Built s)
      (hother : ∀ t, change.other? = some t → Built t) (h : change.apply s = .ok (u, answer)) : Built u

def Change.Made (change : Change) : Prop := ∀ t, change.other? = some t → t.Built

theorem members_clear (s : BitSet) : s.clear.members = ∅ := by
  ext k
  rw [mem_members, mem_def, contains, bit_clear]
  simp

namespace Valid

theorem members_insert (hs : s.Valid) (hi : i < s.capacity) :
    ∃ u, s.insert i = .ok (u, decide (u.members ≠ s.members)) ∧ u.Sized s.capacity ∧
      u.members = Insert.insert i s.members := by
  obtain ⟨u, new, hu, hvalid, hcap, hmem⟩ := hs.insert hi
  have hmembers : u.members = Insert.insert i s.members := by
    ext k
    rw [mem_members, hmem, Finset.mem_insert, mem_members, or_comm]
  have hnew : new = !s.bit i := by
    rw [BitSet.insert, if_pos hi] at hu
    exact (Prod.mk.inj (Except.ok.inj hu)).2.symm
  have hchanged : (!s.bit i) = decide (u.members ≠ s.members) := by
    rw [Bool.eq_iff_iff, decide_eq_true_eq, hmembers, Ne, Finset.insert_eq_self, mem_members,
      hs.mem_iff_bit, Bool.not_eq_true, Bool.not_eq_true']
  exact ⟨u, by rw [hu, hnew, hchanged], ⟨hvalid, hcap⟩, hmembers⟩

theorem members_erase (hs : s.Valid) (hi : i < s.capacity) :
    ∃ u, s.erase i = .ok (u, decide (u.members ≠ s.members)) ∧ u.Sized s.capacity ∧
      u.members = s.members.erase i := by
  obtain ⟨u, present, hu, hvalid, hcap, hmem⟩ := hs.erase hi
  have hmembers : u.members = s.members.erase i := by
    ext k
    rw [mem_members, hmem, Finset.mem_erase, mem_members, and_comm]
  have hpresent : present = s.bit i := by
    rw [BitSet.erase, if_pos hi] at hu
    exact (Prod.mk.inj (Except.ok.inj hu)).2.symm
  have hchanged : s.bit i = decide (u.members ≠ s.members) := by
    rw [Bool.eq_iff_iff, decide_eq_true_eq, hmembers, Ne, Finset.erase_eq_self, mem_members,
      hs.mem_iff_bit, not_not]
  exact ⟨u, by rw [hu, hpresent, hchanged], ⟨hvalid, hcap⟩, hmembers⟩

theorem changed_of_combine {f : BitVec 64 → BitVec 64 → BitVec 64} {changed : Bool} (hs : s.Valid)
    (hu : u.Sized s.capacity) (h : s.combine f t = .ok (u, changed)) :
    changed = decide (u.members ≠ s.members) := by
  unfold BitSet.combine at h
  split at h
  · obtain ⟨hset, hflag⟩ := Prod.mk.inj (Except.ok.inj h)
    have hsame : u = s ↔ u.words = s.words := by
      rw [← hset]
      cases s
      simp
    rw [← hflag, Bool.eq_iff_iff, bne_iff_ne, decide_eq_true_eq, Ne, Ne,
      ← hu.eq_iff_members ⟨hs, rfl⟩, hsame, ← hset]
  · cases h

theorem members_union (hs : s.Valid) (ht : t.Valid) (hcap : s.capacity = t.capacity) :
    ∃ u, s.union t = .ok (u, decide (u.members ≠ s.members)) ∧ u.Sized s.capacity ∧
      u.members = s.members ∪ t.members := by
  obtain ⟨u, changed, hu, hvalid, hucap, hmem⟩ := hs.union ht hcap
  refine ⟨u, ?_, ⟨hvalid, hucap⟩, ?_⟩
  · rw [hu, hs.changed_of_combine ⟨hvalid, hucap⟩ hu]
  · ext k
    rw [mem_members, hmem, Finset.mem_union, mem_members, mem_members]

theorem members_difference (hs : s.Valid) (ht : t.Valid) (hcap : s.capacity = t.capacity) :
    ∃ u, s.difference t = .ok (u, decide (u.members ≠ s.members)) ∧ u.Sized s.capacity ∧
      u.members = s.members \ t.members := by
  obtain ⟨u, changed, hu, hvalid, hucap, hmem⟩ := hs.difference ht hcap
  refine ⟨u, ?_, ⟨hvalid, hucap⟩, ?_⟩
  · rw [hu, hs.changed_of_combine ⟨hvalid, hucap⟩ hu]
  · ext k
    rw [mem_members, hmem, Finset.mem_sdiff, mem_members, mem_members]

end Valid

namespace Change

variable {change : Change}

theorem of_check {c : Prop} [Decidable c]
    (h : (if c then .ok () else .error e : Except Error Unit) = .ok ()) : c := by
  by_contra hc
  rw [if_neg hc] at h
  cases h

theorem of_check_error {c : Prop} [Decidable c] {e' : Error}
    (h : (if c then .ok () else .error e : Except Error Unit) = .error e') : ¬c ∧ e = e' := by
  split at h
  · cases h
  · next hc => exact ⟨hc, Except.error.inj h⟩

theorem run_map_of_outcome {m : Edit Bool} {x : Except Error (BitSet × Bool)}
    (h : m.run s = outcome s x) :
    (m >>= fun changed => pure (some changed)).run s = outcome s (x.map (Prod.map id some)) := by
  cases x with
  | ok made => exact run_bind_of_ok h
  | error e => exact run_bind_of_error h

theorem apply_of_ok (hs : s.Valid) (hother : ∀ t, change.other? = some t → t.Valid)
    (h : change.check s.capacity = .ok ()) :
    ∃ u, change.apply s = .ok (u, change.report (decide (u.members ≠ s.members))) ∧
      u.Sized s.capacity ∧ u.members = change.result s.members := by
  cases change with
  | insert i =>
    obtain ⟨u, hu, hmade⟩ := hs.members_insert (of_check h)
    exact ⟨u, by rw [apply, hu]; rfl, hmade⟩
  | erase i =>
    obtain ⟨u, hu, hmade⟩ := hs.members_erase (of_check h)
    exact ⟨u, by rw [apply, hu]; rfl, hmade⟩
  | clear => exact ⟨s.clear, rfl, ⟨hs.clear, rfl⟩, members_clear s⟩
  | union t =>
    obtain ⟨u, hu, hmade⟩ := hs.members_union (hother t rfl) (of_check h)
    exact ⟨u, by rw [apply, hu]; rfl, hmade⟩
  | difference t =>
    obtain ⟨u, hu, hmade⟩ := hs.members_difference (hother t rfl) (of_check h)
    exact ⟨u, by rw [apply, hu]; rfl, hmade⟩

theorem apply_of_error (h : change.check s.capacity = .error e) : change.apply s = .error e := by
  cases change with
  | insert i =>
    obtain ⟨hi, rfl⟩ := of_check_error h
    rw [apply, BitSet.insert, if_neg hi]
    rfl
  | erase i =>
    obtain ⟨hi, rfl⟩ := of_check_error h
    rw [apply, BitSet.erase, if_neg hi]
    rfl
  | clear => cases h
  | union t =>
    obtain ⟨hcap, rfl⟩ := of_check_error h
    rw [apply, BitSet.union, combine, if_neg hcap]
    rfl
  | difference t =>
    obtain ⟨hcap, rfl⟩ := of_check_error h
    rw [apply, BitSet.difference, combine, if_neg hcap]
    rfl

theorem run_perform (hs : s.Valid) (hother : ∀ t, change.other? = some t → t.Valid) :
    change.perform.run s = outcome s (change.apply s) := by
  cases change with
  | insert i => exact run_map_of_outcome (Edit.run_insert hs i)
  | erase i => exact run_map_of_outcome (Edit.run_erase hs i)
  | clear => rfl
  | union t => exact run_map_of_outcome (Edit.run_combine hs (hother t rfl) _)
  | difference t => exact run_map_of_outcome (Edit.run_combine hs (hother t rfl) _)

end Change

theorem Built.valid (hs : s.Built) : s.Valid := by
  induction hs with
  | new capacity => exact valid_empty capacity
  | default => exact valid_empty 0
  | @ofList capacity indices s h =>
    cases hfind : indices.find? (capacity ≤ ·) with
    | some i => cases h.symm.trans (ofList_of_find? hfind)
    | none =>
      obtain ⟨u, hu, hsized, -⟩ := ofList_ok (by simpa using hfind)
      obtain rfl := Except.ok.inj (h.symm.trans hu)
      exact hsized.1
  | @change s u change answer _ _ h hs hother =>
    cases hcheck : change.check s.capacity with
    | error e => cases h.symm.trans (Change.apply_of_error hcheck)
    | ok =>
      obtain ⟨v, hv, hsized, -⟩ := Change.apply_of_ok hs hother hcheck
      obtain ⟨rfl, -⟩ := Prod.mk.inj (Except.ok.inj (h.symm.trans hv))
      exact hsized.1

theorem Built.run_perform (hs : s.Built) {change : Change} (hchange : change.Made) :
    (change.check s.capacity = .ok () → ∃ u, u.Built ∧ u.capacity = s.capacity ∧
      u.members = change.result s.members ∧
      change.perform.run s = .ok (change.report (decide (change.result s.members ≠ s.members))) u) ∧
    ∀ e, change.check s.capacity = .error e → change.perform.run s = .error e s := by
  have hother : ∀ t, change.other? = some t → t.Valid := fun t ht => (hchange t ht).valid
  rw [Change.run_perform hs.valid hother]
  constructor
  · intro hcheck
    obtain ⟨u, hu, ⟨-, hcap⟩, hmembers⟩ := Change.apply_of_ok hs.valid hother hcheck
    refine ⟨u, hs.change hchange hu, hcap, hmembers, ?_⟩
    rw [hu, ← hmembers]
    rfl
  · intro e hcheck
    rw [Change.apply_of_error hcheck]
    rfl

/-- Makes changes one after another. After one that fails, the next goes on with what it has left. -/
def performAll (s : BitSet) : List Change → BitSet × List (Except Error (Option Bool))
  | [] => (s, [])
  | change :: rest =>
    match change.perform.run s with
    | .ok answer u => ((u.performAll rest).1, .ok answer :: (u.performAll rest).2)
    | .error e u => ((u.performAll rest).1, .error e :: (u.performAll rest).2)

def simulate (capacity : Nat) (members : Finset Nat) :
    List Change → Finset Nat × List (Except Error (Option Bool))
  | [] => (members, [])
  | change :: rest =>
    match change.check capacity with
    | .ok () =>
      let later := simulate capacity (change.result members) rest
      (later.1, .ok (change.report (decide (change.result members ≠ members))) :: later.2)
    | .error e =>
      let later := simulate capacity members rest
      (later.1, .error e :: later.2)

theorem Built.performAll (hs : s.Built) {changes : List Change} (h : ∀ change ∈ changes, change.Made) :
    (s.performAll changes).1.Built ∧ (s.performAll changes).1.capacity = s.capacity ∧
      ((s.performAll changes).1.members, (s.performAll changes).2) =
        simulate s.capacity s.members changes := by
  induction changes generalizing s with
  | nil => exact ⟨hs, rfl, rfl⟩
  | cons change changes ih =>
    obtain ⟨hchange, hrest⟩ := List.forall_mem_cons.mp h
    obtain ⟨hok, herror⟩ := hs.run_perform hchange
    unfold BitSet.performAll simulate
    cases hcheck : change.check s.capacity with
    | ok =>
      obtain ⟨u, hu, hcap, hmembers, hrun⟩ := hok hcheck
      obtain ⟨hbuilt, hlater, hsame⟩ := ih hu hrest
      rw [hcap, hmembers] at hsame
      simp only [hrun]
      exact ⟨hbuilt, hlater.trans hcap, by rw [← hsame]⟩
    | error e =>
      obtain ⟨hbuilt, hlater, hsame⟩ := ih hs hrest
      simp only [herror e hcheck]
      exact ⟨hbuilt, hlater, by rw [← hsame]⟩

/-- A set that was built keeps the words that its capacity needs, without a bit at or past the capacity. Its
members can be looked up, and every change, or sequence of changes, made in place does to them what it does to
a finite set and gives the same answers. A change that is refused leaves the set as it was. Making a set from
a list fails only for a number that is too large, the first one there is. -/
theorem refines_finite_sets (hs : s.Built) :
    s.words.length = (s.capacity + 63) / 64 ∧ (∀ i, s.capacity ≤ i → s.bit i = false) ∧
    (∀ i, (Edit.contains i).run s = .ok (decide (i ∈ s.members)) s) ∧
    (∀ change : Change, change.Made →
      (change.check s.capacity = .ok () → ∃ u, u.Built ∧ u.capacity = s.capacity ∧
        u.members = change.result s.members ∧
        change.perform.run s = .ok (change.report (decide (change.result s.members ≠ s.members))) u) ∧
      ∀ e, change.check s.capacity = .error e → change.perform.run s = .error e s) ∧
    (∀ changes : List Change, (∀ change ∈ changes, change.Made) →
      (s.performAll changes).1.Built ∧ (s.performAll changes).1.capacity = s.capacity ∧
        ((s.performAll changes).1.members, (s.performAll changes).2) =
          simulate s.capacity s.members changes) ∧
    ∀ capacity indices, ((∀ i ∈ indices, i < capacity) → ∃ u, ofList capacity indices = .ok u ∧
        u.Built ∧ u.capacity = capacity ∧ u.members = indices.toFinset) ∧
      ∀ i, indices.find? (capacity ≤ ·) = some i →
        ofList capacity indices = .error (.indexOutOfBounds i capacity) := by
  refine ⟨hs.valid.length, fun i => hs.valid.padding, fun i => ?_, fun change => hs.run_perform,
    fun changes => hs.performAll, fun capacity indices => ⟨fun h => ?_, fun i => ofList_of_find?⟩⟩
  · have hmem : s.contains i = decide (i ∈ s.members) := by
      rw [Bool.eq_iff_iff, decide_eq_true_eq, mem_members, mem_def]
    rw [Edit.run_contains hs.valid, hmem]
  · obtain ⟨u, hu, ⟨-, hcap⟩, hmem⟩ := ofList_ok h
    refine ⟨u, hu, .ofList hu, hcap, ?_⟩
    ext i
    rw [mem_members, hmem, List.mem_toFinset]

/-- Changes on both sides of the border between two words, of which two are refused and one changes nothing.
-/
theorem refines_finite_sets_border :
    let s : BitSet := ⟨70, [1#64, 33#64]⟩
    let t : BitSet := ⟨70, [0x8000000000000000#64, 1#64]⟩
    let changes : List Change := [.insert 63, .insert 70, .union t, .erase 64, .difference (empty 71),
      .difference t]
    ofList 70 [69, 0, 64, 0] = .ok s ∧ ofList 70 [63, 64] = .ok t ∧ s.members = {0, 64, 69} ∧
      (Change.insert 70).perform.run s = .error (.indexOutOfBounds 70 70) s ∧
      (s.performAll changes).1.members = {0, 69} ∧
      (s.performAll changes).2 = [.ok (some true), .error (.indexOutOfBounds 70 70), .ok (some false),
        .ok (some true), .error (.capacityMismatch 70 71), .ok (some true)] := by
  intro s t changes
  have hs : ofList 70 [69, 0, 64, 0] = .ok s := by decide +kernel
  have ht : ofList 70 [63, 64] = .ok t := by decide +kernel
  have hchanges : ∀ change ∈ changes, change.Made := by
    intro change hchange u hu
    simp only [changes, List.mem_cons, List.not_mem_nil, or_false] at hchange
    rcases hchange with rfl | rfl | rfl | rfl | rfl | rfl <;> cases hu
    exacts [.ofList ht, .new 71, .ofList ht]
  obtain ⟨-, -, -, hone, hall, -⟩ := refines_finite_sets (.ofList hs)
  obtain ⟨-, -, hsame⟩ := hall changes hchanges
  have hsimulate : simulate 70 s.members changes = ({0, 69}, [.ok (some true),
    .error (.indexOutOfBounds 70 70), .ok (some false), .ok (some true),
    .error (.capacityMismatch 70 71), .ok (some true)]) := by decide +kernel
  obtain ⟨hmembers, hanswers⟩ := Prod.mk.inj (hsame.trans hsimulate)
  have hrefused := (hone (.insert 70) nofun).2 _ rfl
  exact ⟨hs, ht, by decide +kernel, hrefused, hmembers, hanswers⟩

end Dependence.BitSet
