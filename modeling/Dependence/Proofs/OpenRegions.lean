import Mathlib.Data.List.TakeWhile
import Dependence.Proofs.Postdominance
import Dependence.Profiling.Layout

/-! The regions of branches along a path through a function. A region begins where a branch is
entered and ends where its postdominator is. Regions nest: one that begins inside another ends with
that one at the latest. So a stack that is cut off at every region that ends, and at every branch
that is entered again, still has the innermost open region on top. -/

namespace Dependence.Layout

variable {l : Layout} {t : Nat → Nat} {b i j k m p v : Nat} {stack : List Nat}

def Ended (l : Layout) (t : Nat → Nat) (i k : Nat) : Prop :=
  ∃ j, i < j ∧ j ≤ k ∧ l.postdominator? (t i) = some (t j)

instance (l : Layout) (t : Nat → Nat) (i k : Nat) : Decidable (l.Ended t i k) :=
  decidable_of_iff (∃ j < k + 1, i < j ∧ l.postdominator? (t i) = some (t j))
    (exists_congr fun j => by rw [Nat.lt_succ_iff, and_left_comm])

theorem Ended.mono (h : l.Ended t i j) (hjk : j ≤ k) : l.Ended t i k := by
  obtain ⟨n, hin, hnj, hn⟩ := h
  exact ⟨n, hin, hnj.trans hjk, hn⟩

theorem ended_succ (hik : i ≤ k) :
    l.Ended t i (k + 1) ↔ l.Ended t i k ∨ l.postdominator? (t i) = some (t (k + 1)) := by
  constructor
  · rintro ⟨j, hij, hjk, hj⟩
    rcases Nat.le_succ_iff.mp hjk with hjk | rfl
    · exact .inl ⟨j, hij, hjk, hj⟩
    · exact .inr hj
  · rintro (h | h)
    · exact h.mono (Nat.le_succ k)
    · exact ⟨k + 1, Nat.lt_succ_of_le hik, le_rfl, h⟩

theorem Ended.of_same (h : l.Ended t j k) (hij : i ≤ j) (hsame : t i = t j) : l.Ended t i k := by
  obtain ⟨n, hjn, hnk, hn⟩ := h
  exact ⟨n, hij.trans_lt hjn, hnk, hsame ▸ hn⟩

/-- The first steps of `t` up to step `m` follow the edges of a layout, whose postdominators are
those of its graph. -/
structure Follows (l : Layout) (t : Nat → Nat) (m : Nat) : Prop where
  postdominators : l.postdominators = l.successors.postdominators
  edge : ∀ k < m, l.successors.Edge (t k) (t (k + 1))

namespace Follows

variable (h : l.Follows t m)
include h

theorem lt (hm : 0 < m) (hk : k ≤ m) : t k < l.nodeCount := by
  rcases hk.lt_or_eq with hk | rfl
  · exact (h.edge k hk).left_lt
  · have hlast := (h.edge (k - 1) (Nat.sub_lt hm Nat.one_pos)).right_lt
    rwa [Nat.sub_add_cancel hm] at hlast

theorem exists_walk (hij : i ≤ j) (hjm : j ≤ m) :
    ∃ nodes, l.successors.Walk (t i) (t j) nodes ∧ ∀ x ∈ nodes, ∃ k, i ≤ k ∧ k ≤ j ∧ t k = x := by
  induction j, hij using Nat.le_induction with
  | base => exact ⟨_, .single _, fun x hx => ⟨i, le_rfl, le_rfl, (List.mem_singleton.mp hx).symm⟩⟩
  | succ j hij ih =>
    obtain ⟨nodes, hnodes, hmem⟩ := ih (Nat.le_of_succ_le hjm)
    refine ⟨_, hnodes.snoc (h.edge j hjm), fun x hx => ?_⟩
    rcases List.mem_append.mp hx with hx | hx
    · obtain ⟨k, hik, hkj, hk⟩ := hmem x hx
      exact ⟨k, hik, Nat.le_succ_of_le hkj, hk⟩
    · exact ⟨j + 1, Nat.le_succ_of_le hij, le_rfl, (List.mem_singleton.mp hx).symm⟩

theorem immediatelyPostdominates (hp : l.postdominator? v = some p) :
    l.successors.ImmediatelyPostdominates p v := by
  rw [postdominator?, h.postdominators] at hp
  exact Adjacency.immediatelyPostdominates_of_postdominators hp

theorem postdominates_of_open (hp : l.postdominator? (t i) = some p) (hij : i ≤ j)
    (hjm : j ≤ m) (hopen : ¬l.Ended t i j) : p ≠ t j ∧ l.successors.Postdominates p (t j) := by
  have hpost := h.immediatelyPostdominates hp
  have hne : ∀ k, i ≤ k → k ≤ j → t k ≠ p := by
    intro k hik hkj heq
    rcases hik.eq_or_lt with rfl | hik
    · exact hpost.ne heq.symm
    · exact hopen ⟨k, hik, hkj, heq ▸ hp⟩
  refine ⟨(hne j hij le_rfl).symm, fun e nodes he hnodes => ?_⟩
  obtain ⟨first, hfirst, hmem⟩ := h.exists_walk hij hjm
  obtain ⟨whole, hwhole, hall⟩ := hfirst.trans hnodes
  refine ((hall p).mp (hpost.postdominates e whole he hwhole)).resolve_left fun hp => ?_
  obtain ⟨k, hik, hkj, hk⟩ := hmem p hp
  exact hne k hik hkj hk

theorem exists_postdominator (hv : l.successors.Exiting v) (hne : p ≠ v)
    (hp : l.successors.Postdominates p v) : ∃ q, l.postdominator? v = some q := by
  rw [postdominator?, h.postdominators]
  exact Adjacency.exists_postdominator hv hne hp

theorem ended_of_ended (hij : i ≤ j) (hopen : ¬l.Ended t i j) (hkm : k ≤ m)
    (hend : l.Ended t i k) : l.Ended t j k := by
  obtain ⟨n, hin, hnk, hn⟩ := hend
  have hjn : j < n := lt_of_not_ge fun hnj => hopen ⟨n, hin, hnj, hn⟩
  have hnm : n ≤ m := hnk.trans hkm
  obtain ⟨first, hfirst, hmem⟩ := h.exists_walk hjn.le hnm
  have houter := h.immediatelyPostdominates hn
  have hexit : l.successors.Exiting (t n) := houter.postdominates.exiting houter.exiting
  obtain ⟨hne, hpost⟩ := h.postdominates_of_open hn hij (hjn.le.trans hnm) hopen
  obtain ⟨q, hq⟩ := h.exists_postdominator (hexit.of_reachable ⟨first, hfirst⟩) hne hpost
  have hinner := h.immediatelyPostdominates hq
  by_cases heq : q = t n
  · exact ⟨n, hjn, hnk, heq ▸ hq⟩
  · -- some walk goes on from the end of the outer region without `q`, so `q` comes before that
    have hnot : ¬l.successors.Postdominates q (t n) := fun hback =>
      heq (hback.antisymm (hinner.nearest _ hne hpost)
        (hinner.postdominates.exiting hinner.exiting))
    simp only [Adjacency.Postdominates, not_forall] at hnot
    obtain ⟨e, rest, he, hrest, hqrest⟩ := hnot
    obtain ⟨whole, hwhole, hall⟩ := hfirst.trans hrest
    have hqfirst : q ∈ first :=
      ((hall q).mp (hinner.postdominates e whole he hwhole)).resolve_right hqrest
    obtain ⟨n', hjn', hn'n, rfl⟩ := hmem q hqfirst
    have hlt : j < n' := hjn'.lt_of_ne fun hjn' => hinner.ne (hjn' ▸ rfl)
    exact ⟨n', hlt, hn'n.trans hnk, hq⟩

end Follows

def Open (l : Layout) (t : Nat → Nat) (i k : Nat) : Prop :=
  l.isBranch (t i) = true ∧ ¬l.Ended t i k

instance (l : Layout) (t : Nat → Nat) (i k : Nat) : Decidable (l.Open t i k) :=
  inferInstanceAs (Decidable (_ ∧ _))

/-- The steps on the stack begin open regions, and for each open region that began before step `b`
there is one on the stack that began with it or later and that does not end before it. -/
structure Tracks (l : Layout) (t : Nat → Nat) (m b k : Nat) (stack : List Nat) : Prop where
  sorted : stack.Pairwise (· < ·)
  lt : ∀ i ∈ stack, i < b
  isOpen : ∀ i ∈ stack, l.Open t i k
  covered : ∀ j < b, l.Open t j k → ∃ i ∈ stack, j ≤ i ∧ ∀ n ≤ m, l.Ended t i n → l.Ended t j n

theorem mem_takeWhile_or_exists (keep : Nat → Bool) (hsorted : stack.Pairwise (· < ·))
    (hi : i ∈ stack) : i ∈ stack.takeWhile keep ∨ ∃ a ∈ stack, a ≤ i ∧ keep a = false := by
  induction stack with
  | nil => simp at hi
  | cons a stack ih =>
    obtain ⟨hlt, hsorted⟩ := List.pairwise_cons.mp hsorted
    cases hkeep : keep a with
    | false =>
      refine .inr ⟨a, List.mem_cons_self, ?_, hkeep⟩
      rcases List.mem_cons.mp hi with rfl | hi
      · exact le_rfl
      · exact (hlt i hi).le
    | true =>
      rw [List.takeWhile_cons_of_pos hkeep]
      rcases List.mem_cons.mp hi with rfl | hi
      · exact .inl List.mem_cons_self
      · rcases ih hsorted hi with hmem | ⟨c, hc, hci, hfail⟩
        · exact .inl (List.mem_cons_of_mem _ hmem)
        · exact .inr ⟨c, List.mem_cons_of_mem _ hc, hci, hfail⟩

namespace Tracks

theorem nil : l.Tracks t m 0 0 [] where
  sorted := .nil
  lt := by simp
  isOpen := by simp
  covered := by simp

/-- Cutting the stack off at the first region that ends drops those that end, and no other. -/
theorem close (h : l.Tracks t m (k + 1) k stack) (hfollows : l.Follows t m) (hkm : k + 1 ≤ m) :
    l.Tracks t m (k + 1) (k + 1)
      (stack.takeWhile fun i => l.postdominator? (t i) ≠ some (t (k + 1))) := by
  have hmem : ∀ i ∈ stack.takeWhile fun i => l.postdominator? (t i) ≠ some (t (k + 1)),
      i ∈ stack := fun i hi => (List.takeWhile_sublist _).subset hi
  have hle : ∀ i ∈ stack, i ≤ k := fun i hi => Nat.le_of_lt_succ (h.lt i hi)
  refine ⟨h.sorted.sublist (List.takeWhile_sublist _), fun i hi => h.lt i (hmem i hi),
    fun i hi => ?_, fun j hj hopen => ?_⟩
  · have hstays := List.mem_takeWhile_imp hi
    obtain ⟨hbranch, hrunning⟩ := h.isOpen i (hmem i hi)
    refine ⟨hbranch, fun hend => ?_⟩
    rcases (ended_succ (hle i (hmem i hi))).mp hend with hend | hend
    · exact hrunning hend
    · simp [hend] at hstays
  · have hbefore : l.Open t j k := ⟨hopen.1, fun hend => hopen.2 (hend.mono (Nat.le_succ k))⟩
    obtain ⟨i, hi, hji, hcover⟩ := h.covered j hj hbefore
    refine ⟨i, ?_, hji, hcover⟩
    refine (mem_takeWhile_or_exists _ h.sorted hi).resolve_right ?_
    rintro ⟨a, ha, hai, hfinish⟩
    have haend : l.Ended t a (k + 1) := (ended_succ (hle a ha)).mpr (.inr (by simpa using hfinish))
    have harunning : ¬l.Ended t a i := fun hend => (h.isOpen a ha).2 (hend.mono (hle i hi))
    exact hopen.2 (hcover _ hkm (hfollows.ended_of_ended hai harunning hkm haend))

theorem skip (h : l.Tracks t m k k stack) (hbranch : l.isBranch (t k) = false) :
    l.Tracks t m (k + 1) k stack where
  sorted := h.sorted
  lt i hi := Nat.lt_succ_of_lt (h.lt i hi)
  isOpen := h.isOpen
  covered j hj hopen := by
    rcases Nat.lt_succ_iff_lt_or_eq.mp hj with hj | rfl
    · exact h.covered j hj hopen
    · simp [hopen.1] at hbranch

/-- A region of the branch that is entered, and all regions in it, end with the new one at the
latest, so it takes their place. -/
theorem push (h : l.Tracks t m k k stack) (hfollows : l.Follows t m)
    (hbranch : l.isBranch (t k) = true) :
    l.Tracks t m (k + 1) k (stack.takeWhile (fun i => t i ≠ t k) ++ [k]) := by
  have hmem : ∀ i ∈ stack.takeWhile fun i => t i ≠ t k, i ∈ stack :=
    fun i hi => (List.takeWhile_sublist _).subset hi
  have hself : ¬l.Ended t k k := fun ⟨n, hkn, hnk, _⟩ => hkn.not_ge hnk
  refine ⟨?_, fun i hi => ?_, fun i hi => ?_, fun j hj hopen => ?_⟩
  · refine List.pairwise_append.mpr ⟨h.sorted.sublist (List.takeWhile_sublist _),
      List.pairwise_singleton _ _, fun i hi a ha => ?_⟩
    exact List.mem_singleton.mp ha ▸ h.lt i (hmem i hi)
  · rcases List.mem_append.mp hi with hi | hi
    · exact Nat.lt_succ_of_lt (h.lt i (hmem i hi))
    · exact List.mem_singleton.mp hi ▸ Nat.lt_succ_self k
  · rcases List.mem_append.mp hi with hi | hi
    · exact h.isOpen i (hmem i hi)
    · rw [List.mem_singleton.mp hi]
      exact ⟨hbranch, hself⟩
  · rcases Nat.lt_succ_iff_lt_or_eq.mp hj with hj | rfl
    · obtain ⟨i, hi, hji, hcover⟩ := h.covered j hj hopen
      rcases mem_takeWhile_or_exists (fun i => t i ≠ t k) h.sorted hi with
        hkept | ⟨a, ha, hai, hstale⟩
      · exact ⟨i, List.mem_append_left _ hkept, hji, hcover⟩
      · refine ⟨k, by simp, hj.le, fun n hn hend => hcover n hn ?_⟩
        have hsame : t a = t k := by simpa using hstale
        have harunning : ¬l.Ended t a i := fun hend =>
          (h.isOpen a ha).2 (hend.mono (h.lt i hi).le)
        exact hfollows.ended_of_ended hai harunning hn (hend.of_same (h.lt a ha).le hsame)
    · exact ⟨j, by simp, le_rfl, fun _ _ hend => hend⟩

theorem le_getLast? (h : l.Tracks t m k k stack) (hi : stack.getLast? = some i) (hj : j < k)
    (hopen : l.Open t j k) : j ≤ i := by
  obtain ⟨a, ha, hja, -⟩ := h.covered j hj hopen
  obtain ⟨below, rfl⟩ := List.getLast?_eq_some_iff.mp hi
  rcases List.mem_append.mp ha with ha | ha
  · exact hja.trans ((List.pairwise_append.mp h.sorted).2.2 a ha i List.mem_cons_self).le
  · exact List.mem_singleton.mp ha ▸ hja

theorem getLast?_eq_some_iff (h : l.Tracks t m k k stack) :
    stack.getLast? = some i ↔ (i < k ∧ l.Open t i k) ∧ ∀ j < k, l.Open t j k → j ≤ i := by
  constructor
  · intro hi
    have hmem : i ∈ stack := List.mem_of_getLast? hi
    exact ⟨⟨h.lt i hmem, h.isOpen i hmem⟩, fun j hj hopen => h.le_getLast? hi hj hopen⟩
  · rintro ⟨⟨hik, hopen⟩, hgreatest⟩
    obtain ⟨a, ha, -⟩ := h.covered i hik hopen
    obtain ⟨last, hlast⟩ := Option.ne_none_iff_exists'.mp
      (mt List.getLast?_eq_none_iff.mp (List.ne_nil_of_mem ha))
    have hmem : last ∈ stack := List.mem_of_getLast? hlast
    have hle : last ≤ i := hgreatest last (h.lt last hmem) (h.isOpen last hmem)
    rw [hlast, hle.antisymm (h.le_getLast? hlast hik hopen)]

theorem getLast?_eq_none_iff (h : l.Tracks t m k k stack) :
    stack.getLast? = none ↔ ∀ i < k, ¬l.Open t i k := by
  rw [List.getLast?_eq_none_iff]
  constructor
  · rintro rfl i hi hopen
    obtain ⟨a, ha, -⟩ := h.covered i hi hopen
    simp at ha
  · intro hnone
    exact List.eq_nil_iff_forall_not_mem.mpr fun i hi => hnone i (h.lt i hi) (h.isOpen i hi)

end Tracks

end Dependence.Layout
