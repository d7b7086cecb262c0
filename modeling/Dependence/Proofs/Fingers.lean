import Dependence.Proofs.Loops
import Dependence.Proofs.ParentTables

/-! Two fingers on a parent table that go up in turns: first the one as long as its number is smaller
than that of the other, then the other, again and again until they are on one node. Numbers and
parents are read from tables, where a node without an entry is a fault. The fingers come together at
the nearest common ancestor of the nodes where they began. -/

namespace Dependence.ParentTable

variable {t : ParentTable} {number : Nat → Nat} {numbers : Array Nat} {root a b c : Nat}

def lift (t : ParentTable) (numbers : Array Nat) (other finger : Nat) : Run (Option Nat) := do
  let n ← look numbers.toList finger
  let m ← look numbers.toList other
  if n < m then
    return some ((← look t.toList finger).getD finger)
  else
    return none

noncomputable def approach (t : ParentTable) (numbers : Array Nat) (fingers : Nat × Nat) :
    Run (Option (Nat × Nat)) := do
  if fingers.1 = fingers.2 then
    return none
  else
    let first ← loop (t.lift numbers fingers.2) fingers.1
    let second ← loop (t.lift numbers first) fingers.2
    return some (first, second)

noncomputable def meetByTurns (t : ParentTable) (numbers : Array Nat) (a b : Nat) : Run Nat := do
  return (← loop (t.approach numbers) (a, b)).1

def Numbered (t : ParentTable) (numbers : Array Nat) (number : Nat → Nat) : Prop :=
  ∀ v, (t.parent? v).isSome → numbers[v]? = some (number v)

theorem Numbered.look_eq (h : t.Numbered numbers number) (ha : (t.parent? a).isSome) :
    look numbers.toList a = pure (number a) :=
  look_of_getElem? (by rw [Array.getElem?_toList, h a ha])

theorem lift_of_lt (hnumbers : t.Numbered numbers number) (ha : (t.parent? a).isSome)
    (hb : (t.parent? b).isSome) (hlt : number a < number b) {p : Nat} (hp : t.parent? a = some p) :
    t.lift numbers b a = pure (some p) := by
  have hparent : look t.toList a = pure (some p) :=
    look_of_getElem? (by rw [Array.getElem?_toList]; exact Option.join_eq_some_iff.mp hp)
  simp only [lift, hnumbers.look_eq ha, hnumbers.look_eq hb, pure_bind, if_pos hlt, hparent]
  rfl

theorem lift_of_le (hnumbers : t.Numbered numbers number) (ha : (t.parent? a).isSome)
    (hb : (t.parent? b).isSome) (hle : number b ≤ number a) : t.lift numbers b a = pure none := by
  simp only [lift, hnumbers.look_eq ha, hnumbers.look_eq hb, pure_bind, if_neg hle.not_gt]

/-- A finger that began at `a` is at `x`, and no common ancestor of `a` and `b` was passed. -/
structure Raised (t : ParentTable) (number : Nat → Nat) (a b x : Nat) : Prop where
  isSome : (t.parent? x).isSome
  number_le : number a ≤ number x
  nearest : ∀ c, t.NearestCommon [x, b] c → t.NearestCommon [a, b] c

theorem Rooted.exists_loop_lift (h : t.Rooted number root) (hnumbers : t.Numbered numbers number)
    (ha : (t.parent? a).isSome) (hb : (t.parent? b).isSome) :
    ∃ x, loop (t.lift numbers b) a = pure x ∧ t.Raised number a b x ∧ number b ≤ number x := by
  refine exists_loop (t.above number) (fun x hx => ?_) (⟨ha, le_rfl, fun _ => id⟩ : t.Raised number a b a)
  rcases lt_or_ge (number x) (number b) with hlt | hle
  · obtain ⟨p, hp, hsome, habove⟩ := h.exists_step hx.isSome hb hlt
    have hraised : t.Raised number a b p :=
      ⟨hsome, hx.number_le.trans (h.number_le_parent hp),
        fun c hc => hx.nearest c (hc.climb h hlt hp hb)⟩
    exact .inr ⟨p, lift_of_lt hnumbers hx.isSome hb hlt hp, hraised, habove⟩
  · exact .inl ⟨lift_of_le hnumbers hx.isSome hb hle, hx, hle⟩

theorem Rooted.exists_approach (h : t.Rooted number root) (hnumbers : t.Numbered numbers number)
    (ha : (t.parent? a).isSome) (hb : (t.parent? b).isSome) (hne : a ≠ b) :
    ∃ x y, t.approach numbers (a, b) = pure (some (x, y)) ∧ t.Raised number a b x ∧
      t.Raised number b x y ∧
      t.above number x + t.above number y < t.above number a + t.above number b := by
  obtain ⟨x, hfirst, hx, hlevel⟩ := h.exists_loop_lift hnumbers ha hb
  obtain ⟨y, hsecond, hy, hlevel'⟩ := h.exists_loop_lift hnumbers hb hx.isSome
  refine ⟨x, y, ?_, hx, hy, ?_⟩
  · simp only [approach, if_neg hne, hfirst, hsecond, pure_bind]
  · have hax : t.above number x ≤ t.above number a := above_anti hx.number_le
    have hby : t.above number y ≤ t.above number b := above_anti hy.number_le
    -- two nodes have two numbers, so one of the fingers is below the other
    rcases lt_or_gt_of_ne fun heq => hne (h.injective a b ha hb heq) with hlt | hlt
    · have hup : t.above number x < t.above number a :=
        above_lt_above hx.isSome (hlt.trans_le hlevel)
      omega
    · have hup : t.above number y < t.above number b :=
        above_lt_above hy.isSome (hlt.trans_le (hx.number_le.trans hlevel'))
      omega

/-- Two fingers are on nodes of the table, and these have no other nearest common ancestor than the
nodes where the fingers began. -/
structure Approaching (t : ParentTable) (a b : Nat) (fingers : Nat × Nat) : Prop where
  first : (t.parent? fingers.1).isSome
  second : (t.parent? fingers.2).isSome
  nearest : ∀ c, t.NearestCommon [fingers.1, fingers.2] c → t.NearestCommon [a, b] c

theorem Rooted.exists_meetByTurns (h : t.Rooted number root) (hnumbers : t.Numbered numbers number)
    (ha : (t.parent? a).isSome) (hb : (t.parent? b).isSome) :
    ∃ c, t.meetByTurns numbers a b = pure c ∧ t.NearestCommon [a, b] c := by
  have hbegin : t.Approaching a b (a, b) := ⟨ha, hb, fun _ => id⟩
  obtain ⟨r, hloop, hr⟩ : ∃ r, loop (t.approach numbers) (a, b) = pure r ∧
      t.NearestCommon [a, b] r.1 := by
    refine exists_loop (fun r => t.above number r.1 + t.above number r.2) (fun r hinv => ?_) hbegin
    by_cases hmet : r.1 = r.2
    · refine .inl ⟨by simp only [approach, if_pos hmet], hinv.nearest _ ?_⟩
      exact .self hinv.first (by simp) (by simp [hmet])
    · obtain ⟨x, y, hturn, hx, hy, hlt⟩ := h.exists_approach hnumbers hinv.first hinv.second hmet
      refine .inr ⟨(x, y), hturn, ⟨hx.isSome, hy.isSome, fun c hc => ?_⟩, hlt⟩
      exact hinv.nearest c (hx.nearest c (hy.nearest c hc.swap).swap)
  refine ⟨r.1, ?_, hr⟩
  simp only [meetByTurns, hloop, pure_bind]

/-- Two fingers on nodes of a rooted table come together, at a common ancestor of both nodes of which
every other common ancestor is an ancestor. They come to the same node if in each step the one with
the smaller number goes up, and there are steps enough for both to pass all nodes. -/
theorem fingers_meet_at_nearest (h : t.Rooted number root) (hnumbers : t.Numbered numbers number)
    (ha : (t.parent? a).isSome) (hb : (t.parent? b).isSome) :
    ∃ c, t.meetByTurns numbers a b = pure c ∧
      (∀ steps, 2 * t.size ≤ steps → meet? steps t.parent? number a b = some c) ∧
      (t.parent? c).isSome ∧ t.Ancestor c a ∧ t.Ancestor c b ∧
      ∀ d, t.Ancestor d a → t.Ancestor d b → t.Ancestor d c := by
  obtain ⟨c, hmeet, hc⟩ := h.exists_meetByTurns hnumbers ha hb
  refine ⟨c, hmeet, fun steps hsteps => ?_, hc.isSome, hc.common a (by simp) ha,
    hc.common b (by simp) hb, fun d hda hdb => hc.nearest d ?_⟩
  · have henough : t.above number a + t.above number b ≤ steps := by
      have hle : t.above number a ≤ t.size := above_le_size
      have hle' : t.above number b ≤ t.size := above_le_size
      omega
    obtain ⟨c', hmeet', hc'⟩ := h.exists_meet? ha hb henough
    rw [hmeet', hc'.unique h hc]
  · intro n hn _
    rcases List.mem_pair.mp hn with rfl | rfl
    · exact hda
    · exact hdb

/-- Two arms below node 1, with numbers that alternate between them, and a node that is not in the
table. -/
def arms : ParentTable := #[some 0, some 0, some 1, some 1, some 2, some 3, some 4, none]

def armNumbers : Array Nat := #[9, 8, 5, 6, 3, 4, 1, 9]

theorem rooted_arms : arms.Rooted (armNumbers.getD · 0) 0 := by
  have hdistinct : ∀ a < 8, ∀ b < 8, (arms.parent? a).isSome → (arms.parent? b).isSome →
      armNumbers.getD a 0 = armNumbers.getD b 0 → a = b := by decide
  have hup : ∀ v < 8, v ≠ 0 → ∀ p ∈ arms.parent? v,
      (arms.parent? p).isSome ∧ armNumbers.getD v 0 < armNumbers.getD p 0 := by decide
  exact ⟨rfl, fun a b ha hb => hdistinct a (lt_size_of_isSome ha) b (lt_size_of_isSome hb) ha hb,
    fun v p hv hp => hup v (lt_size_of_isSome (Option.isSome_of_mem hp)) hv p hp⟩

theorem numbered_arms : arms.Numbered armNumbers (armNumbers.getD · 0) := by
  have hnumbers : ∀ v < 8, armNumbers[v]? = some (armNumbers.getD v 0) := by decide
  exact fun v hv => hnumbers v (lt_size_of_isSome hv)

theorem fingers_meet_at_nearest_arms :
    arms.Rooted (armNumbers.getD · 0) 0 ∧ arms.Numbered armNumbers (armNumbers.getD · 0) ∧
      (arms.parent? 6).isSome ∧ (arms.parent? 5).isSome ∧
      arms.meetByTurns armNumbers 6 5 = pure 1 ∧ arms.Ancestor 1 6 ∧ arms.Ancestor 1 5 ∧
      ∀ d, arms.Ancestor d 6 → arms.Ancestor d 5 → arms.Ancestor d 1 := by
  have hfirst : (arms.parent? 6).isSome := by decide
  have hsecond : (arms.parent? 5).isSome := by decide
  obtain ⟨c, hmeet, hsteps, -, hfirst', hsecond', hnearest⟩ :=
    fingers_meet_at_nearest rooted_arms numbered_arms hfirst hsecond
  obtain rfl : c = 1 := Option.some.inj ((hsteps 16 (by decide)).symm.trans (by decide))
  exact ⟨rooted_arms, numbered_arms, hfirst, hsecond, hmeet, hfirst', hsecond', hnearest⟩

end Dependence.ParentTable
