import Mathlib.Logic.Function.Iterate
import Dependence.Proofs.DominatorTrees
import Dependence.Proofs.Loops

/-! The loops behind dominator trees when nothing limits them. Two nodes that a pass asks to meet do
so, and the passes come to an end, with the tree that the limited loops find. -/

namespace Dependence

theorem foldlM_eq_some_of_imp {α β : Type} {f f' : β → α → Option β}
    (hf : ∀ b a b', f b a = some b' → f' b a = some b') {l : List α} {b r : β}
    (h : l.foldlM f b = some r) : l.foldlM f' b = some r := by
  induction l generalizing b with
  | nil => exact h
  | cons a l ih =>
    rw [List.foldlM_cons] at h ⊢
    obtain ⟨b', hb', hrest⟩ := Option.bind_eq_some_iff.mp h
    exact Option.bind_eq_some_iff.mpr ⟨b', hf b a b' hb', ih hrest⟩

namespace Survey

variable {s : Survey} {g : Adjacency} {t t' : ParentTable} {a b c p v : Nat} {rest nodes : List Nat}

section

variable (meet : ParentTable → Nat → Nat → Option Nat)

/-! The steps of a pass, with the way in which two nodes meet left open. -/

def commonBy (t : ParentTable) (nodes : List Nat) : Option (Option Nat) :=
  nodes.foldlM (fun best p =>
    match t.parent? p, best with
    | none, _ => some best
    | some _, none => some (some p)
    | some _, some c => (meet t p c).map some) none

def improveBy (s : Survey) (t : ParentTable) (v : Nat) : Option ParentTable :=
  (commonBy meet t (s.predecessors.getD v [])).map fun
    | none => t
    | some p => t.setIfInBounds v (some p)

def passBy (s : Survey) (t : ParentTable) : Option ParentTable :=
  s.order.foldlM (improveBy meet s) t

end

theorem common?_eq_commonBy (s : Survey) : s.common? = commonBy s.meet? := rfl

theorem improve_eq_improveBy (s : Survey) : s.improve = improveBy s.meet? s := rfl

theorem pass_eq_passBy (s : Survey) : s.pass = passBy s.meet? s := rfl

section

variable {meet meet' : ParentTable → Nat → Nat → Option Nat}
  (hmeet : ∀ t a b c, meet t a b = some c → meet' t a b = some c)
include hmeet

theorem commonBy_of_imp {best : Option Nat} (h : commonBy meet t nodes = some best) :
    commonBy meet' t nodes = some best := by
  refine foldlM_eq_some_of_imp (fun best p best' hstep => ?_) h
  cases hp : t.parent? p with
  | none => simpa only [hp] using hstep
  | some q =>
    cases best with
    | none => simpa only [hp] using hstep
    | some c =>
      simp only [hp] at hstep ⊢
      obtain ⟨m, hm, hbest⟩ := Option.map_eq_some_iff.mp hstep
      exact Option.map_eq_some_iff.mpr ⟨m, hmeet t p c m hm, hbest⟩

theorem improveBy_of_imp (h : improveBy meet s t v = some t') : improveBy meet' s t v = some t' := by
  obtain ⟨best, hbest, ht'⟩ := Option.map_eq_some_iff.mp h
  exact Option.map_eq_some_iff.mpr ⟨best, commonBy_of_imp hmeet hbest, ht'⟩

theorem passBy_of_imp (h : passBy meet s t = some t') : passBy meet' s t = some t' :=
  foldlM_eq_some_of_imp (fun _ _ _ => improveBy_of_imp hmeet) h

end

noncomputable def meetUnbounded (s : Survey) (t : ParentTable) (a b : Nat) : Option Nat :=
  (follow (climb t.parent? s.number) (a, b)).map Prod.fst

noncomputable def improveUnbounded (s : Survey) : ParentTable → Nat → Option ParentTable :=
  improveBy s.meetUnbounded s

noncomputable def passUnbounded (s : Survey) : ParentTable → Option ParentTable :=
  passBy s.meetUnbounded s

/-- What a pass makes of the table, unless it changes nothing. If the pass never ends then the loop
around it does not move on either. -/
noncomputable def advance (s : Survey) (t : ParentTable) : Option ParentTable :=
  match s.passUnbounded t with
  | none => some t
  | some t' => if t' = t then none else some t'

noncomputable def settleUnbounded (s : Survey) : ParentTable → Option ParentTable := follow s.advance

theorem meetUnbounded_of_meet? (h : s.meet? t a b = some c) : s.meetUnbounded t a b = some c := by
  obtain ⟨r, hr, hc⟩ := Option.map_eq_some_iff.mp h
  exact Option.map_eq_some_iff.mpr ⟨r, follow_eq_some_iff.mpr ⟨_, hr⟩, hc⟩

theorem commonBy_of_common? {best : Option Nat} (h : s.common? t nodes = some best) :
    commonBy s.meetUnbounded t nodes = some best := by
  rw [common?_eq_commonBy] at h
  exact commonBy_of_imp (fun _ _ _ _ => meetUnbounded_of_meet?) h

theorem improveUnbounded_of_improve (h : s.improve t v = some t') :
    s.improveUnbounded t v = some t' := by
  rw [improve_eq_improveBy] at h
  exact improveBy_of_imp (fun _ _ _ _ => meetUnbounded_of_meet?) h

theorem passUnbounded_of_pass (h : s.pass t = some t') : s.passUnbounded t = some t' := by
  rw [pass_eq_passBy] at h
  exact passBy_of_imp (fun _ _ _ _ => meetUnbounded_of_meet?) h

theorem settle?_succ_cases {n : Nat} (h : s.settle? (n + 1) t = some t') :
    ∃ u, s.passUnbounded t = some u ∧ (u = t ∧ t = t' ∨ u ≠ t ∧ s.settle? n u = some t') := by
  rw [settle?] at h
  cases hpass : s.pass t with
  | none => simp [hpass] at h
  | some u =>
    refine ⟨u, passUnbounded_of_pass hpass, ?_⟩
    simp only [hpass] at h
    split at h
    · next hu => exact .inl ⟨hu, Option.some.inj h⟩
    · next hu => exact .inr ⟨hu, h⟩

theorem settleUnbounded_of_settle? {n : Nat} (h : s.settle? n t = some t') :
    s.settleUnbounded t = some t' := by
  refine follow_eq_some_iff.mpr ⟨n, ?_⟩
  induction n generalizing t with
  | zero => cases h
  | succ n ih =>
    obtain ⟨u, hpass, ⟨hu, rfl⟩ | ⟨hu, hrest⟩⟩ := settle?_succ_cases h
    · apply iterate?_of_stop
      rw [advance, hpass]
      exact if_pos hu
    · have hadvance : s.advance t = some u := by
        rw [advance, hpass]
        exact if_neg hu
      rw [iterate?_succ_of_step hadvance]
      exact ih hrest

theorem exists_passes_of_settle? {n : Nat} (h : s.settle? n t = some t') :
    ∃ k < n, (fun r => r.bind s.passUnbounded)^[k] (some t) = some t' := by
  induction n generalizing t with
  | zero => cases h
  | succ n ih =>
    obtain ⟨u, hpass, ⟨-, rfl⟩ | ⟨-, hrest⟩⟩ := settle?_succ_cases h
    · exact ⟨0, Nat.succ_pos n, rfl⟩
    · obtain ⟨k, hk, hpasses⟩ := ih hrest
      refine ⟨k + 1, Nat.succ_lt_succ hk, ?_⟩
      rw [Function.iterate_succ_apply, Option.bind_some, hpass]
      exact hpasses

/-- The tables that passes come to, each with the nodes that its pass has yet to visit. -/
inductive Moment (s : Survey) : ParentTable → List Nat → Prop
  | start : Moment s s.start s.order
  | visit {t t' : ParentTable} {v : Nat} {rest : List Nat} (h : Moment s t (v :: rest))
      (ht' : s.improveUnbounded t v = some t') : Moment s t' rest
  | again {t : ParentTable} (h : Moment s t []) : Moment s t s.order

/-- While it looks for a parent of some node, a pass asks where `p` and `c` meet: `p` is a predecessor
that is in the tree, and `c` is what the predecessors before it have in common. -/
def Asks (s : Survey) (t : ParentTable) (p c : Nat) : Prop :=
  ∃ v rest before after, s.Moment t (v :: rest) ∧
    s.predecessors.getD v [] = before ++ p :: after ∧ (t.parent? p).isSome ∧
    commonBy s.meetUnbounded t before = some (some c)

theorem Moment.exists_progress (hs : s.Faithful g) (h : s.Moment t rest) :
    ∃ visited, s.order = visited ++ rest ∧ s.Progress g t visited := by
  induction h with
  | start => exact ⟨[], rfl, progress_start hs⟩
  | @visit t t' v rest _ ht' ih =>
    obtain ⟨visited, hnext, hprogress⟩ := ih
    obtain ⟨c, hc, himprove⟩ := hprogress.exists_improve hs hnext
    obtain rfl := Option.some.inj ((improveUnbounded_of_improve himprove).symm.trans ht')
    exact ⟨visited ++ [v], by simpa using hnext, hprogress.setIfInBounds hs hnext hc⟩
  | again _ ih =>
    obtain ⟨visited, -, hprogress⟩ := ih
    exact ⟨[], rfl, { hprogress with present := by simp, aligned := by simp }⟩

theorem Asks.exists_meetUnbounded (hs : s.Faithful g) (h : s.Asks t p c) :
    ∃ m, s.meetUnbounded t p c = some m := by
  obtain ⟨v, rest, before, after, hmoment, -, hp, hcommon⟩ := h
  obtain ⟨visited, -, hprogress⟩ := hmoment.exists_progress hs
  have hc : (t.parent? c).isSome := by
    rcases exists_common? hprogress.rooted hprogress.size_eq before with ⟨hnone, -⟩ | ⟨c', hc', hnear⟩
    · rw [commonBy_of_common? hnone] at hcommon
      cases hcommon
    · rw [commonBy_of_common? hc'] at hcommon
      cases hcommon
      exact hnear.isSome
  obtain ⟨m, hm, -⟩ := exists_meet? hprogress.rooted hprogress.size_eq hp hc
  exact ⟨m, meetUnbounded_of_meet? hm⟩

end Survey

namespace Adjacency

noncomputable def dominatorsUnbounded (g : Adjacency) (root : Nat) : Option DominatorTree :=
  if root < g.length then
    ((Survey.of g root).settleUnbounded (Survey.of g root).start).map fun t => ⟨root, t⟩
  else
    some ⟨root, Array.replicate g.length none⟩

/-- The computation of dominators ends for every graph and root. All nodes that are asked to meet do
so, and after finitely many passes there is one in which no visit changes anything. -/
theorem dominator_loops_end (g : Adjacency) (root : Nat) :
    g.dominatorsUnbounded root = some (g.dominators root) ∧
      (root < g.length →
        (∀ t p c, (Survey.of g root).Asks t p c →
          ∃ m, (Survey.of g root).meetUnbounded t p c = some m) ∧
        ∃ k < (g.length + 1) * (g.length + 1), ∃ t,
          (fun r => r.bind (Survey.of g root).passUnbounded)^[k] (some (Survey.of g root).start) =
            some t ∧
          (∀ v ∈ (Survey.of g root).order, (Survey.of g root).improveUnbounded t v = some t) ∧
          t = (g.dominators root).parents) := by
  by_cases hroot : root < g.length
  · have hs := Survey.faithful_of hroot
    obtain ⟨hsettle, -, hstill⟩ := Survey.settle?_start hs
    rw [dominatorsUnbounded, dominators, if_pos hroot, if_pos hroot]
    refine ⟨?_, fun _ => ⟨fun t p c h => h.exists_meetUnbounded hs, ?_⟩⟩
    · rw [Survey.settleUnbounded_of_settle? hsettle]
      rfl
    · obtain ⟨k, hk, hpasses⟩ := Survey.exists_passes_of_settle? hsettle
      exact ⟨k, hk, _, hpasses, fun v hv => Survey.improveUnbounded_of_improve (hstill v hv), rfl⟩
  · rw [dominatorsUnbounded, dominators, if_neg hroot, if_neg hroot]
    exact ⟨rfl, fun h => absurd h hroot⟩

/-- The first pass over the tangle comes last to a node with two predecessors in the tree, so it has to
find out where these meet. -/
theorem dominator_loops_end_tangle :
    0 < tangle.length ∧
      (Survey.of tangle 0).Asks #[some 0, some 0, none, some 1, none] 1 0 ∧
      (∃ m, (Survey.of tangle 0).meetUnbounded #[some 0, some 0, none, some 1, none] 1 0 = some m) ∧
      tangle.dominatorsUnbounded 0 = some ⟨0, #[some 0, some 0, some 0, some 1, none]⟩ := by
  have hroot : 0 < tangle.length := by decide
  obtain ⟨htree, hloops⟩ := dominator_loops_end tangle 0
  have hstart : (Survey.of tangle 0).Moment #[some 0, none, none, none, none] [1, 3, 2] := by
    have horder : (Survey.of tangle 0).order = [1, 3, 2] := by decide +kernel
    exact horder ▸ .start
  have hsecond : (Survey.of tangle 0).Moment #[some 0, some 0, none, none, none] [3, 2] :=
    .visit hstart (Survey.improveUnbounded_of_improve (by decide +kernel))
  have hthird : (Survey.of tangle 0).Moment #[some 0, some 0, none, some 1, none] [2] :=
    .visit hsecond (Survey.improveUnbounded_of_improve (by decide +kernel))
  have hasks : (Survey.of tangle 0).Asks #[some 0, some 0, none, some 1, none] 1 0 :=
    ⟨2, [], [0], [2], hthird, by decide +kernel, by decide,
      Survey.commonBy_of_common? (by decide +kernel)⟩
  refine ⟨hroot, hasks, (hloops hroot).1 _ _ _ hasks, htree.trans ?_⟩
  decide +kernel

end Adjacency

end Dependence
