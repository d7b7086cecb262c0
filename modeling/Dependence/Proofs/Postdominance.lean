import Dependence.Proofs.DominatorTrees

/-! Postdominators. A walk to an exit is, turned round, a walk from the additional node of the
reversed graph, so the immediate postdominator of a node is its immediate dominator there. -/

namespace Dependence.Adjacency

variable {g : Adjacency} {e p q u v x : Nat} {nodes : List Nat}

def Exit (g : Adjacency) (e : Nat) : Prop := e < g.length ∧ ∀ v, ¬g.Edge e v

theorem mem_exits : e ∈ g.exits ↔ g.Exit e := by
  simp [exits, Exit, Edge, List.eq_nil_iff_forall_not_mem]

def Exiting (g : Adjacency) (v : Nat) : Prop := ∃ e, g.Exit e ∧ g.Reachable v e

def Postdominates (g : Adjacency) (q v : Nat) : Prop :=
  ∀ e nodes, g.Exit e → g.Walk v e nodes → q ∈ nodes

theorem length_reversed (g : Adjacency) : g.reversed.length = g.length + 1 := by
  simp [reversed]

theorem edge_reversed (hu : u < g.length) : g.reversed.Edge u v ↔ g.Edge v u := by
  have hget : g.reversed[u]? = some (g.predecessors u) := by
    rw [reversed, List.getElem?_append_left (by simpa using hu)]
    simp [hu]
  rw [edge_iff, hget, length_reversed, Option.getD_some, mem_predecessors]
  exact ⟨And.left, fun he => ⟨he, Nat.lt_succ_of_lt he.left_lt⟩⟩

theorem edge_reversed_length : g.reversed.Edge g.length v ↔ g.Exit v := by
  have hget : g.reversed[g.length]? = some g.exits := by
    rw [reversed, List.getElem?_append_right (by simp)]
    simp
  rw [edge_iff, hget, length_reversed, Option.getD_some, mem_exits]
  exact ⟨And.left, fun hv => ⟨hv, Nat.lt_succ_of_lt hv.1⟩⟩

theorem walk_of_reversed (hu : u < g.length) (h : g.reversed.Walk u v nodes) :
    g.Walk v u nodes.reverse := by
  induction h with
  | single u => exact .single u
  | @step u v w nodes he _ ih =>
    have he : g.Edge v u := (edge_reversed hu).mp he
    rw [List.reverse_cons]
    exact (ih he.left_lt).snoc he

theorem walk_reversed (hv : v < g.length) (h : g.Walk v u nodes) :
    g.reversed.Walk u v nodes.reverse := by
  induction h with
  | single u => exact .single u
  | @step v w u nodes he _ ih =>
    rw [List.reverse_cons]
    exact (ih he.right_lt).snoc ((edge_reversed he.right_lt).mpr he)

/-- Turned round, the walks to an exit are those from the additional node. -/
theorem walk_reversed_iff (hv : v < g.length) :
    g.reversed.Walk g.length v nodes ↔
      ∃ e path, g.Exit e ∧ g.Walk v e path ∧ nodes = g.length :: path.reverse := by
  constructor
  · intro h
    cases h with
    | single => exact absurd hv (lt_irrefl _)
    | @step _ e _ path he hpath =>
      have he := edge_reversed_length.mp he
      exact ⟨e, path.reverse, he, walk_of_reversed he.1 hpath, by simp⟩
  · rintro ⟨e, path, he, hpath, rfl⟩
    exact .step (edge_reversed_length.mpr he) (walk_reversed hv hpath)

theorem reachable_reversed (hv : v < g.length) :
    g.reversed.Reachable g.length v ↔ g.Exiting v := by
  constructor
  · rintro ⟨nodes, h⟩
    obtain ⟨e, path, he, hpath, -⟩ := (walk_reversed_iff hv).mp h
    exact ⟨e, he, path, hpath⟩
  · rintro ⟨e, he, path, hpath⟩
    exact ⟨_, (walk_reversed_iff hv).mpr ⟨e, path, he, hpath, rfl⟩⟩

theorem dominates_reversed (hv : v < g.length) (hq : q ≠ g.length) :
    g.reversed.Dominates g.length q v ↔ g.Postdominates q v := by
  constructor
  · intro h e path he hpath
    have hmem := h _ ((walk_reversed_iff hv).mpr ⟨e, path, he, hpath, rfl⟩)
    simpa [hq] using hmem
  · intro h nodes hnodes
    obtain ⟨e, path, he, hpath, rfl⟩ := (walk_reversed_iff hv).mp hnodes
    simpa [hq] using h e path he hpath

structure ImmediatelyPostdominates (g : Adjacency) (p v : Nat) : Prop where
  exiting : g.Exiting v
  ne : p ≠ v
  postdominates : g.Postdominates p v
  nearest : ∀ q, q ≠ v → g.Postdominates q v → g.Postdominates q p

theorem Exiting.lt (h : g.Exiting v) : v < g.length := by
  obtain ⟨e, he, nodes, hnodes⟩ := h
  cases hnodes with
  | single => exact he.1
  | step hfirst _ => exact hfirst.left_lt

theorem Postdominates.exiting (h : g.Postdominates p v) (hv : g.Exiting v) : g.Exiting p := by
  obtain ⟨e, he, nodes, hnodes⟩ := hv
  obtain ⟨path, hpath, -⟩ := hnodes.suffix (h e nodes he hnodes)
  exact ⟨e, he, path, hpath⟩

theorem Exiting.of_reachable (h : g.Reachable u v) (hv : g.Exiting v) : g.Exiting u := by
  obtain ⟨path, hpath⟩ := h
  obtain ⟨e, he, nodes, hnodes⟩ := hv
  obtain ⟨whole, hwhole, -⟩ := hpath.trans hnodes
  exact ⟨e, he, whole, hwhole⟩

theorem Postdominates.antisymm (hpq : g.Postdominates p q) (hqp : g.Postdominates q p)
    (hp : g.Exiting p) : p = q := by
  by_contra hne
  obtain ⟨e, he, nodes, hnodes⟩ := hp
  -- a walk from `p` passes `q`, and then `p` again: there is a shorter one
  induction hn : nodes.length using Nat.strong_induction_on generalizing nodes with
  | _ n ih =>
    obtain ⟨path, hpath, hsuffix⟩ := hnodes.suffix (hqp e nodes he hnodes)
    obtain ⟨again, hagain, hsuffix'⟩ := hpath.suffix (hpq e path he hpath)
    have hlt := hnodes.length_lt_of_suffix hpath (Ne.symm hne) hsuffix
    exact ih _ (hn ▸ hsuffix'.length_le.trans_lt hlt) again hagain rfl

theorem length_postdominators (g : Adjacency) : g.postdominators.length = g.length := by
  simp [postdominators]

theorem postdominators_eq_some_iff :
    g.postdominators[v]?.join = some p ↔ v < g.length ∧ p ≠ g.length ∧
      (g.reversed.dominators g.length).immediateDominator? v = some p := by
  by_cases hv : v < g.length
  · simp [postdominators, hv, Option.filter_eq_some_iff, and_comm]
  · simp [postdominators, hv]

theorem immediatelyPostdominates_of_postdominators (h : g.postdominators[v]?.join = some p) :
    g.ImmediatelyPostdominates p v := by
  obtain ⟨hv, hp, hdom⟩ := postdominators_eq_some_iff.mp h
  have hroot : g.length < g.reversed.length := by simp [length_reversed]
  obtain ⟨hreachable, hne, hdominates, hnearest⟩ := immediatelyDominates_of_dominators hroot hdom
  have hexiting : g.Exiting v := (reachable_reversed hv).mp hreachable
  have hpost : g.Postdominates p v := (dominates_reversed hv hp).mp hdominates
  have hlt : ∀ q, g.Postdominates q v → q < g.length := fun q hq => (hq.exiting hexiting).lt
  refine ⟨hexiting, hne, hpost, fun q hqv hq => ?_⟩
  have hqn : q ≠ g.length := (hlt q hq).ne
  exact (dominates_reversed (hlt p hpost) hqn).mp
    (hnearest q hqv ((dominates_reversed hv hqn).mpr hq))

theorem exists_postdominator (hv : g.Exiting v) (hne : q ≠ v) (hq : g.Postdominates q v) :
    ∃ p, g.postdominators[v]?.join = some p := by
  have hroot : g.length < g.reversed.length := by simp [length_reversed]
  obtain ⟨p, hp⟩ := exists_immediateDominator hroot ((reachable_reversed hv.lt).mpr hv) hv.lt.ne
  obtain ⟨-, -, -, hnearest⟩ := immediatelyDominates_of_dominators hroot hp
  have hqn : q ≠ g.length := (hq.exiting hv).lt.ne
  -- the additional node cannot come first, since `q` would have to come before it
  have hpn : p ≠ g.length := by
    rintro rfl
    exact hqn (hnearest q hne ((dominates_reversed hv.lt hqn).mpr hq)).eq_root
  exact ⟨p, postdominators_eq_some_iff.mpr ⟨hv.lt, hpn, hp⟩⟩

theorem ImmediatelyPostdominates.lt (h : g.ImmediatelyPostdominates p v) : p < g.length :=
  (h.postdominates.exiting h.exiting).lt

theorem ImmediatelyPostdominates.unique (hp : g.ImmediatelyPostdominates p v)
    (hq : g.ImmediatelyPostdominates q v) : p = q := by
  have hpq : g.Postdominates p q := hq.nearest p hp.ne hp.postdominates
  have hqp : g.Postdominates q p := hp.nearest q hq.ne hq.postdominates
  exact hpq.antisymm hqp (hp.postdominates.exiting hp.exiting)

theorem getElem?_postdominators_iff :
    g.postdominators[v]? = some (some p) ↔ g.ImmediatelyPostdominates p v := by
  rw [← Option.join_eq_some_iff]
  constructor
  · exact immediatelyPostdominates_of_postdominators
  · intro hp
    obtain ⟨q, hq⟩ := exists_postdominator hp.exiting hp.ne hp.postdominates
    rwa [hp.unique (immediatelyPostdominates_of_postdominators hq)]

theorem lt_of_mem_postdominators (hp : some p ∈ g.postdominators) : p < g.length := by
  obtain ⟨v, hv⟩ := List.mem_iff_getElem?.mp hp
  exact (getElem?_postdominators_iff.mp hv).lt

theorem getElem?_postdominators_eq_none_iff : g.postdominators[v]? = some none ↔
    v < g.length ∧ (¬g.Exiting v ∨ ∀ q, q ≠ v → ¬g.Postdominates q v) := by
  constructor
  · intro hnone
    have hv : v < g.length := length_postdominators g ▸ (List.getElem?_eq_some_iff.mp hnone).1
    refine ⟨hv, or_iff_not_imp_left.mpr fun hexiting q hne hq => ?_⟩
    obtain ⟨p, hp⟩ := exists_postdominator (not_not.mp hexiting) hne hq
    rw [hnone] at hp
    cases hp
  · rintro ⟨hv, hnone⟩
    rw [← length_postdominators g] at hv
    obtain ⟨entry, hentry⟩ : ∃ entry, g.postdominators[v]? = some entry :=
      ⟨_, List.getElem?_eq_getElem hv⟩
    cases entry with
    | none => exact hentry
    | some p =>
      have hp := getElem?_postdominators_iff.mp hentry
      rcases hnone with hexiting | hpost
      · exact absurd hp.exiting hexiting
      · exact absurd hp.postdominates (hpost p hp.ne)

/-- There is one entry for each node: the first node after it that no walk to an exit avoids, and
none if there is no such node or no exit can be reached. -/
theorem postdominators_find_nearest (g : Adjacency) :
    g.postdominators.length = g.length ∧
      (∀ v p, g.postdominators[v]? = some (some p) ↔
        p < g.length ∧ g.ImmediatelyPostdominates p v) ∧
      ∀ v, g.postdominators[v]? = some none ↔
        v < g.length ∧ (¬g.Exiting v ∨ ∀ q, q ≠ v → ¬g.Postdominates q v) := by
  refine ⟨length_postdominators g, fun v p => ?_, fun _ => getElem?_postdominators_eq_none_iff⟩
  rw [getElem?_postdominators_iff, iff_and_self]
  exact ImmediatelyPostdominates.lt

/-- Two nodes that never leave each other, a node with two exits behind it, and an edge to a node
that does not exist. -/
example : postdominators [[1, 3], [2], [1], [4], [5, 6, 9], [], []] =
    [some 3, none, none, some 4, none, none, none] := by
  decide +kernel

end Dependence.Adjacency
