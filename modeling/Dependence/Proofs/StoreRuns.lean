import Dependence.Proofs.Absorption
import Dependence.Proofs.MergeAlgebra

/-! Whole runs of operations on a store. Whatever is asked of a store, it either adds aggregates that
fit their layouts or stays as it is. So at any time each aggregate in it fits its layout and stands
under its own name, sets that are united have one capacity, and what is stored only grows. -/

namespace Dependence

/-- A call that was begun on a layout and has seen some events. Events that it refuses leave it as it
is. -/
def Call.Made (c : Call) : Prop :=
  ∃ l : Layout, l.Accepted ∧ ∃ position events, Call.ofEvents l position events = .ok c

theorem Call.Made.sized {c : Call} (h : c.Made) : c.Sized := by
  obtain ⟨l, -, position, events, hevents⟩ := h
  exact (Call.ofEvents_sized hevents).1

theorem Call.Made.checked {c : Call} (h : c.Made) : c.layout.Checked := by
  obtain ⟨l, hl, position, events, hevents⟩ := h
  rw [(Call.ofEvents_sized hevents).2]
  exact hl.checked

namespace Aggregate

variable {a b c : Aggregate} {call : Call} {r : Record} {parts : List Aggregate}

inductive Made : Aggregate → Prop
  | basic {a : Aggregate} (h : a.Basic) : Made a
  | update {a b : Aggregate} {call : Call} (ha : Made a) (hcall : call.Made)
      (h : a.update call = .ok b) : Made b
  | merge {a b c : Aggregate} (ha : Made a) (hb : Made b) (h : a.merge b = .ok c) : Made c

structure Consistent (a : Aggregate) : Prop where
  successors_lt : ∀ succs ∈ a.layout.successors, ∀ s ∈ succs, s < a.layout.nodeCount
  postdominators_length : a.layout.postdominators.length = a.layout.nodeCount
  postdominators_lt : ∀ p, some p ∈ a.layout.postdominators → p < a.layout.nodeCount
  preds_length : a.preds.length = a.layout.nodeCount
  preds_sized : ∀ set ∈ a.preds, set.Valid ∧ set.capacity = a.layout.nodeCount

theorem consistent_iff : a.Consistent ↔ a.Sized ∧ a.layout.Checked := by
  rw [Layout.checked_iff]
  constructor
  · intro h
    exact ⟨⟨h.preds_length, h.preds_sized⟩, h.postdominators_length, h.successors_lt,
      h.postdominators_lt⟩
  · rintro ⟨hsized, hlength, hsuccs, hpost⟩
    exact ⟨hsuccs, hlength, hpost, hsized.length, hsized.sized⟩

theorem Holds.consistent_iff (h : a.Holds r) : a.Consistent ↔ r.layout.Checked := by
  rw [Aggregate.consistent_iff, and_iff_right h.sized, h.layout]

theorem Basic.consistent (h : a.Basic) : a.Consistent := by
  cases h with
  | new hl => exact consistent_iff.mpr ⟨sized_new _, hl.checked⟩
  | read hr =>
    apply (Holds.of_ofRecord hr).consistent_iff.mpr
    exact (Record.wellFormed_iff.mp (wellFormed_of_ofRecord hr)).1

theorem consistent_ofCall (h : call.Made) : (ofCall call).Consistent :=
  consistent_iff.mpr ⟨sized_ofCall h.sized, h.checked⟩

theorem Consistent.merge (ha : a.Consistent) (hb : b.Consistent) (h : a.merge b = .ok c) :
    c.Consistent := by
  rw [consistent_iff] at ha hb ⊢
  have hsum := ((merge_eq_ok_iff ha.1 hb.1).mp h).2
  have hlayout : a.layout = c.layout := Option.some.inj hsum.layout
  exact ⟨hsum.sized, hlayout ▸ ha.2⟩

theorem Made.consistent (h : a.Made) : a.Consistent := by
  induction h with
  | basic h => exact h.consistent
  | update _ hcall h ih => exact ih.merge (consistent_ofCall hcall) h
  | merge _ _ h iha ihb => exact iha.merge ihb h

structure GrowsTo (a b : Aggregate) : Prop where
  layout : b.layout = a.layout
  calls : a.calls ≤ b.calls
  dependsOn : ∀ x y, a.DependsOn x y → b.DependsOn x y

theorem IsSum.growsTo (h : b.IsSum (a :: parts)) : a.GrowsTo b where
  layout := (Option.some.inj h.layout).symm
  calls := by
    rw [h.calls]
    exact Nat.le_add_right a.calls (total parts)
  dependsOn x y hxy := (h.dependsOn x y).mpr ⟨a, List.mem_cons_self, hxy⟩

end Aggregate

inductive Operation where
  | getOrCreate (layout : Layout)
  | fold (call : Call)
  | merge (aggregate : Aggregate)
  | absorb (profile : Profile)

/-- A profile may hold any records, well formed or not. -/
def Operation.Made : Operation → Prop
  | getOrCreate layout => layout.Accepted
  | fold call => call.Made
  | merge aggregate => aggregate.Made
  | absorb _ => True

namespace Store

variable {s s' : Store} {a : Aggregate} {parts : List Aggregate} {op : Operation}
  {ops : List Operation} {e : Error}

def perform (s : Store) : Operation → Store × Except Error Unit
  | .getOrCreate layout => ((s.getOrCreate layout).1, .ok ())
  | .fold call => s.fold call
  | .merge aggregate => s.merge aggregate
  | .absorb profile => s.absorb profile

def run (s : Store) (ops : List Operation) : Store := ops.foldl (fun s op => (s.perform op).1) s

structure Consistent (s : Store) : Prop where
  named : ∀ name a, s.get? name = some a → a.layout.name = name
  consistent : ∀ name a, s.get? name = some a → a.Consistent

def GrowsTo (s s' : Store) : Prop :=
  ∀ name a, s.get? name = some a → ∃ b, s'.get? name = some b ∧ a.GrowsTo b

theorem Consistent.sized (h : s.Consistent) : s.Sized where
  named := h.named
  sized name a ha := (Aggregate.consistent_iff.mp (h.consistent name a ha)).1

theorem Adds.growsTo (h : s.Adds s' parts) : s.GrowsTo s' := by
  intro name a ha
  have hsum := h name
  rw [ha] at hsum
  cases hget : s'.get? name with
  | none =>
    rw [hget] at hsum
    cases hsum
  | some b =>
    rw [hget] at hsum
    exact ⟨b, rfl, hsum.growsTo⟩

theorem Adds.consistent (h : s.Adds s' parts) (hs : s.Consistent)
    (hparts : ∀ p ∈ parts, p.Consistent) : s'.Consistent := by
  have hsized : s'.Sized := h.sized hs.sized
  refine ⟨hsized.named, fun name a ha => Aggregate.consistent_iff.mpr ⟨hsized.sized name a ha, ?_⟩⟩
  -- the layout of a sum is that of one of its parts
  have hsum := h name
  rw [ha] at hsum
  obtain ⟨p, hp, hlayout⟩ := hsum.exists_layout
  have hconsistent : p.Consistent := by
    rcases List.mem_append.mp hp with hp | hp
    · exact hs.consistent name p (Option.mem_toList.mp hp)
    · exact hparts p (List.mem_filter.mp hp).1
  rw [← hlayout]
  exact (Aggregate.consistent_iff.mp hconsistent).2

theorem isFault_of_verdict (h : s.verdict a = .error e) : e.isFault = false := by
  unfold verdict at h
  split at h
  · cases h
  · exact Aggregate.isFault_of_checkMergeable h

def Effect (s : Store) (outcome : Store × Except Error Unit) : Prop :=
  (∃ s' parts, outcome = (s', .ok ()) ∧ s.Adds s' parts ∧ ∀ p ∈ parts, Aggregate.Consistent p) ∨
    ∃ e, outcome = (s, .error e) ∧ e.isFault = false

theorem effect_merge (hs : s.Consistent) (ha : a.Consistent) : s.Effect (s.merge a) := by
  cases hverdict : s.verdict a with
  | error e => exact .inr ⟨e, merge_of_error hverdict, isFault_of_verdict hverdict⟩
  | ok =>
    have hsized := (Aggregate.consistent_iff.mp ha).1
    obtain ⟨s', hmerge, hadds⟩ := merge_of_ok hs.sized hsized hverdict
    exact .inl ⟨s', [a], hmerge, hadds, by simpa using ha⟩

theorem effect_getOrCreate (hs : s.Consistent) {l : Layout} (hl : l.Accepted) :
    s.Effect ((s.getOrCreate l).1, .ok ()) := by
  unfold getOrCreate
  cases hget : s.get? l.name with
  | some a => exact .inl ⟨s, [], rfl, hs.sized.adds_nil, by simp⟩
  | none =>
    have hnew : (Aggregate.new l).Consistent := Aggregate.Basic.consistent (.new hl)
    have hsum : (Aggregate.new l).IsSum ((s.get? l.name).toList ++ [.new l]) := by
      rw [hget]
      exact (Aggregate.sized_new l).isSum
    exact .inl ⟨_, [.new l], rfl, adds_insert hs.sized rfl hsum, by simpa using hnew⟩

theorem effect_absorb (hs : s.Consistent) (p : Profile) : s.Effect (s.absorb p) := by
  rcases absorb_cases hs.sized p with ⟨hadmits, s', aggregates, habsorb, hholds, hadds⟩ | ⟨-, hrefused⟩
  · have hconsistent : ∀ a ∈ aggregates, a.Consistent := by
      apply (forall_mem_iff_of_forall₂ hholds fun _ _ h => h.consistent_iff).mpr
      intro r hr
      exact (Record.wellFormed_iff.mp (hadmits.wellFormed r hr)).1
    exact .inl ⟨s', aggregates, habsorb, hadds, hconsistent⟩
  · exact .inr hrefused

theorem effect_perform (hs : s.Consistent) (hop : op.Made) : s.Effect (s.perform op) := by
  cases op with
  | getOrCreate l => exact effect_getOrCreate hs hop
  | fold call =>
    -- a call is added as an aggregate of its own
    have hcall : call.Made := hop
    rw [perform, fold_eq_merge hcall.sized]
    exact effect_merge hs (Aggregate.consistent_ofCall hcall)
  | merge a => exact effect_merge hs hop.consistent
  | absorb p => exact effect_absorb hs p

section Effects

variable {outcome : Store × Except Error Unit}

theorem Effect.exists_adds (h : s.Effect outcome) (hs : s.Consistent) :
    ∃ parts, s.Adds outcome.1 parts ∧ ∀ p ∈ parts, Aggregate.Consistent p := by
  rcases h with ⟨s', parts, rfl, hadds, hparts⟩ | ⟨e, rfl, -⟩
  · exact ⟨parts, hadds, hparts⟩
  · exact ⟨[], hs.sized.adds_nil, by simp⟩

theorem Effect.isFault (h : s.Effect outcome) (he : outcome.2 = .error e) : e.isFault = false := by
  rcases h with ⟨s', parts, rfl, -⟩ | ⟨e', rfl, hfault⟩
  · cases he
  · exact Except.error.inj he ▸ hfault

end Effects

theorem consistent_empty : empty.Consistent := ⟨by simp, by simp⟩

theorem consistent_perform (hs : s.Consistent) (hop : op.Made) : (s.perform op).1.Consistent := by
  obtain ⟨parts, hadds, hparts⟩ := (effect_perform hs hop).exists_adds hs
  exact hadds.consistent hs hparts

theorem consistent_run (hs : s.Consistent) (hops : ∀ o ∈ ops, o.Made) : (s.run ops).Consistent := by
  induction ops generalizing s with
  | nil => exact hs
  | cons op ops ih =>
    obtain ⟨hop, hrest⟩ := List.forall_mem_cons.mp hops
    exact ih (consistent_perform hs hop) hrest

/-- After any operations, of which some may have failed, each aggregate stands under its own name and
fits its layout. No operation meets sets of different capacity, and none loses an aggregate, changes
the layout of one or takes calls or dependences from it. -/
theorem runs_only_add (hops : ∀ o ∈ ops, o.Made) (hop : op.Made) :
    (empty.run ops).Consistent ∧
      (∀ e, ((empty.run ops).perform op).2 = .error e → e.isFault = false) ∧
      (empty.run ops).GrowsTo ((empty.run ops).perform op).1 := by
  have hs := consistent_run consistent_empty hops
  have heffect := effect_perform hs hop
  obtain ⟨parts, hadds, -⟩ := heffect.exists_adds hs
  exact ⟨hs, fun e he => heffect.isFault he, hadds.growsTo⟩

/-- A profile of the function at another address is refused; an aggregate with other edges is added
without them. -/
theorem runs_only_add_detour :
    let relinked : Profile := ⟨[{ Aggregate.row with entry := 17 }]⟩
    ∃ a b : Aggregate,
      Aggregate.ofRecord Aggregate.detour = .ok a ∧ Aggregate.ofRecord Aggregate.row = .ok b ∧
      ((empty.run [.merge a]).perform (.absorb relinked)).2 =
        .error (.identityMismatch ⟨"f", 16⟩ ⟨"f", 17⟩) ∧
      a.layout ≠ b.layout ∧
      (empty.run [.merge a, .absorb relinked]).Consistent ∧
      ∃ c, ((empty.run [.merge a, .absorb relinked]).merge b).1.get? "f" = some c ∧
        a.GrowsTo c := by
  intro relinked
  obtain ⟨a, b, ha, hb, hrefused, hget, hlayouts⟩ : ∃ a b : Aggregate,
      Aggregate.ofRecord Aggregate.detour = .ok a ∧ Aggregate.ofRecord Aggregate.row = .ok b ∧
        ((empty.run [.merge a]).perform (.absorb relinked)).2 =
          .error (.identityMismatch ⟨"f", 16⟩ ⟨"f", 17⟩) ∧
        (empty.run [.merge a, .absorb relinked]).get? "f" = some a ∧ a.layout ≠ b.layout :=
    ⟨_, _, rfl, rfl, by decide +kernel, by decide +kernel, by decide⟩
  have hops : ∀ o ∈ [Operation.merge a, .absorb relinked], o.Made := by
    simp only [List.forall_mem_cons]
    exact ⟨.basic (.read ha), trivial, by simp⟩
  have hop : (Operation.merge b).Made := .basic (.read hb)
  obtain ⟨hconsistent, -, hgrows⟩ := runs_only_add hops hop
  exact ⟨a, b, ha, hb, hrefused, hlayouts, hconsistent, hgrows "f" a hget⟩

end Store

end Dependence
