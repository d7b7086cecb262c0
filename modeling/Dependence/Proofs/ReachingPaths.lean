import Mathlib.Data.List.Chain
import Dependence.Proofs.TransferSets

/-! A definition reaches a location if there is a way from where it is made to the location on which
the variable is not defined again. The analysis finds exactly these definitions: what it finds has a
way, because every visit only lengthens ways, and what has a way is found, because the equations
carry it along each edge. -/

namespace Dependence

namespace Graph

inductive FlowEdge (g : Graph) : Location → Location → Prop
  | enter {b : Nat} {block : Block} (hb : g.blocks[b]? = some block)
      (h : b = 0 ∨ block.prev = []) : FlowEdge g .entry (.point b 0)
  | advance {b s : Nat} {block : Block} (hb : g.blocks[b]? = some block)
      (h : s + 1 < block.locationCount) : FlowEdge g (.point b s) (.point b (s + 1))
  | jump {b c : Nat} {block : Block} (hb : g.blocks[b]? = some block) (h : c ∈ block.next) :
      FlowEdge g (.point b (block.locationCount - 1)) (.point c 0)

theorem Consistent.flowEdge_iff {g : Graph} (hg : g.Consistent) {k l : Location} :
    g.FlowEdge k l ↔ g.contains l = true ∧ k ∈ g.sources l := by
  constructor
  · intro h
    cases h with
    | @enter b block hb hstart =>
      refine ⟨contains_point.mpr ⟨block, hb, block.locationCount_pos⟩, ?_⟩
      simp [sources_first hb, hstart]
    | @advance b s block hb hs => exact ⟨contains_point.mpr ⟨block, hb, hs⟩, by simp [sources]⟩
    | @jump b c block hb hc =>
      obtain ⟨target, ht, hprev⟩ := hg.next hb hc
      refine ⟨contains_point.mpr ⟨target, ht, target.locationCount_pos⟩, ?_⟩
      rw [sources_first ht, List.mem_append]
      exact .inr (mem_filterMap_lastLocation?.mpr ⟨b, hprev, block, hb, rfl⟩)
  · rintro ⟨hl, hk⟩
    cases l with
    | entry => simp [sources] at hk
    | point b s =>
      obtain ⟨block, hb, hs⟩ := contains_point.mp hl
      cases s with
      | succ s =>
        obtain rfl : k = .point b s := by simpa [sources] using hk
        exact .advance hb hs
      | zero =>
        rw [sources_first hb, List.mem_append] at hk
        rcases hk with hk | hk
        · split at hk
          · next hstart =>
            obtain rfl := List.mem_singleton.mp hk
            exact .enter hb hstart
          · simp at hk
        · obtain ⟨p, hp, source, hsource, rfl⟩ := mem_filterMap_lastLocation?.mp hk
          obtain ⟨source', hsource', hnext⟩ := hg.prev hb hp
          obtain rfl := Option.some.inj (hsource.symm.trans hsource')
          exact .jump hsource hnext

theorem contains_of_mem_definedAt {g : Graph} {l : Location} {i : Ident} (h : i ∈ g.definedAt l) :
    g.contains l = true := by
  cases l with
  | entry => rfl
  | point b s =>
    simp only [definedAt, statement?] at h
    cases hb : g.blocks[b]? with
    | none => simp [hb] at h
    | some block =>
      cases hs : block.stmts[s]? with
      | none => simp [hb, hs] at h
      | some stmt =>
        have hlt := (List.getElem?_eq_some_iff.mp hs).1
        exact contains_point.mpr ⟨block, hb, by unfold Block.locationCount; omega⟩

def Defines (g : Graph) (l : Location) (r : Reference) : Prop := ∃ i ∈ g.definedAt l, i.pos = r.id

end Graph

namespace Definitions

variable {oracle : Oracle} {d : Definitions} {g : Graph} {r : Reference} {o : Object}
  {k l : Location}

def Assigns (d : Definitions) (g : Graph) (l : Location) (o : Object) : Prop :=
  ∃ i ∈ g.definedAt l, ∃ r, d.reference? i.pos = some r ∧ d.objectOf? r = some o

/-- There is a way to the location from one that defines the reference, of at least one edge, and no
location strictly in between gives a value to the object. -/
def Reaches (d : Definitions) (g : Graph) (r : Reference) (o : Object) (l : Location) : Prop :=
  ∃ start between, g.Defines start r ∧ (start :: between ++ [l]).IsChain g.FlowEdge ∧
    ∀ m ∈ between, ¬ d.Assigns g m o

def Leaves (d : Definitions) (g : Graph) (r : Reference) (o : Object) (l : Location) : Prop :=
  g.Defines l r ∨ (d.Reaches g r o l ∧ ¬ d.Assigns g l o)

theorem Leaves.reaches (h : d.Leaves g r o k) (hedge : g.FlowEdge k l) : d.Reaches g r o l := by
  rcases h with hdef | ⟨⟨start, between, hdef, hchain, hfree⟩, hk⟩
  · exact ⟨k, [], hdef, by simpa using hedge, by simp⟩
  · refine ⟨start, between ++ [k], hdef, ?_, fun m hm => ?_⟩
    · rw [← List.cons_append, List.append_assoc, List.singleton_append,
        List.isChain_append_cons_cons]
      exact ⟨hchain, hedge, List.isChain_singleton l⟩
    · rcases List.mem_append.mp hm with hm | hm
      · exact hfree m hm
      · exact List.mem_singleton.mp hm ▸ hk

theorem Dense.eq_of_index_eq (h : d.Dense oracle) {q : Reference} (hr : r ∈ d.references)
    (hq : q ∈ d.references) (heq : q.index = r.index) : q = r := by
  have hget := h.getElem?_index hq
  rw [heq, h.getElem?_index hr] at hget
  exact (Option.some.inj hget).symm

theorem Dense.generates_iff (h : d.Dense oracle) (hr : r ∈ d.references) :
    d.Generates (g.definedAt l) r.index ↔ g.Defines l r ∧ (d.objectOf? r).isSome := by
  constructor
  · rintro ⟨i, hi, q, o, hq, ho, heq⟩
    obtain ⟨hqmem, hid⟩ := h.reference?_eq_some_iff.mp hq
    obtain rfl := h.eq_of_index_eq hr hqmem heq
    exact ⟨⟨i, hi, hid.symm⟩, by simp [ho]⟩
  · rintro ⟨⟨i, hi, hpos⟩, hobj⟩
    obtain ⟨o, ho⟩ := Option.isSome_iff_exists.mp hobj
    exact ⟨i, hi, r, o, h.reference?_eq_some_iff.mpr ⟨hr, hpos.symm⟩, ho, rfl⟩

theorem Complete.assigns_of_kills (h : d.Complete oracle (valuePairs g oracle))
    (horacle : oracle.Positional) (hr : r ∈ d.references) (hobj : d.objectOf? r = some o)
    (hkills : d.Kills (g.definedAt l) r.index) : d.Assigns g l o := by
  obtain ⟨i, hi, r', o', hr', ho', q, hq, hredef, -, heq⟩ := hkills
  obtain rfl := h.dense.eq_of_index_eq hr hq heq
  have hr'mem := (h.dense.reference?_eq_some_iff.mp hr').1
  have hbound := h.objectOf?_of_mem_redefs horacle hq
    ((h.objectOf?_eq_some_iff hr'mem).mp ho').1 hredef
  obtain rfl := Option.some.inj (hobj.symm.trans hbound)
  exact ⟨i, hi, r', hr', ho'⟩

/-- A location that assigns to an object kills its definitions, but for those it makes itself. -/
theorem Complete.kills_of_assigns (h : d.Complete oracle (valuePairs g oracle))
    (horacle : oracle.Positional)
    (hsig : ∀ i ∈ g.signature.bindings, ∀ symbol, oracle i ≠ .usage symbol)
    (hr : r ∈ d.references) (hobj : d.objectOf? r = some o) (hdef : g.Defines k r)
    (hassigns : d.Assigns g l o) (hown : ¬ g.Defines l r) : d.Kills (g.definedAt l) r.index := by
  obtain ⟨i, hi, r', hr', ho'⟩ := hassigns
  obtain ⟨j, hj, hpos⟩ := hdef
  obtain ⟨hr'mem, hid⟩ := h.dense.reference?_eq_some_iff.mp hr'
  refine ⟨i, hi, r', o, hr', ho', r, hr,
    h.mem_redefs_of_definedAt horacle hsig hr hobj hj hpos, fun heq => ?_, rfl⟩
  exact hown ⟨i, hi, hid.symm.trans heq.symm⟩

structure Converged (oracle : Oracle) (d : Definitions) (g : Graph) (s : State BitSet g.slotCount) :
    Prop where
  consistent : g.Consistent
  positional : oracle.Positional
  bindings : ∀ i ∈ g.signature.bindings, ∀ symbol, oracle i ≠ .usage symbol
  complete : d.Complete oracle (valuePairs g oracle)
  schedule : (d.analysis g).Schedule g ((d.analysis g).start g) s
  settled : ∀ i, (d.analysis g).Settled g s i

namespace Converged

variable {s : State BitSet g.slotCount}

theorem leaves_of_mem (h : Converged oracle d g s) (i : g.Slot) {n : Nat}
    (hn : n ∈ s.outputs.get i) :
    ∃ r ∈ d.references, r.index = n ∧ ∃ o, d.objectOf? r = some o ∧
      d.Leaves g r o (g.location i) := by
  refine (Analysis.outputs_of_schedule (P := fun i y => y.Sized d.referenceCount ∧
    ∀ n ∈ y, ∃ r ∈ d.references, r.index = n ∧ ∃ o, d.objectOf? r = some o ∧
      d.Leaves g r o (g.location i)) ?_ ?_ h.schedule i).2 n hn
  · exact fun i => ⟨BitSet.sized_empty _, fun n hn => absurd hn (BitSet.notMem_empty _ _)⟩
  · intro outputs i x y houtputs hx hy
    obtain ⟨input, hinput, hsized, hread⟩ := d.inputOf_ok (fun k => (houtputs k).1) i
    obtain rfl := Except.ok.inj (hinput.symm.trans hx)
    obtain ⟨output, houtput, hosized, hflow⟩ := flow_ok h.complete.dense g (g.location i) hsized
    obtain rfl := Except.ok.inj (houtput.symm.trans hy)
    refine ⟨hosized, fun n hn => ?_⟩
    rcases (hflow n).mp hn with ⟨hin, hkept⟩ | ⟨j, hj, r, o, hr, hobj, rfl⟩
    · obtain ⟨j, hj, hjn⟩ := (hread n).mp hin
      obtain ⟨r, hr, rfl, o, hobj, hleaves⟩ := (houtputs j).2 n hjn
      have hreaches : d.Reaches g r o (g.location i) := hleaves.reaches
        (h.consistent.flowEdge_iff.mpr ⟨Graph.contains_location i, Graph.mem_sourceSlots.mp hj⟩)
      refine ⟨r, hr, rfl, o, hobj, ?_⟩
      -- What is not made here and was not killed belongs to a variable that is not assigned here.
      by_cases hown : g.Defines (g.location i) r
      · exact .inl hown
      · obtain ⟨start, between, hdef, hway⟩ := hreaches
        exact .inr ⟨⟨start, between, hdef, hway⟩, fun hassigns => hkept
          (h.complete.kills_of_assigns h.positional h.bindings hr hobj hdef hassigns hown)⟩
    · obtain ⟨hmem, hid⟩ := h.complete.dense.reference?_eq_some_iff.mp hr
      exact ⟨r, hmem, rfl, o, hobj, .inl ⟨j, hj, hid.symm⟩⟩

theorem mem_inputs_of_edge (h : Converged oracle d g s) {i : g.Slot} {n : Nat}
    (hn : n ∈ s.outputs.get i) (hedge : g.FlowEdge (g.location i) l) :
    ∃ j, g.location j = l ∧ n ∈ s.inputs.get j := by
  obtain ⟨hl, hsource⟩ := h.consistent.flowEdge_iff.mp hedge
  obtain ⟨j, rfl⟩ := Graph.exists_slot_of_contains hl
  obtain ⟨-, hread, -⟩ := mem_of_settled h.complete.dense h.schedule (h.settled j)
  exact ⟨j, rfl, (hread n).mpr ⟨i, Graph.mem_sourceSlots.mpr hsource, hn⟩⟩

theorem mem_outputs_of_not_assigns (h : Converged oracle d g s) (hr : r ∈ d.references)
    (hobj : d.objectOf? r = some o) {i : g.Slot} (hn : r.index ∈ s.inputs.get i)
    (hfree : ¬ d.Assigns g (g.location i) o) : r.index ∈ s.outputs.get i := by
  obtain ⟨-, -, hflow⟩ := mem_of_settled h.complete.dense h.schedule (h.settled i)
  exact (hflow _).mpr (.inl ⟨hn, fun hkills =>
    hfree (h.complete.assigns_of_kills h.positional hr hobj hkills)⟩)

theorem mem_outputs_of_defines (h : Converged oracle d g s) (hr : r ∈ d.references)
    (hobj : d.objectOf? r = some o) {i : g.Slot} (hdef : g.Defines (g.location i) r) :
    r.index ∈ s.outputs.get i := by
  obtain ⟨-, -, hflow⟩ := mem_of_settled h.complete.dense h.schedule (h.settled i)
  exact (hflow _).mpr (.inr ((h.complete.dense.generates_iff hr).mpr ⟨hdef, by simp [hobj]⟩))

theorem mem_inputs_of_chain (h : Converged oracle d g s) (hr : r ∈ d.references)
    (hobj : d.objectOf? r = some o) {between : List Location} {i : g.Slot}
    (hn : r.index ∈ s.outputs.get i)
    (hchain : (g.location i :: between ++ [l]).IsChain g.FlowEdge)
    (hfree : ∀ m ∈ between, ¬ d.Assigns g m o) :
    ∃ j, g.location j = l ∧ r.index ∈ s.inputs.get j := by
  induction between generalizing i with
  | nil => exact h.mem_inputs_of_edge hn (by simpa using hchain)
  | cons m between ih =>
    obtain ⟨hedge, hrest⟩ := List.isChain_cons_cons.mp hchain
    obtain ⟨j, rfl, hj⟩ := h.mem_inputs_of_edge hn hedge
    have hout := h.mem_outputs_of_not_assigns hr hobj hj (hfree _ (by simp))
    exact ih hout hrest fun m hm => hfree m (List.mem_cons_of_mem _ hm)

theorem mem_inputs_iff (h : Converged oracle d g s) (hr : r ∈ d.references) :
    (∃ i, g.location i = l ∧ r.index ∈ s.inputs.get i) ↔
      ∃ o, d.objectOf? r = some o ∧ d.Reaches g r o l := by
  constructor
  · rintro ⟨i, rfl, hn⟩
    obtain ⟨-, hread, -⟩ := mem_of_settled h.complete.dense h.schedule (h.settled i)
    obtain ⟨j, hj, hn⟩ := (hread _).mp hn
    obtain ⟨q, hq, heq, o, hobj, hleaves⟩ := h.leaves_of_mem j hn
    obtain rfl := h.complete.dense.eq_of_index_eq hr hq heq
    exact ⟨o, hobj, hleaves.reaches (h.consistent.flowEdge_iff.mpr
      ⟨Graph.contains_location i, Graph.mem_sourceSlots.mp hj⟩)⟩
  · rintro ⟨o, hobj, start, between, hdef, hchain, hfree⟩
    obtain ⟨i, hi, _⟩ := id hdef
    obtain ⟨i, rfl⟩ := Graph.exists_slot_of_contains (Graph.contains_of_mem_definedAt hi)
    exact h.mem_inputs_of_chain hr hobj (h.mem_outputs_of_defines hr hobj hdef) hchain hfree

theorem mem_outputs_iff (h : Converged oracle d g s) (hr : r ∈ d.references) :
    (∃ i, g.location i = l ∧ r.index ∈ s.outputs.get i) ↔
      ∃ o, d.objectOf? r = some o ∧ (g.Defines l r ∨
        ((∃ i, g.location i = l ∧ r.index ∈ s.inputs.get i) ∧ ¬ d.Assigns g l o)) := by
  constructor
  · rintro ⟨i, rfl, hn⟩
    obtain ⟨q, hq, heq, o, hobj, hleaves⟩ := h.leaves_of_mem i hn
    obtain rfl := h.complete.dense.eq_of_index_eq hr hq heq
    refine ⟨o, hobj, hleaves.imp_right fun ⟨hreaches, hfree⟩ => ⟨?_, hfree⟩⟩
    exact (h.mem_inputs_iff hr).mpr ⟨o, hobj, hreaches⟩
  · rintro ⟨o, hobj, hdef | ⟨⟨i, rfl, hn⟩, hfree⟩⟩
    · obtain ⟨i, hi, _⟩ := id hdef
      obtain ⟨i, rfl⟩ := Graph.exists_slot_of_contains (Graph.contains_of_mem_definedAt hi)
      exact ⟨i, rfl, h.mem_outputs_of_defines hr hobj hdef⟩
    · exact ⟨i, rfl, h.mem_outputs_of_not_assigns hr hobj hn hfree⟩

end Converged

end Definitions

namespace Reaching

variable {oracle : Oracle} {g : Graph} {r : Reference}

theorem solve_ok {d : Definitions} {config : Config} {result : Reaching g}
    (h : solve g d config = .ok result) :
    ∃ s, (d.analysis g).Schedule g ((d.analysis g).start g) s ∧ s.pending = [] ∧
      result = ⟨d, s.solution⟩ := by
  obtain ⟨sol, hsol, h⟩ := bind_eq_ok.mp h
  obtain ⟨s, hs, hempty, rfl⟩ := Analysis.schedule_of_solve hsol
  exact ⟨s, hs, hempty, (Except.ok.inj h).symm⟩

theorem mem_decode (result : Reaching g) (h : result.definitions.Dense oracle)
    {states : Vector BitSet g.slotCount} (hvalid : ∀ i : g.Slot, (states.get i).Valid) {l : Location} :
    r ∈ result.decode ((g.slotOf? l).map states.get) ↔
      r ∈ result.definitions.references ∧ ∃ i, g.location i = l ∧ r.index ∈ states.get i := by
  unfold decode
  cases hl : g.slotOf? l with
  | none =>
    have hno : ∀ i, g.location i ≠ l := fun i hi => by
      simp [Graph.slotOf?_eq_some_iff.mpr hi] at hl
    simp [hno]
  | some i =>
    obtain rfl := Graph.slotOf?_eq_some_iff.mp hl
    simp only [Option.map_some, Option.elim_some, List.mem_filterMap, (hvalid i).mem_toList]
    constructor
    · rintro ⟨n, hn, hr⟩
      exact ⟨List.mem_of_getElem? hr, i, rfl, h.index hr ▸ hn⟩
    · rintro ⟨hr, j, hj, hn⟩
      obtain rfl := Graph.location_injective hj
      exact ⟨r.index, hn, h.getElem?_index hr⟩

end Reaching

/-- The references found before a location are those with a way to it that is free of other
definitions, and those found after it are made there or were there and are not overwritten. -/
theorem reaching_iff_path {g : Graph} {oracle : Oracle} {config : Config} {result : Reaching g}
    (hg : g.Accepted) (horacle : oracle.Positional)
    (hsig : ∀ i ∈ g.signature.bindings,
      (∃ symbol, oracle i = .definition symbol) ∨ oracle i = .unresolved)
    (h : Reaching.solve g (.find g oracle) config = .ok result) (l : Location) (r : Reference) :
    (r ∈ result.incoming l ↔ r ∈ (Definitions.find g oracle).references ∧
      ∃ o, (Definitions.find g oracle).objectOf? r = some o ∧
        (Definitions.find g oracle).Reaches g r o l) ∧
    (r ∈ result.outgoing l ↔ r ∈ (Definitions.find g oracle).references ∧
      ∃ o, (Definitions.find g oracle).objectOf? r = some o ∧
        (g.Defines l r ∨
          (r ∈ result.incoming l ∧ ¬ (Definitions.find g oracle).Assigns g l o))) := by
  have hd := Definitions.complete_find g horacle
  have hbindings : ∀ i ∈ g.signature.bindings, ∀ symbol, oracle i ≠ .usage symbol := by
    intro i hi symbol hu
    rcases hsig i hi with ⟨_, hdef⟩ | hun
    · simp [hu] at hdef
    · simp [hu] at hun
  generalize Definitions.find g oracle = d at hd h ⊢
  obtain ⟨s, hs, hempty, rfl⟩ := Reaching.solve_ok h
  have hconv : d.Converged oracle g s := ⟨hg.consistent, horacle, hbindings, hd, hs,
    fun i => Analysis.settled_of_schedule hg.consistent hs i (by simp [hempty])⟩
  have hin : r ∈ Reaching.incoming ⟨d, s.solution⟩ l ↔
      r ∈ d.references ∧ ∃ i, g.location i = l ∧ r.index ∈ s.inputs.get i :=
    Reaching.mem_decode ⟨d, s.solution⟩ hd.dense fun i =>
      (Definitions.mem_of_settled hd.dense hs (hconv.settled i)).1.1
  have hout : r ∈ Reaching.outgoing ⟨d, s.solution⟩ l ↔
      r ∈ d.references ∧ ∃ i, g.location i = l ∧ r.index ∈ s.outputs.get i :=
    Reaching.mem_decode ⟨d, s.solution⟩ hd.dense fun i =>
      (Definitions.outputs_sized hd.dense hs i).1
  refine ⟨hin.trans (and_congr_right fun hr => hconv.mem_inputs_iff hr),
    hout.trans (and_congr_right fun hr => (hconv.mem_outputs_iff hr).trans ?_)⟩
  simp only [hin, hr, true_and]

def Graph.countdown : Graph :=
  ⟨"countdown", ⟨[], [⟨"n", 1⟩], []⟩,
    [⟨[], [1], [1, 2]⟩, ⟨[.incDec ⟨"n", 2⟩], [0], [0]⟩, ⟨[.other [⟨"n", 3⟩]], [0], []⟩]⟩

def Oracle.countdown : Oracle := fun i =>
  if i.pos = 1 then .definition ⟨"n", 1⟩ else .usage ⟨"n", 1⟩

/-- Both values of the parameter reach the end of the loop, and only the second one leaves the
statement that makes it. -/
theorem reaching_iff_path_countdown :
    Graph.countdown.Accepted ∧ Oracle.countdown.Positional ∧
      ∃ result,
        Reaching.solve .countdown (.find .countdown Oracle.countdown) .default = .ok result ∧
        (result.incoming (.point 2 0)).map (·.id) = [1, 2] ∧
        (result.outgoing (.point 1 0)).map (·.id) = [2] ∧
        ∀ r ∈ result.incoming (.point 2 0), ∃ o,
          (Definitions.find .countdown Oracle.countdown).Reaches .countdown r o (.point 2 0) := by
  have hg : Graph.countdown.Accepted := .body
    (show Graph.ofBlocks Graph.countdown.name Graph.countdown.signature Graph.countdown.blocks =
      .ok .countdown from rfl)
  have horacle : Oracle.countdown.Positional := fun i j h => by simp [Oracle.countdown, h]
  have hfound : ((Reaching.solve .countdown (.find .countdown Oracle.countdown) .default).toOption.map
      fun result => ((result.incoming (.point 2 0)).map (·.id),
        (result.outgoing (.point 1 0)).map (·.id))) = some ([1, 2], [2]) := by decide +kernel
  cases hsolve : Reaching.solve .countdown (.find .countdown Oracle.countdown) .default with
  | error e => simp [hsolve, Except.toOption] at hfound
  | ok result =>
    simp only [hsolve, Except.toOption, Option.map_some, Option.some.injEq, Prod.mk.injEq] at hfound
    refine ⟨hg, horacle, result, rfl, hfound.1, hfound.2, fun r hr => ?_⟩
    obtain ⟨-, o, -, hreaches⟩ := (reaching_iff_path hg horacle
      (fun i hi => .inl ⟨⟨"n", 1⟩, by simp_all [Graph.countdown, Signature.bindings, Oracle.countdown]⟩)
      hsolve (.point 2 0) r).1.mp hr
    exact ⟨o, hreaches⟩

end Dependence
