import Dependence.Proofs.StoreRuns

/-! The stores that can come about. Besides the operations on a store as a whole, an aggregate in it can
be held and added to directly; either way all aggregates stay consistent and under their names. Such a
store takes a profile as a whole or not at all: what is checked before the first record is added is enough
for all of them, though the store has changed by the time the later ones are added. -/

namespace Dependence

inductive Aggregate.Revised (a b : Aggregate) : Prop
  | update {call : Call} (hcall : call.Made) (h : a.update call = .ok b) : Revised a b
  | merge {other : Aggregate} (hother : other.Made) (h : a.merge other = .ok b) : Revised a b

theorem Aggregate.Revised.consistent {a b : Aggregate} (h : a.Revised b) (ha : a.Consistent) :
    b.Consistent ∧ b.layout = a.layout := by
  have hmerge : ∀ other : Aggregate, other.Consistent → a.merge other = .ok b →
      b.Consistent ∧ b.layout = a.layout := by
    intro other hother hb
    have hsum := ((merge_eq_ok_iff (consistent_iff.mp ha).1 (consistent_iff.mp hother).1).mp hb).2
    exact ⟨ha.merge hother hb, (Option.some.inj hsum.layout).symm⟩
  cases h with
  | update hcall h => exact hmerge _ (consistent_ofCall hcall) h
  | merge hother h => exact hmerge _ hother.consistent h

namespace Store

variable {s s' : Store} {p : Profile} {aggregates : List Aggregate} {a : Aggregate} {l : Layout}

def replace (s : Store) (name : String) (a : Aggregate) : Store := ⟨s.aggregates.insert name a⟩

theorem get?_replace (s : Store) (name name' : String) (a : Aggregate) :
    (s.replace name a).get? name' = if name = name' then some a else s.get? name' := by
  simp only [get?, replace, Std.ExtTreeMap.getElem?_insert, Std.compare_eq_iff_eq]

inductive Step (s : Store) : Store → Prop
  | perform {op : Operation} (hop : op.Made) : Step s (s.perform op).1
  | hold {l : Layout} {a : Aggregate} (hl : l.Accepted) (h : (s.getOrCreate l).2.Revised a) :
      Step s ((s.getOrCreate l).1.replace l.name a)

inductive Built : Store → Prop
  | empty : Built empty
  | step {s s' : Store} (hs : Built s) (h : s.Step s') : Built s'

theorem get?_getOrCreate (s : Store) (l : Layout) :
    (s.getOrCreate l).1.get? l.name = some (s.getOrCreate l).2 := by
  unfold getOrCreate
  cases hget : s.get? l.name with
  | some a => exact hget
  | none => exact (get?_insert s _ _).trans (if_pos rfl)

theorem Consistent.replace (hs : s.Consistent) {name : String} (ha : a.Consistent)
    (hname : a.layout.name = name) : (s.replace name a).Consistent := by
  constructor <;> intro name' b hb <;> rw [get?_replace] at hb <;> split at hb
  · next heq => exact Option.some.inj hb ▸ hname.trans heq
  · exact hs.named name' b hb
  · exact Option.some.inj hb ▸ ha
  · exact hs.consistent name' b hb

theorem Step.consistent (h : s.Step s') (hs : s.Consistent) : s'.Consistent := by
  cases h with
  | perform hop => exact consistent_perform hs hop
  | @hold l a hl h =>
    have hop : (Operation.getOrCreate l).Made := hl
    have hcreate : (s.getOrCreate l).1.Consistent := consistent_perform hs hop
    have hget := s.get?_getOrCreate l
    obtain ⟨ha, hlayout⟩ := h.consistent (hcreate.consistent _ _ hget)
    apply hcreate.replace ha
    rw [hlayout]
    exact hcreate.named _ _ hget

theorem Built.consistent (h : s.Built) : s.Consistent := by
  induction h with
  | empty => exact consistent_empty
  | step _ h ih => exact h.consistent ih

theorem merge_after_mergeAll (hs : s.Sized) {first : List Aggregate}
    (hsized : ∀ b ∈ first ++ [a], b.Sized) (hverdict : ∀ b ∈ first ++ [a], s.verdict b = .ok ())
    (hcompatible : ∀ b ∈ first ++ [a], ∀ c ∈ first ++ [a], Compatible b c) :
    ∃ s', s.mergeAll first = (s', .ok ()) ∧ (s'.merge a).2 = .ok () := by
  have hfirst : ∀ b ∈ first, b ∈ first ++ [a] := fun b => List.mem_append_left [a]
  have ha : a ∈ first ++ [a] := List.mem_concat_self
  obtain ⟨s', hmerge, hadds⟩ := mergeAll_of_ok hs (fun b hb => hsized b (hfirst b hb))
    (fun b hb => hverdict b (hfirst b hb))
    fun b hb c hc => hcompatible b (hfirst b hb) c (hfirst c hc)
  -- what was added since has changed nothing about this one
  have hnow : s'.verdict a = .ok () := by
    rw [hadds.verdict_eq hs (hsized a ha) fun b hb => hcompatible b (hfirst b hb) a ha]
    exact hverdict a ha
  obtain ⟨s'', hlast, -⟩ := merge_of_ok (hadds.sized hs) (hsized a ha) hnow
  exact ⟨s', hmerge, by rw [hlast]⟩

/-- A profile is taken just if each record is well formed and those of one name, among themselves and with
what is stored under it, are of one function. Then the store holds in addition what the records say. If the
profile is refused, then with the store as it was; and once the records are read and checked, each of them is
added when its turn comes. -/
theorem absorbs_all_or_nothing (hs : s.Built) (p : Profile) :
    ((s.absorb p).2 = .ok () ↔
      (∀ r ∈ p.records, r.WellFormed) ∧ (∀ r ∈ p.records, ∀ r' ∈ p.records, r.Agrees r') ∧
        ∀ r ∈ p.records, ∀ a, s.get? r.name = some a →
          a.layout.id.entry = r.entry ∧ a.layout.nodeCount = r.nodeCount) ∧
    ((s.absorb p).2 = .ok () → ∃ aggregates, List.Forall₂ Aggregate.Holds aggregates p.records ∧
      s.Adds (s.absorb p).1 aggregates) ∧
    (∀ e, (s.absorb p).2 = .error e → (s.absorb p).1 = s ∧ e.isFault = false) ∧
    ∀ aggregates, p.records.mapM Aggregate.ofRecord = .ok aggregates →
      s.checkAll [] aggregates = .ok () →
        (s.absorb p).2 = .ok () ∧ ∀ first a later, aggregates = first ++ a :: later →
          ∃ s', s.mergeAll first = (s', .ok ()) ∧ (s'.merge a).2 = .ok () := by
  have hsized := hs.consistent.sized
  have hadmits : s.Admits p.records ↔ (∀ r ∈ p.records, r.WellFormed) ∧
      (∀ r ∈ p.records, ∀ r' ∈ p.records, r.Agrees r') ∧ ∀ r ∈ p.records, ∀ a,
        s.get? r.name = some a → a.layout.id.entry = r.entry ∧ a.layout.nodeCount = r.nodeCount :=
    ⟨fun h => ⟨h.wellFormed, h.agree, h.stored⟩, fun ⟨hformed, hagree, hstored⟩ =>
      ⟨hformed, hstored, hagree⟩⟩
  rw [← hadmits]
  refine ⟨?_, fun hok => ?_, fun e he => ?_, fun aggregates hread hcheck => ?_⟩
  · rcases absorb_cases hsized p with ⟨h, s', aggregates, heq, -⟩ | ⟨h, e, heq, -⟩ <;> simp [heq, h]
  · rcases absorb_cases hsized p with ⟨-, s', aggregates, heq, hholds, hadds⟩ | ⟨-, e, heq, -⟩
    · exact ⟨aggregates, hholds, by rwa [heq]⟩
    · simp [heq] at hok
  · rcases absorb_cases hsized p with ⟨-, s', aggregates, heq, -⟩ | ⟨-, e', heq, hfault⟩
    · simp [heq] at he
    · rw [heq] at he ⊢
      exact ⟨rfl, Except.error.inj he ▸ hfault⟩
  · have hholds : List.Forall₂ Aggregate.Holds aggregates p.records :=
      ((mapM_eq_ok_iff.mp hread).imp fun _ _ => Aggregate.Holds.of_ofRecord).flip
    have hall : ∀ a ∈ aggregates, a.Sized := forall_mem_of_forall₂ hholds fun _ _ h => h.sized
    obtain ⟨hverdict, hcompatible⟩ := (checkAll_eq_ok_iff hall).mp hcheck
    constructor
    · obtain ⟨s', hmerge, -⟩ := mergeAll_of_ok hsized hall hverdict hcompatible
      simp only [absorb, hread, hcheck, hmerge]
    · rintro first a later rfl
      have hmem : ∀ b ∈ first ++ [a], b ∈ first ++ a :: later := by
        intro b hb
        rw [List.append_cons]
        exact List.mem_append_left later hb
      exact merge_after_mergeAll hsized (fun b hb => hall b (hmem b hb))
        (fun b hb => hverdict b (hmem b hb))
        fun b hb c hc => hcompatible b (hmem b hb) c (hmem c hc)

/-- Two records that agree with what is stored are added to it; if the second one is of the function at
another address, then not even the first one is. -/
theorem absorbs_all_or_nothing_detour :
    let relinked : Profile := ⟨[Aggregate.row, { Aggregate.row with entry := 17 }]⟩
    ∃ a : Aggregate, Aggregate.ofRecord Aggregate.detour = .ok a ∧
      ((empty.merge a).1.absorb ⟨[Aggregate.row, Aggregate.detour]⟩).2 = .ok () ∧
      ((((empty.merge a).1.absorb ⟨[Aggregate.row, Aggregate.detour]⟩).1.get? "f").map fun b =>
        (b.calls, b.toRecord.preds)) = some (5, [[], [0], []]) ∧
      ((empty.merge a).1.absorb relinked).2 ≠ .ok () ∧
      ((empty.merge a).1.absorb relinked).1 = (empty.merge a).1 := by
  intro relinked
  obtain ⟨a, ha, hget, hsum⟩ : ∃ a : Aggregate, Aggregate.ofRecord Aggregate.detour = .ok a ∧
      (empty.merge a).1.get? "f" = some a ∧
      ((((empty.merge a).1.absorb ⟨[Aggregate.row, Aggregate.detour]⟩).1.get? "f").map fun b =>
        (b.calls, b.toRecord.preds)) = some (5, [[], [0], []]) :=
    ⟨_, rfl, by decide +kernel, by decide +kernel⟩
  have hop : (Operation.merge a).Made := .basic (.read ha)
  have hbuilt : (empty.merge a).1.Built := .step .empty (.perform hop)
  have hlayout : a.layout = Aggregate.detour.layout := (Aggregate.Holds.of_ofRecord ha).layout
  have hrow : Aggregate.row.WellFormed := Aggregate.wellFormed_of_ofRecord rfl
  have hstored : ∀ b, (empty.merge a).1.get? "f" = some b →
      b.layout.id.entry = 16 ∧ b.layout.nodeCount = 3 := by
    intro b hb
    obtain rfl := Option.some.inj (hget.symm.trans hb)
    rw [hlayout]
    exact ⟨rfl, rfl⟩
  obtain ⟨hiff, -, hrefused, -⟩ := absorbs_all_or_nothing hbuilt relinked
  have hrefuses : ((empty.merge a).1.absorb relinked).2 ≠ .ok () := by
    intro hok
    have hagree := (hiff.mp hok).2.1 _ List.mem_cons_self _ (List.mem_cons_of_mem _ List.mem_cons_self)
    exact absurd (hagree rfl).1 (by decide)
  refine ⟨a, ha, (absorbs_all_or_nothing hbuilt _).1.mpr ⟨?_, ?_, ?_⟩, hsum, hrefuses, ?_⟩
  · simpa using ⟨hrow, Aggregate.wellFormed_of_ofRecord ha⟩
  · simp only [List.forall_mem_cons]
    exact ⟨⟨fun _ => ⟨rfl, rfl⟩, fun _ => ⟨rfl, rfl⟩, by simp⟩,
      ⟨fun _ => ⟨rfl, rfl⟩, fun _ => ⟨rfl, rfl⟩, by simp⟩, by simp⟩
  · simp only [List.forall_mem_cons]
    exact ⟨hstored, hstored, by simp⟩
  · cases hresult : ((empty.merge a).1.absorb relinked).2 with
    | ok => exact absurd hresult hrefuses
    | error e => exact (hrefused e hresult).1

end Store

end Dependence
