import Dependence.Proofs.ReachingPaths

/-! The definitions of a variable that are in force after a location which gives it a value. They are
exactly those made there: all others are killed. So there is one of them unless the location gives
the variable a value at several places. -/

namespace Dependence

/-- The answer without the name of a variable that is used, which may be the identifier's own. -/
def Resolution.unnamed : Resolution → Resolution
  | usage symbol => usage ⟨"", symbol.decl⟩
  | resolution => resolution

def Oracle.unnamed (oracle : Oracle) : Oracle := fun i => (oracle i).unnamed

@[simp] theorem Resolution.decl?_unnamed (resolution : Resolution) :
    resolution.unnamed.decl? = resolution.decl? := by
  cases resolution <;> rfl

namespace SymbolTable

variable {t : SymbolTable} {i : Ident} {p : Pos} {symbol : Symbol}

inductive Built : SymbolTable → Prop
  | empty : Built empty
  | define {t : SymbolTable} (h : Built t) (i : Ident) : Built (t.define i)
  | useOf {t : SymbolTable} (h : Built t) (pos decl : Pos) : Built (t.useOf pos decl)

theorem Built.decl_of_getElem? (h : t.Built) (hp : t.symbols[p]? = some symbol) :
    symbol.decl = p := by
  induction h with
  | empty => simp [SymbolTable.empty] at hp
  | @define t _ i ih =>
    simp only [SymbolTable.define, Std.ExtTreeMap.getElem?_insert] at hp
    split at hp
    · next heq =>
      obtain rfl := Option.some.inj hp
      exact Nat.compare_eq_eq.mp heq
    · exact ih hp
  | useOf _ _ _ ih => exact ih hp

theorem Built.decl_of_resolve (h : t.Built) (hi : t.resolve i = .definition symbol) :
    symbol.decl = i.pos := by
  unfold resolve at hi
  split at hi
  · split at hi
    · next hp =>
      obtain rfl := Resolution.definition.inj hi
      exact h.decl_of_getElem? hp
    · simp at hi
  · simp at hi
  · simp at hi

theorem positional_unnamed (t : SymbolTable) : t.resolve.unnamed.Positional := by
  intro i j h
  simp only [Oracle.unnamed, resolve, h]
  cases t.occurrences[j.pos]? with
  | none => rfl
  | some occurrence =>
    cases occurrence with
    | definition => rfl
    | usage decl => cases hdecl : t.symbols[decl]? <;> simp [Resolution.unnamed, hdecl]

end SymbolTable

namespace Definitions

variable {oracle : Oracle} {d : Definitions} {g : Graph} {s : State BitSet g.slotCount}
  {r : Reference} {o : Object} {out : BitSet} {l : Location} {p : Pos}

theorem record_unnamed : record oracle.unnamed = record oracle := by
  funext d x
  obtain ⟨l, i⟩ := x
  cases hi : oracle i <;> simp [record, Oracle.unnamed, Resolution.unnamed, hi]

theorem assignTo_unnamed : assignTo oracle.unnamed = assignTo oracle := by
  funext d i
  simp [assignTo, Oracle.unnamed]

theorem find_unnamed (g : Graph) (oracle : Oracle) : find g oracle.unnamed = find g oracle := by
  rw [find, find, record_unnamed, assignTo_unnamed]

def Binds (d : Definitions) (i : Ident) (o : Object) : Prop :=
  ∃ r, d.reference? i.pos = some r ∧ d.objectOf? r = some o

def survivors (d : Definitions) (o : Object) (out : BitSet) : List Pos :=
  o.redefs.toList.filter fun p => (d.reference? p).any (·.index ∈ out)

theorem mem_survivors : p ∈ d.survivors o out ↔
    p ∈ o.redefs ∧ ∃ r, d.reference? p = some r ∧ r.index ∈ out := by
  simp [survivors, Option.any_eq_true]

theorem nodup_survivors : (d.survivors o out).Nodup := by
  have hredefs : o.redefs.toList.Nodup :=
    o.redefs.distinct_toList.imp fun h heq => h (Nat.compare_eq_eq.mpr heq)
  exact hredefs.filter _

theorem length_survivors_eq_one_iff (hp : p ∈ d.survivors o out) :
    (d.survivors o out).length = 1 ↔
      ∀ x ∈ d.survivors o out, ∀ y ∈ d.survivors o out, x = y := by
  constructor
  · intro h x hx y hy
    obtain ⟨z, hz⟩ := List.length_eq_one_iff.mp h
    rw [hz, List.mem_singleton] at hx hy
    rw [hx, hy]
  · intro h
    have hperm : (d.survivors o out).Perm [p] := by
      rw [List.perm_ext_iff_of_nodup nodup_survivors (List.nodup_singleton p)]
      intro x
      rw [List.mem_singleton]
      exact ⟨fun hx => h x hx p hp, fun hx => hx ▸ hp⟩
    exact hperm.length_eq

namespace Converged

/-- Where an object gets a value, a definition of it is in force afterwards just if it is made there.
-/
theorem mem_outputs_iff_defines (h : Converged oracle d g s) {i : g.Slot} (hr : r ∈ d.references)
    (hobj : d.objectOf? r = some o) (hassigns : d.Assigns g (g.location i) o) :
    r.index ∈ s.outputs.get i ↔ g.Defines (g.location i) r := by
  constructor
  · intro hn
    obtain ⟨q, hq, heq, o', hobj', hleaves⟩ := h.leaves_of_mem i hn
    obtain rfl := h.complete.dense.eq_of_index_eq hr hq heq
    obtain rfl := Option.some.inj (hobj.symm.trans hobj')
    exact hleaves.resolve_right fun ⟨_, hfree⟩ => hfree hassigns
  · exact h.mem_outputs_of_defines hr hobj

theorem mem_survivors_iff (h : Converged oracle d g s) {i : g.Slot}
    (hassigns : d.Assigns g (g.location i) o) :
    p ∈ d.survivors o (s.outputs.get i) ↔
      ∃ j ∈ g.definedAt (g.location i), j.pos = p ∧ d.Binds j o := by
  have hdense := h.complete.dense
  have ho : o ∈ d.objects := by
    obtain ⟨_, _, q, hq, hobj⟩ := hassigns
    exact ((h.complete.objectOf?_eq_some_iff (hdense.reference?_eq_some_iff.mp hq).1).mp hobj).1
  rw [mem_survivors]
  constructor
  · rintro ⟨hredef, r, hr, hn⟩
    obtain ⟨hmem, rfl⟩ := hdense.reference?_eq_some_iff.mp hr
    have hobj := h.complete.objectOf?_of_mem_redefs h.positional hmem ho hredef
    obtain ⟨j, hj, hpos⟩ := (h.mem_outputs_iff_defines hmem hobj hassigns).mp hn
    exact ⟨j, hj, hpos, r, hpos ▸ hr, hobj⟩
  · rintro ⟨j, hj, rfl, r, hr, hobj⟩
    obtain ⟨hmem, hid⟩ := hdense.reference?_eq_some_iff.mp hr
    have hredef :=
      h.complete.mem_redefs_of_definedAt h.positional h.bindings hmem hobj hj hid.symm
    exact ⟨hid ▸ hredef, r, hr,
      (h.mem_outputs_iff_defines hmem hobj hassigns).mpr ⟨j, hj, hid.symm⟩⟩

theorem length_survivors_iff (h : Converged oracle d g s) {i : g.Slot}
    (hassigns : d.Assigns g (g.location i) o) :
    (d.survivors o (s.outputs.get i)).length = 1 ↔
      ∀ j ∈ g.definedAt (g.location i), ∀ k ∈ g.definedAt (g.location i), d.Binds j o →
        d.Binds k o → j.pos = k.pos := by
  obtain ⟨j, hj, hbinds⟩ := id hassigns
  rw [length_survivors_eq_one_iff ((h.mem_survivors_iff hassigns).mpr ⟨j, hj, rfl, hbinds⟩)]
  simp only [h.mem_survivors_iff hassigns]
  constructor
  · intro hone j hj k hk hbj hbk
    exact hone j.pos ⟨j, hj, rfl, hbj⟩ k.pos ⟨k, hk, rfl, hbk⟩
  · rintro hone _ ⟨j, hj, rfl, hbj⟩ _ ⟨k, hk, rfl, hbk⟩
    exact hone j hj k hk hbj hbk

end Converged

theorem genKill_ok (h : d.Dense oracle) (g : Graph) (l : Location) :
    ∃ gk, d.genKill g l = .ok gk ∧ ∀ r ∈ d.references,
      (r.index ∈ gk.gens ↔ g.Defines l r ∧ (d.objectOf? r).isSome) := by
  have hempty := BitSet.sized_empty d.referenceCount
  obtain ⟨gk, hgk, -, -, hgens, -⟩ :=
    foldlM_addTarget_ok h (.empty d.referenceCount) (g.definedAt l) hempty hempty
  refine ⟨gk, hgk, fun r hr => ?_⟩
  rw [hgens, ← h.generates_iff hr]
  simp [GenKill.empty]

theorem Complete.pos_eq_of_binds {pairs : List (Pos × Pos)} (h : d.Complete oracle pairs)
    (horacle : oracle.Positional) {i : Ident} (hi : (oracle i).decl? = some i.pos)
    (hbinds : d.Binds i o) : i.pos = o.id := by
  obtain ⟨r, hr, hobj⟩ := hbinds
  obtain ⟨hmem, hid⟩ := h.dense.reference?_eq_some_iff.mp hr
  have hoid := h.dense.decl?_eq horacle hmem hid.symm
  rw [hi] at hoid
  rw [((h.objectOf?_eq_some_iff hmem).mp hobj).2]
  exact Option.some.inj hoid

end Definitions

theorem Reaching.converged_of_solve {g : Graph} {oracle : Oracle} {d : Definitions} {config : Config}
    {result : Reaching g} (hg : g.Accepted) (horacle : oracle.Positional)
    (hbindings : ∀ i ∈ g.signature.bindings, ∀ symbol, oracle i ≠ .usage symbol)
    (hd : d.Complete oracle (Definitions.valuePairs g oracle))
    (h : Reaching.solve g d config = .ok result) :
    ∃ s, d.Converged oracle g s ∧ result = ⟨d, s.solution⟩ := by
  obtain ⟨s, hs, hempty, rfl⟩ := Reaching.solve_ok h
  exact ⟨s, ⟨hg.consistent, horacle, hbindings, hd, hs,
    fun i => Analysis.settled_of_schedule hg.consistent hs i (by simp [hempty])⟩, rfl⟩

/-- After a location that gives an object a value, the definitions of the object in force are those
made there. There is one of them just if the location has one place that stands for the object, as
the entry of a function always has. -/
theorem survivors_of_assignment {g : Graph} {t : SymbolTable} {config : Config} {result : Reaching g}
    (hg : g.Accepted) (ht : t.Built)
    (hsig : ∀ i ∈ g.signature.bindings, ∃ symbol, t.resolve i = .definition symbol)
    (h : Reaching.solve g (.find g t.resolve) config = .ok result) (l : Location) :
    ∃ gk, result.genKill l = .ok gk ∧
      ∀ r ∈ result.definitions.references, r.index ∈ gk.gens →
        ∀ o, result.definitions.objectOf? r = some o →
        ∃ out, result.solution.output? l = some out ∧
          (∀ p, p ∈ result.definitions.survivors o out ↔
            ∃ i ∈ g.definedAt l, i.pos = p ∧ result.definitions.Binds i o) ∧
          ((result.definitions.survivors o out).length = 1 ↔
            ∀ i ∈ g.definedAt l, ∀ j ∈ g.definedAt l, result.definitions.Binds i o →
              result.definitions.Binds j o → i.pos = j.pos) ∧
          (l = .entry → (result.definitions.survivors o out).length = 1) := by
  have horacle := t.positional_unnamed
  have hd := Definitions.complete_find g horacle
  rw [Definitions.find_unnamed] at hd
  have hdecl : ∀ i ∈ g.signature.bindings, (t.resolve.unnamed i).decl? = some i.pos := by
    intro i hi
    obtain ⟨symbol, hsymbol⟩ := hsig i hi
    rw [Oracle.unnamed, Resolution.decl?_unnamed, hsymbol, ← ht.decl_of_resolve hsymbol]
    rfl
  have hbindings : ∀ i ∈ g.signature.bindings, ∀ symbol, t.resolve.unnamed i ≠ .usage symbol := by
    intro i hi symbol hu
    obtain ⟨symbol', hdef⟩ := hsig i hi
    simp [Oracle.unnamed, hdef, Resolution.unnamed] at hu
  obtain ⟨s, hconv, rfl⟩ := Reaching.converged_of_solve hg horacle hbindings hd h
  generalize Definitions.find g t.resolve = d at hd hconv ⊢
  obtain ⟨gk, hgk, hgens⟩ := Definitions.genKill_ok hd.dense g l
  refine ⟨gk, hgk, fun r hr hgen o hobj => ?_⟩
  obtain ⟨⟨i, hi, hpos⟩, -⟩ := (hgens r hr).mp hgen
  have hassigns : d.Assigns g l o :=
    ⟨i, hi, r, hd.dense.reference?_eq_some_iff.mpr ⟨hr, hpos.symm⟩, hobj⟩
  obtain ⟨k, rfl⟩ := Graph.exists_slot_of_contains (Graph.contains_of_mem_definedAt hi)
  have hone := hconv.length_survivors_iff hassigns
  have hout : s.solution.output? (g.location k) = some (s.outputs.get k) := by
    rw [Solution.output?, Graph.slotOf?_location]
    rfl
  refine ⟨s.outputs.get k, hout, fun p => hconv.mem_survivors_iff hassigns, hone,
    fun hentry => hone.mpr ?_⟩
  -- Each binding of the signature declares its own variable, so it stands where the object does.
  rw [hentry]
  intro i hi j hj hbi hbj
  rw [hd.pos_eq_of_binds horacle (hdecl i hi) hbi, hd.pos_eq_of_binds horacle (hdecl j hj) hbj]

def Graph.doubled : Graph :=
  ⟨"doubled", ⟨[], [⟨"x", 1⟩], []⟩, [⟨[.assign [⟨"x", 2⟩, ⟨"x", 3⟩] []], [], []⟩]⟩

def SymbolTable.doubled : SymbolTable := ((empty.define ⟨"x", 1⟩).useOf 2 1).useOf 3 1

theorem Graph.accepted_doubled : Graph.doubled.Accepted :=
  .body (show ofBlocks doubled.name doubled.signature doubled.blocks = .ok doubled from rfl)

theorem SymbolTable.built_doubled : SymbolTable.doubled.Built :=
  ((Built.empty.define _).useOf 2 1).useOf 3 1

theorem SymbolTable.resolve_doubled : ∀ i ∈ Graph.doubled.signature.bindings, ∃ symbol,
    SymbolTable.doubled.resolve i = .definition symbol := by
  intro i hi
  obtain rfl : i = ⟨"x", 1⟩ := by simpa [Graph.doubled, Signature.bindings] using hi
  exact ⟨⟨"x", 1⟩, by decide +kernel⟩

def Reaching.survivorsAt? {g : Graph} (result : Reaching g) (l : Location) : Option (List Pos) := do
  let gk ← (result.genKill l).toOption
  let out ← result.solution.output? l
  let r ← result.definitions.references.find? (·.index ∈ gk.gens)
  let o ← result.definitions.objectOf? r
  return result.definitions.survivors o out

theorem Reaching.exists_of_survivorsAt? {g : Graph} {result : Reaching g} {l : Location}
    {places : List Pos} (h : result.survivorsAt? l = some places) :
    ∃ gk out, result.genKill l = .ok gk ∧ result.solution.output? l = some out ∧
      ∃ r ∈ result.definitions.references, r.index ∈ gk.gens ∧
        ∃ o, result.definitions.objectOf? r = some o ∧
          result.definitions.survivors o out = places := by
  simp only [survivorsAt?, Option.bind_eq_bind, Option.bind_eq_some_iff, Option.pure_def,
    Option.some.injEq] at h
  obtain ⟨gk, hgk, out, hout, r, hr, o, ho, hplaces⟩ := h
  refine ⟨gk, out, ?_, hout, r, List.mem_of_find?_eq_some hr, ?_, o, ho, hplaces⟩
  · cases hok : result.genKill l with
    | error e => simp [hok, Except.toOption] at hgk
    | ok gk' => simpa [hok, Except.toOption] using hgk
  · simpa using List.find?_some hr

theorem Reaching.exists_solve_doubled : ∃ result,
    Reaching.solve .doubled (.find .doubled SymbolTable.doubled.resolve) .default = .ok result ∧
      result.survivorsAt? .entry = some [1] ∧ result.survivorsAt? (.point 0 0) = some [2, 3] := by
  have hfound : ((Reaching.solve .doubled (.find .doubled SymbolTable.doubled.resolve)
      .default).toOption.map fun result => (result.survivorsAt? .entry,
        result.survivorsAt? (.point 0 0))) = some (some [1], some [2, 3]) := by decide +kernel
  cases hsolve : Reaching.solve .doubled (.find .doubled SymbolTable.doubled.resolve) .default with
  | error e => simp [hsolve, Except.toOption] at hfound
  | ok result =>
    simp only [hsolve, Except.toOption, Option.map_some, Option.some.injEq, Prod.mk.injEq] at hfound
    exact ⟨result, rfl, hfound⟩

theorem survivors_of_assignment_doubled :
    Graph.doubled.Accepted ∧ SymbolTable.doubled.Built ∧
      (∀ i ∈ Graph.doubled.signature.bindings, ∃ symbol,
        SymbolTable.doubled.resolve i = .definition symbol) ∧
      ∃ result,
        Reaching.solve .doubled (.find .doubled SymbolTable.doubled.resolve) .default =
          .ok result ∧
        ∃ gk, result.genKill .entry = .ok gk ∧
          ∃ r ∈ result.definitions.references, r.index ∈ gk.gens ∧
            ∃ o out, result.definitions.objectOf? r = some o ∧
              result.solution.output? .entry = some out ∧
              (result.definitions.survivors o out).length = 1 := by
  obtain ⟨result, hsolve, hentry, -⟩ := Reaching.exists_solve_doubled
  refine ⟨Graph.accepted_doubled, SymbolTable.built_doubled, SymbolTable.resolve_doubled, result,
    hsolve, ?_⟩
  obtain ⟨gk, hgk, hall⟩ := survivors_of_assignment Graph.accepted_doubled
    SymbolTable.built_doubled SymbolTable.resolve_doubled hsolve .entry
  obtain ⟨gk', -, hgk', -, r, hr, hgen, o, hobj, -⟩ := Reaching.exists_of_survivorsAt? hentry
  obtain rfl := Except.ok.inj (hgk.symm.trans hgk')
  obtain ⟨out, hout, -, -, hone⟩ := hall r hr hgen o hobj
  exact ⟨gk, hgk, r, hr, hgen, o, out, hobj, hout, hone rfl⟩

theorem two_survivors_doubled :
    Graph.doubled.Accepted ∧ SymbolTable.doubled.Built ∧
      (∀ i ∈ Graph.doubled.signature.bindings, ∃ symbol,
        SymbolTable.doubled.resolve i = .definition symbol) ∧
      ∃ result,
        Reaching.solve .doubled (.find .doubled SymbolTable.doubled.resolve) .default =
          .ok result ∧
        ∃ gk out, result.genKill (.point 0 0) = .ok gk ∧
          result.solution.output? (.point 0 0) = some out ∧
          ∃ r ∈ result.definitions.references, r.index ∈ gk.gens ∧
            ∃ o, result.definitions.objectOf? r = some o ∧
              result.definitions.survivors o out = [2, 3] := by
  obtain ⟨result, hsolve, -, hpoint⟩ := Reaching.exists_solve_doubled
  exact ⟨Graph.accepted_doubled, SymbolTable.built_doubled, SymbolTable.resolve_doubled, result,
    hsolve, Reaching.exists_of_survivorsAt? hpoint⟩

end Dependence
