import Mathlib.Data.List.Nodup
import Dependence.Definitions

/-! What the tables of a function hold. References are numbered without gaps, one for each position,
and bound to the object that the oracle names if there is one; the redefinitions of an object are
exactly the occurrences that give it a value. Each step of the search for definitions is shown to
keep this up. -/

namespace Dependence

def Oracle.Positional (oracle : Oracle) : Prop := ∀ i j : Ident, i.pos = j.pos → oracle i = oracle j

theorem find?_key_eq_some {α : Type} {key : α → Pos} {l : List α} (h : (l.map key).Nodup) {p : Pos}
    {x : α} : l.find? (key · == p) = some x ↔ x ∈ l ∧ key x = p := by
  constructor
  · intro hx
    exact ⟨List.mem_of_find?_eq_some hx, by simpa using List.find?_some hx⟩
  · rintro ⟨hx, rfl⟩
    have hsome : (l.find? (key · == key x)).isSome := List.find?_isSome.mpr ⟨x, hx, by simp⟩
    obtain ⟨y, hy⟩ := Option.isSome_iff_exists.mp hsome
    have hkey : key y = key x := by simpa using List.find?_some hy
    rw [hy, List.inj_on_of_nodup_map h (List.mem_of_find?_eq_some hy) hx hkey]

namespace Definitions

variable {oracle : Oracle} {d : Definitions} {r : Reference} {o : Object} {p oid : Pos} {i : Ident}

def objectIds (d : Definitions) : List Pos := d.objects.map (·.id)

theorem object?_isSome_iff : (d.object? p).isSome ↔ p ∈ d.objectIds := by
  simp [object?, objectIds]

theorem reference?_eq_none_iff : d.reference? p = none ↔ p ∉ d.references.map (·.id) := by
  simp [reference?]

structure Dense (oracle : Oracle) (d : Definitions) : Prop where
  index : ∀ {k : Nat} {r : Reference}, d.references[k]? = some r → r.index = k
  nodup : (d.references.map (·.id)).Nodup
  known : ∀ r ∈ d.references, r.id = r.ident.pos ∧ (oracle r.ident).decl? = some r.oid

theorem Dense.reference?_eq_some_iff (h : d.Dense oracle) :
    d.reference? p = some r ↔ r ∈ d.references ∧ r.id = p := find?_key_eq_some h.nodup

theorem Dense.getElem?_index (h : d.Dense oracle) (hr : r ∈ d.references) :
    d.references[r.index]? = some r := by
  obtain ⟨k, hk⟩ := List.mem_iff_getElem?.mp hr
  rwa [h.index hk]

theorem Dense.index_lt (h : d.Dense oracle) (hr : r ∈ d.references) : r.index < d.referenceCount :=
  (List.getElem?_eq_some_iff.mp (h.getElem?_index hr)).1

theorem Dense.decl?_eq (h : d.Dense oracle) (horacle : oracle.Positional) (hr : r ∈ d.references)
    (hi : i.pos = r.id) : (oracle i).decl? = some r.oid := by
  obtain ⟨hid, hdecl⟩ := h.known r hr
  rw [horacle i r.ident (hi.trans hid), hdecl]

def fresh (d : Definitions) (i : Ident) (oid : Pos) : Reference :=
  ⟨i.pos, d.references.length, i, oid, if (d.object? oid).isSome then some oid else none⟩

theorem mention_of_none (h : d.reference? i.pos = none) :
    d.mention i oid = { d with references := d.references ++ [d.fresh i oid] } := by
  simp only [mention, h, fresh]

theorem mention_of_some (h : d.reference? i.pos = some r) : d.mention i oid = d := by
  simp only [mention, h]

@[simp] theorem mention_objects : (d.mention i oid).objects = d.objects := by
  unfold mention
  split <;> rfl

theorem mem_mention (hr : r ∈ (d.mention i oid).references) :
    r ∈ d.references ∨ r = d.fresh i oid := by
  cases h : d.reference? i.pos with
  | some _ => exact .inl (by rwa [mention_of_some h] at hr)
  | none =>
    rw [mention_of_none h] at hr
    simpa using hr

theorem Dense.mention (h : d.Dense oracle) (hdecl : (oracle i).decl? = some oid) :
    (d.mention i oid).Dense oracle := by
  cases hi : d.reference? i.pos with
  | some _ => rwa [mention_of_some hi]
  | none =>
    rw [mention_of_none hi]
    refine ⟨fun {k r} hk => ?_, ?_, fun r hr => ?_⟩
    · rw [List.getElem?_append] at hk
      split at hk
      · exact h.index hk
      · next hlt =>
        rw [List.getElem?_singleton, Option.ite_none_right_eq_some, Option.some.injEq] at hk
        obtain ⟨hlast, rfl⟩ := hk
        simp only [fresh]
        omega
    · rw [List.map_append, List.nodup_append]
      refine ⟨h.nodup, by simp, ?_⟩
      rintro p hp q hq rfl
      obtain rfl : p = i.pos := by simpa [fresh] using hq
      exact reference?_eq_none_iff.mp hi hp
    · rcases List.mem_append.mp hr with hr | hr
      · exact h.known r hr
      · obtain rfl := List.mem_singleton.mp hr
        exact ⟨rfl, hdecl⟩

/-- While occurrences are looked up, a reference is bound only to an object that is there. -/
def Linked (d : Definitions) : Prop :=
  ∀ r ∈ d.references, ∀ id, r.object = some id → id = r.oid ∧ id ∈ d.objectIds

/-- In the end a reference is bound to its declaration if that is an object. -/
def FullyLinked (d : Definitions) : Prop :=
  ∀ r ∈ d.references, r.object = if r.oid ∈ d.objectIds then some r.oid else none

/-- There is one object for a declaration. The pairs are all declarations with the positions where
they get a value. -/
structure Redefined (pairs : List (Pos × Pos)) (d : Definitions) : Prop where
  nodup : d.objectIds.Nodup
  redefs : ∀ o ∈ d.objects, ∀ p, p ∈ o.redefs ↔ (o.id, p) ∈ pairs

theorem Redefined.object?_eq_some_iff {pairs : List (Pos × Pos)} (h : d.Redefined pairs) :
    d.object? p = some o ↔ o ∈ d.objects ∧ o.id = p := find?_key_eq_some h.nodup

theorem fresh_object : (d.fresh i oid).object = if oid ∈ d.objectIds then some oid else none := by
  simp only [fresh, object?_isSome_iff]

theorem Linked.mention (h : d.Linked) : (d.mention i oid).Linked := by
  intro r hr id hid
  simp only [objectIds, mention_objects]
  rcases mem_mention hr with hr | rfl
  · exact h r hr id hid
  · rw [fresh_object, Option.ite_none_right_eq_some, Option.some.injEq] at hid
    exact ⟨hid.2.symm, hid.2 ▸ hid.1⟩

theorem FullyLinked.mention (h : d.FullyLinked) : (d.mention i oid).FullyLinked := by
  intro r hr
  simp only [objectIds, mention_objects]
  rcases mem_mention hr with hr | rfl
  · exact h r hr
  · exact fresh_object

@[simp] theorem objectIds_redefine : (d.redefine oid p).objectIds = d.objectIds := by
  simp only [objectIds, redefine, List.map_map]
  refine List.map_congr_left fun o _ => ?_
  simp only [Function.comp_apply]
  split <;> rfl

theorem mem_insert_redefs {redefs : Std.ExtTreeSet Pos compare} {q : Pos} :
    q ∈ redefs.insert p ↔ q ∈ redefs ∨ q = p := by
  rw [Std.ExtTreeSet.mem_insert, Nat.compare_eq_eq, or_comm, eq_comm]

theorem Redefined.redefine {pairs : List (Pos × Pos)} (h : d.Redefined pairs) :
    (d.redefine oid p).Redefined (pairs ++ [(oid, p)]) := by
  refine ⟨by rw [objectIds_redefine]; exact h.nodup, fun o ho q => ?_⟩
  obtain ⟨o', ho', rfl⟩ := List.mem_map.mp ho
  split
  · next hid => rw [mem_insert_redefs, h.redefs o' ho', hid, List.mem_append]; simp
  · next hid => rw [h.redefs o' ho', List.mem_append]; simp [hid]

def definition? (oracle : Oracle) (x : Location × Ident) : Option (Pos × Pos) :=
  match oracle x.2 with
  | .definition symbol => some (symbol.decl, x.2.pos)
  | _ => none

def assignment? (oracle : Oracle) (target : Ident) : Option (Pos × Pos) :=
  (oracle target).decl?.map fun decl => (decl, target.pos)

structure Recorded (oracle : Oracle) (pairs : List (Pos × Pos)) (d : Definitions) : Prop where
  dense : d.Dense oracle
  linked : d.Linked
  redefined : d.Redefined pairs
  declared : ∀ x ∈ pairs, x.1 ∈ d.objectIds

structure Complete (oracle : Oracle) (pairs : List (Pos × Pos)) (d : Definitions) : Prop where
  dense : d.Dense oracle
  linked : d.FullyLinked
  redefined : d.Redefined pairs

variable {pairs : List (Pos × Pos)}

theorem recorded_empty (oracle : Oracle) : Recorded oracle [] empty := by
  refine ⟨⟨?_, ?_, ?_⟩, ?_, ⟨?_, ?_⟩, ?_⟩ <;> simp [empty, Linked, objectIds]

theorem Recorded.mention (h : d.Recorded oracle pairs) (hdecl : (oracle i).decl? = some oid) :
    (d.mention i oid).Recorded oracle pairs where
  dense := h.dense.mention hdecl
  linked := h.linked.mention
  redefined := by
    refine ⟨?_, fun o ho => h.redefined.redefs o (by simpa using ho)⟩
    simpa only [objectIds, mention_objects] using h.redefined.nodup
  declared := by simpa only [objectIds, mention_objects] using h.declared

theorem Recorded.redefine (h : d.Recorded oracle pairs) (hid : oid ∈ d.objectIds) :
    (d.redefine oid p).Recorded oracle (pairs ++ [(oid, p)]) := by
  refine ⟨⟨h.dense.index, h.dense.nodup, h.dense.known⟩, ?_, h.redefined.redefine, ?_⟩
  · intro r hr id hobj
    rw [objectIds_redefine]
    exact h.linked r hr id hobj
  · intro x hx
    rw [objectIds_redefine]
    rcases List.mem_append.mp hx with hx | hx
    · exact h.declared x hx
    · rwa [List.mem_singleton.mp hx]

theorem Recorded.addObject (h : d.Recorded oracle pairs) (hid : o.id ∉ d.objectIds)
    (hredefs : ∀ q, q ∈ o.redefs ↔ q = p) :
    Recorded oracle (pairs ++ [(o.id, p)]) { d with objects := d.objects ++ [o] } := by
  have hids : objectIds { d with objects := d.objects ++ [o] } = d.objectIds ++ [o.id] := by
    simp [objectIds]
  -- No pair speaks of the new object yet, since the declarations of all pairs are objects.
  have hnew : ∀ q, (o.id, q) ∉ pairs := fun q hq => hid (h.declared _ hq)
  refine ⟨⟨h.dense.index, h.dense.nodup, h.dense.known⟩, ?_, ⟨?_, ?_⟩, ?_⟩
  · intro r hr id hobj
    rw [hids]
    obtain ⟨heq, hmem⟩ := h.linked r hr id hobj
    exact ⟨heq, List.mem_append_left _ hmem⟩
  · rw [hids, List.nodup_append]
    refine ⟨h.redefined.nodup, by simp, ?_⟩
    rintro x hx y hy rfl
    exact hid (List.mem_singleton.mp hy ▸ hx)
  · intro o' ho' q
    rw [List.mem_append]
    rcases List.mem_append.mp ho' with ho' | ho'
    · have hne : o'.id ≠ o.id := fun heq => hid (heq ▸ List.mem_map_of_mem ho')
      simp [h.redefined.redefs o' ho' q, hne]
    · obtain rfl := List.mem_singleton.mp ho'
      simp [hredefs, hnew]
  · intro x hx
    rw [hids]
    rcases List.mem_append.mp hx with hx | hx
    · exact List.mem_append_left _ (h.declared x hx)
    · simp [List.mem_singleton.mp hx]

theorem Recorded.declare (h : d.Recorded oracle pairs) {l : Location} {symbol : Symbol}
    (hi : oracle i = .definition symbol) :
    (d.declare l i symbol).Recorded oracle (pairs ++ [(symbol.decl, i.pos)]) := by
  have hm : (d.mention i symbol.decl).Recorded oracle pairs := h.mention (by rw [hi]; rfl)
  simp only [Definitions.declare]
  split
  · next o ho => exact hm.redefine (object?_isSome_iff.mp (by simp [ho]))
  · next ho =>
    have hid : symbol.decl ∉ (d.mention i symbol.decl).objectIds := fun hid => by
      have := object?_isSome_iff.mpr hid
      simp [ho] at this
    exact hm.addObject (o := ⟨symbol.decl, i, symbol, l, {i.pos}⟩) hid fun q => by
      rw [Std.ExtTreeSet.singleton_eq_insert, mem_insert_redefs]
      simp

theorem Recorded.record (h : d.Recorded oracle pairs) (x : Location × Ident) :
    (d.record oracle x).Recorded oracle (pairs ++ (definition? oracle x).toList) := by
  obtain ⟨l, i⟩ := x
  cases hi : oracle i with
  | definition symbol => simpa [Definitions.record, definition?, hi] using h.declare hi
  | usage symbol =>
    have hdecl : (oracle i).decl? = some symbol.decl := by rw [hi]; rfl
    simpa [Definitions.record, definition?, hi] using h.mention hdecl
  | unresolved => simpa [Definitions.record, definition?, hi] using h

theorem Recorded.foldl (h : d.Recorded oracle pairs) (xs : List (Location × Ident)) :
    (xs.foldl (Definitions.record oracle) d).Recorded oracle
      (pairs ++ xs.filterMap (definition? oracle)) := by
  induction xs generalizing d pairs with
  | nil => simpa using h
  | cons x xs ih =>
    have := ih (h.record x)
    rw [List.append_assoc] at this
    rw [List.foldl_cons]
    convert this using 2
    cases hx : definition? oracle x <;> simp [hx]

theorem mem_bindAll (h : d.Linked) (hr : r ∈ d.bindAll.references) :
    ∃ r₀ ∈ d.references,
      r = { r₀ with object := if r₀.oid ∈ d.objectIds then some r₀.oid else none } := by
  obtain ⟨r₀, hr₀, rfl⟩ := List.mem_map.mp hr
  refine ⟨r₀, hr₀, ?_⟩
  simp only [object?_isSome_iff]
  split
  · rfl
  · next hid =>
    cases hobj : r₀.object with
    | none => rw [← hobj]
    | some id =>
      obtain ⟨rfl, hmem⟩ := h r₀ hr₀ id hobj
      exact absurd hmem hid

theorem Recorded.bindAll (h : d.Recorded oracle pairs) : d.bindAll.Complete oracle pairs where
  dense := by
    refine ⟨fun {k r} hk => ?_, ?_, fun r hr => ?_⟩
    · simp only [Definitions.bindAll, List.getElem?_map, Option.map_eq_some_iff] at hk
      obtain ⟨r₀, hk, rfl⟩ := hk
      rw [← h.dense.index hk]
      split <;> rfl
    · have hids : d.bindAll.references.map (·.id) = d.references.map (·.id) := by
        simp only [Definitions.bindAll, List.map_map]
        refine List.map_congr_left fun r _ => ?_
        simp only [Function.comp_apply]
        split <;> rfl
      rw [hids]
      exact h.dense.nodup
    · obtain ⟨r₀, hr₀, rfl⟩ := mem_bindAll h.linked hr
      exact h.dense.known r₀ hr₀
  linked := by
    intro r hr
    obtain ⟨r₀, -, rfl⟩ := mem_bindAll h.linked hr
    rfl
  redefined := ⟨h.redefined.nodup, h.redefined.redefs⟩

theorem Complete.mention (h : d.Complete oracle pairs) (hdecl : (oracle i).decl? = some oid) :
    (d.mention i oid).Complete oracle pairs where
  dense := h.dense.mention hdecl
  linked := h.linked.mention
  redefined := by
    refine ⟨?_, fun o ho => h.redefined.redefs o (by simpa using ho)⟩
    simpa only [objectIds, mention_objects] using h.redefined.nodup

theorem Complete.redefine (h : d.Complete oracle pairs) :
    (d.redefine oid p).Complete oracle (pairs ++ [(oid, p)]) where
  dense := ⟨h.dense.index, h.dense.nodup, h.dense.known⟩
  linked := by
    intro r hr
    rw [objectIds_redefine]
    exact h.linked r hr
  redefined := h.redefined.redefine

theorem Complete.skip (h : d.Complete oracle pairs) (hid : oid ∉ d.objectIds) :
    d.Complete oracle (pairs ++ [(oid, p)]) := by
  refine ⟨h.dense, h.linked, h.redefined.nodup, fun o ho q => ?_⟩
  have hne : o.id ≠ oid := fun heq => hid (heq ▸ List.mem_map_of_mem ho)
  simp [h.redefined.redefs o ho q, hne]

theorem Complete.redefineAt (h : d.Complete oracle pairs) (horacle : oracle.Positional)
    (hr : d.reference? i.pos = some r) :
    (r.object.elim d (d.redefine · i.pos)).Complete oracle
      (pairs ++ (assignment? oracle i).toList) := by
  obtain ⟨hmem, hid⟩ := h.dense.reference?_eq_some_iff.mp hr
  rw [assignment?, h.dense.decl?_eq horacle hmem hid.symm, h.linked r hmem]
  by_cases hobj : r.oid ∈ d.objectIds
  · simpa [hobj] using h.redefine
  · simpa [hobj] using h.skip hobj

theorem Complete.assignTo (h : d.Complete oracle pairs) (horacle : oracle.Positional) (i : Ident) :
    (d.assignTo oracle i).Complete oracle (pairs ++ (assignment? oracle i).toList) := by
  cases hr : d.reference? i.pos with
  | some r =>
    have hstep := h.redefineAt horacle hr
    simp only [Definitions.assignTo, hr, Option.bind_some]
    cases hobj : r.object <;> simpa [hobj] using hstep
  | none =>
    cases hdecl : (oracle i).decl? with
    | none => simpa [Definitions.assignTo, hr, hdecl, assignment?] using h
    | some decl =>
      have hm := h.mention hdecl
      have hr' : (d.mention i decl).reference? i.pos = some (d.fresh i decl) :=
        hm.dense.reference?_eq_some_iff.mpr ⟨by simp [mention_of_none hr], rfl⟩
      have hstep := hm.redefineAt horacle hr'
      simp only [Definitions.assignTo, hr, hdecl, hr', Option.bind_some]
      cases hobj : (d.fresh i decl).object <;> simpa [hobj] using hstep

theorem Complete.foldl (h : d.Complete oracle pairs) (horacle : oracle.Positional)
    (ts : List Ident) :
    (ts.foldl (Definitions.assignTo oracle) d).Complete oracle
      (pairs ++ ts.filterMap (assignment? oracle)) := by
  induction ts generalizing d pairs with
  | nil => simpa using h
  | cons t ts ih =>
    have := ih (h.assignTo horacle t)
    rw [List.append_assoc] at this
    rw [List.foldl_cons]
    convert this using 2
    cases ht : assignment? oracle t <;> simp [ht]

def valuePairs (g : Graph) (oracle : Oracle) : List (Pos × Pos) :=
  (occurrences g).filterMap (definition? oracle) ++ (targets g).filterMap (assignment? oracle)

theorem complete_find (g : Graph) (horacle : oracle.Positional) :
    (find g oracle).Complete oracle (valuePairs g oracle) := by
  have h := (recorded_empty oracle).foldl (occurrences g)
  rw [List.nil_append] at h
  exact h.bindAll.foldl horacle (targets g)

theorem mem_valuePairs {g : Graph} {q : Pos} :
    (q, p) ∈ valuePairs g oracle ↔
      (∃ x ∈ occurrences g, ∃ symbol, oracle x.2 = .definition symbol ∧ symbol.decl = q ∧
        x.2.pos = p) ∨
      ∃ t ∈ targets g, (oracle t).decl? = some q ∧ t.pos = p := by
  rw [valuePairs, List.mem_append, List.mem_filterMap, List.mem_filterMap]
  refine or_congr (exists_congr fun x => and_congr_right fun _ => ?_)
    (exists_congr fun t => and_congr_right fun _ => ?_)
  · unfold definition?
    cases oracle x.2 <;> simp
  · simp [assignment?]

theorem mem_targets {g : Graph} {b s : Nat} (h : i ∈ g.definedAt (.point b s)) : i ∈ targets g := by
  simp only [Graph.definedAt, Graph.statement?] at h
  cases hb : g.blocks[b]? with
  | none => simp [hb] at h
  | some block =>
    cases hs : block.stmts[s]? with
    | none => simp [hb, hs] at h
    | some stmt =>
      rw [targets, List.mem_flatMap]
      refine ⟨block, List.mem_of_getElem? hb, List.mem_flatMap.mpr ⟨stmt, List.mem_of_getElem? hs, ?_⟩⟩
      simpa [hb, hs] using h

section Find

variable {g : Graph}

theorem Complete.objectOf?_eq_some_iff (h : d.Complete oracle pairs) (hr : r ∈ d.references) :
    d.objectOf? r = some o ↔ o ∈ d.objects ∧ o.id = r.oid := by
  rw [objectOf?, h.linked r hr]
  split
  · rw [Option.bind_some, h.redefined.object?_eq_some_iff]
  · next hid =>
    simp only [Option.bind_none, reduceCtorEq, false_iff, not_and]
    exact fun ho heq => hid (heq ▸ List.mem_map_of_mem ho)

theorem Complete.objectOf?_of_mem_redefs (h : d.Complete oracle (valuePairs g oracle))
    (horacle : oracle.Positional) (hr : r ∈ d.references) (ho : o ∈ d.objects)
    (hredef : r.id ∈ o.redefs) : d.objectOf? r = some o := by
  refine (h.objectOf?_eq_some_iff hr).mpr ⟨ho, ?_⟩
  rcases mem_valuePairs.mp ((h.redefined.redefs o ho _).mp hredef) with
    ⟨x, -, symbol, hx, hdecl, hpos⟩ | ⟨t, -, hdecl, hpos⟩
  · have := h.dense.decl?_eq horacle hr hpos
    rw [hx] at this
    exact hdecl.symm.trans (Option.some.inj this)
  · exact Option.some.inj (hdecl.symm.trans (h.dense.decl?_eq horacle hr hpos))

/-- An occurrence that gives a variable its value is among the redefinitions of the variable. That
holds of a binding of the signature only if the oracle takes it for a definition. -/
theorem Complete.mem_redefs_of_definedAt (h : d.Complete oracle (valuePairs g oracle))
    (horacle : oracle.Positional)
    (hsig : ∀ i ∈ g.signature.bindings, ∀ symbol, oracle i ≠ .usage symbol) (hr : r ∈ d.references)
    (hobj : d.objectOf? r = some o) {l : Location} (hi : i ∈ g.definedAt l) (hpos : i.pos = r.id) :
    r.id ∈ o.redefs := by
  obtain ⟨ho, hoid⟩ := (h.objectOf?_eq_some_iff hr).mp hobj
  have hdecl := h.dense.decl?_eq horacle hr hpos
  rw [h.redefined.redefs o ho, mem_valuePairs, hoid]
  cases l with
  | entry =>
    left
    refine ⟨(.entry, i), List.mem_append_left _ (List.mem_map_of_mem hi), ?_⟩
    cases hres : oracle i with
    | definition symbol =>
      rw [hres] at hdecl
      exact ⟨symbol, rfl, Option.some.inj hdecl, hpos⟩
    | usage symbol => exact absurd hres (hsig i hi symbol)
    | unresolved =>
      rw [hres] at hdecl
      simp [Resolution.decl?] at hdecl
  | point b s => exact .inr ⟨i, mem_targets hi, hdecl, hpos⟩

end Find

end Definitions

end Dependence
