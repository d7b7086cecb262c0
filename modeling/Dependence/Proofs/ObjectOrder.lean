import Dependence.Proofs.IndexedLists
import Dependence.Proofs.ReferenceOrder
import Dependence.Proofs.Slots

/-! Which objects a function has, what introduces each of them and where it gets its values. Only the
first pass over the identifiers makes objects, one for each declaration that is defined, and what an
object is known by never changes afterwards; only the places where it gets a value still grow. -/

namespace Dependence

def Oracle.defines? (oracle : Oracle) (i : Ident) : Option Pos :=
  match oracle i with
  | .definition symbol => some symbol.decl
  | _ => none

theorem Oracle.defines?_eq_some_iff {oracle : Oracle} {i : Ident} {decl : Pos} :
    oracle.defines? i = some decl ↔ ∃ symbol, oracle i = .definition symbol ∧ symbol.decl = decl := by
  unfold defines?
  cases oracle i <;> simp

namespace Graph

def identsAt (g : Graph) (l : Location) : List Ident :=
  match l with
  | .entry => g.signature.bindings
  | .point .. => ((g.statement? l).map (·.idents)).getD []

def lookups (g : Graph) : List (Location × Ident) :=
  g.locations.flatMap fun l => (g.identsAt l).map fun i => (l, i)

end Graph

namespace Definitions

variable {oracle : Oracle} {d d' : Definitions} {g : Graph} {o : Object} {i : Ident} {l : Location}
  {oid p : Pos} {x : Location × Ident} {xs : List (Location × Ident)}

theorem occurrences_eq_lookups (g : Graph) : occurrences g = g.lookups := by
  rw [occurrences, Graph.lookups, Graph.locations, List.flatMap_cons, List.flatMap_assoc]
  congr 1
  refine List.flatMap_congr fun x hx => ?_
  obtain ⟨block, b⟩ := x
  have hb : g.blocks[b]? = some block := List.mem_zipIdx_iff_getElem?.mp hx
  rw [List.flatMap_map]
  refine (flatMap_zipIdx_eq block.stmts
    (fun stmt s => stmt.idents.map fun i => (Location.point b s, i))
    (Nat.le_max_left _ 1)).trans (List.flatMap_congr fun s _ => ?_)
  simp only [Graph.identsAt, Graph.statement?, hb, Option.bind_some]
  cases block.stmts[s]? <;> rfl

theorem mem_targets_iff : i ∈ targets g ↔ ∃ b s, i ∈ g.definedAt (.point b s) := by
  constructor
  · intro hi
    obtain ⟨block, hblock, hi⟩ := List.mem_flatMap.mp hi
    obtain ⟨stmt, hstmt, hi⟩ := List.mem_flatMap.mp hi
    obtain ⟨b, hb⟩ := List.mem_iff_getElem?.mp hblock
    obtain ⟨s, hs⟩ := List.mem_iff_getElem?.mp hstmt
    exact ⟨b, s, by simpa [Graph.definedAt, Graph.statement?, hb, hs] using hi⟩
  · rintro ⟨b, s, hi⟩
    exact mem_targets hi

theorem mem_lookups : x ∈ g.lookups ↔ x.2 ∈ g.identsAt x.1 := by
  obtain ⟨l, i⟩ := x
  simp only [Graph.lookups, List.mem_flatMap, List.mem_map, Prod.mk.injEq]
  constructor
  · rintro ⟨l', -, i', hi, rfl, rfl⟩
    exact hi
  · intro hi
    refine ⟨l, ?_, i, hi, rfl, rfl⟩
    cases l with
    | entry => simp [Graph.locations]
    | point b s =>
      rw [Graph.mem_locations, Graph.contains_point]
      simp only [Graph.identsAt, Graph.statement?] at hi
      cases hb : g.blocks[b]? with
      | none => simp [hb] at hi
      | some block =>
        have hs : s < block.stmts.length := by
          by_contra hs
          simp [hb, List.getElem?_eq_none (Nat.le_of_not_lt hs)] at hi
        exact ⟨block, rfl, Nat.lt_of_lt_of_le hs (Nat.le_max_left _ 1)⟩

theorem exists_mem_lookups {P : Ident → Prop} :
    (∃ x ∈ g.lookups, P x.2) ↔ ∃ l, ∃ i ∈ g.identsAt l, P i := by
  simp only [mem_lookups, Prod.exists]

theorem mem_valuePairs_iff {q : Pos} : (q, p) ∈ valuePairs g oracle ↔
    (∃ l, ∃ i ∈ g.identsAt l, oracle.defines? i = some q ∧ i.pos = p) ∨
      ∃ b s, ∃ t ∈ g.definedAt (.point b s), (oracle t).decl? = some q ∧ t.pos = p := by
  rw [mem_valuePairs, occurrences_eq_lookups,
    exists_mem_lookups (P := fun i => ∃ symbol, oracle i = .definition symbol ∧ symbol.decl = q ∧
      i.pos = p)]
  simp only [mem_targets_iff, Oracle.defines?_eq_some_iff]
  refine or_congr ?_ ?_
  · refine exists_congr fun l => exists_congr fun i => and_congr_right fun _ => ?_
    exact ⟨fun ⟨symbol, h, hdecl, hpos⟩ => ⟨⟨symbol, h, hdecl⟩, hpos⟩,
      fun ⟨⟨symbol, h, hdecl⟩, hpos⟩ => ⟨symbol, h, hdecl, hpos⟩⟩
  · exact ⟨fun ⟨t, ⟨b, s, ht⟩, h⟩ => ⟨b, s, t, ht, h⟩, fun ⟨b, s, t, ht, h⟩ => ⟨t, ⟨b, s, ht⟩, h⟩⟩

def origins (d : Definitions) : List (Pos × Symbol × Location × Ident) :=
  d.objects.map fun o => (o.id, o.symbol, o.location, o.ident)

theorem objectIds_eq_map_origins (d : Definitions) : d.objectIds = d.origins.map (·.1) := by
  simp [objectIds, origins]

theorem origins_mention : (d.mention i oid).origins = d.origins := by
  rw [origins, mention_objects, origins]

theorem origins_redefine : (d.redefine oid p).origins = d.origins := by
  simp only [origins, redefine, List.map_map]
  refine List.map_congr_left fun o _ => ?_
  simp only [Function.comp_apply]
  split <;> rfl

theorem origins_assignTo (i : Ident) : (d.assignTo oracle i).origins = d.origins := by
  apply assignTo_induction (P := fun d' => d'.origins = d.origins)
  · exact fun d' oid p h => origins_redefine.trans h
  · exact fun _ => rfl
  · exact fun decl _ _ => origins_mention

theorem origins_declare (l : Location) (i : Ident) (symbol : Symbol) :
    (d.declare l i symbol).origins =
      if symbol.decl ∈ d.objectIds then d.origins
      else d.origins ++ [(symbol.decl, symbol, l, i)] := by
  have hids : (d.mention i symbol.decl).objectIds = d.objectIds := by
    rw [objectIds, mention_objects, objectIds]
  simp only [declare]
  cases hobj : (d.mention i symbol.decl).object? symbol.decl with
  | some o =>
    have hmem : symbol.decl ∈ d.objectIds := hids ▸ object?_isSome_iff.mp (by rw [hobj]; rfl)
    rw [if_pos hmem, origins_redefine, origins_mention]
  | none =>
    have hnew : symbol.decl ∉ d.objectIds := fun hmem => by
      rw [← hids, ← object?_isSome_iff, hobj] at hmem
      cases hmem
    simp [origins, mention_objects, hnew]

/-- There is an object for each declaration that one of the occurrences defines, in the order of the
first ones that do, and each object is what the first one makes it. -/
structure Introduced (oracle : Oracle) (xs : List (Location × Ident)) (d : Definitions) : Prop where
  ids : d.objectIds = (xs.filterMap fun x => oracle.defines? x.2).eraseDups
  first : ∀ origin ∈ d.origins,
    xs.find? (fun x => oracle.defines? x.2 == some origin.1) = some origin.2.2 ∧
      oracle origin.2.2.2 = .definition origin.2.1

theorem Introduced.congr (h : d.Introduced oracle xs) (horigins : d'.origins = d.origins) :
    d'.Introduced oracle xs := by
  refine ⟨?_, by rw [horigins]; exact h.first⟩
  rw [objectIds_eq_map_origins, horigins, ← objectIds_eq_map_origins]
  exact h.ids

theorem Introduced.mem_objectIds_iff (h : d.Introduced oracle xs) :
    p ∈ d.objectIds ↔ ∃ x ∈ xs, oracle.defines? x.2 = some p := by
  rw [h.ids, List.mem_eraseDups, List.mem_filterMap]

theorem Introduced.keep (h : d.Introduced oracle xs)
    (hx : ∀ decl, oracle.defines? x.2 = some decl → decl ∈ d.objectIds) :
    d.Introduced oracle (xs ++ [x]) := by
  refine ⟨?_, fun origin horigin => ?_⟩
  · rw [h.ids, List.filterMap_append]
    cases hdecl : oracle.defines? x.2 with
    | none => simp [hdecl]
    | some decl =>
      have hmem : decl ∈ xs.filterMap fun x => oracle.defines? x.2 := by
        rw [← List.mem_eraseDups, ← h.ids]
        exact hx decl hdecl
      simp only [List.filterMap_cons, hdecl, List.filterMap_nil]
      rw [eraseDups_append_singleton, if_pos hmem]
  · obtain ⟨hfirst, hsymbol⟩ := h.first origin horigin
    exact ⟨by rw [List.find?_append, hfirst]; rfl, hsymbol⟩

theorem Introduced.add (h : d.Introduced oracle xs) {symbol : Symbol}
    (hx : oracle x.2 = .definition symbol) (hnew : symbol.decl ∉ d.objectIds)
    (horigins : d'.origins = d.origins ++ [(symbol.decl, symbol, x)]) :
    d'.Introduced oracle (xs ++ [x]) := by
  have hdecl : oracle.defines? x.2 = some symbol.decl := by rw [Oracle.defines?, hx]
  have hnone : ∀ y ∈ xs, oracle.defines? y.2 ≠ some symbol.decl :=
    fun y hy hdef => hnew (h.mem_objectIds_iff.mpr ⟨y, hy, hdef⟩)
  refine ⟨?_, fun origin horigin => ?_⟩
  · have hmem : symbol.decl ∉ xs.filterMap fun x => oracle.defines? x.2 := by
      rw [← List.mem_eraseDups, ← h.ids]
      exact hnew
    rw [objectIds_eq_map_origins, horigins, List.map_append, ← objectIds_eq_map_origins, h.ids,
      List.filterMap_append]
    simp only [List.filterMap_cons, hdecl, List.filterMap_nil]
    rw [eraseDups_append_singleton, if_neg hmem]
    rfl
  · rw [horigins, List.mem_append, List.mem_singleton] at horigin
    rcases horigin with horigin | rfl
    · obtain ⟨hfirst, hsymbol⟩ := h.first origin horigin
      exact ⟨by rw [List.find?_append, hfirst]; rfl, hsymbol⟩
    · -- no earlier occurrence defines the declaration, so the search goes on to `x`
      refine ⟨?_, hx⟩
      rw [List.find?_append, List.find?_eq_none.mpr fun y hy => by simpa using hnone y hy]
      simp [hdecl]

theorem Introduced.record (h : d.Introduced oracle xs) (x : Location × Ident) :
    (d.record oracle x).Introduced oracle (xs ++ [x]) := by
  obtain ⟨l, i⟩ := x
  cases hi : oracle i with
  | definition symbol =>
    have hdecl : oracle.defines? i = some symbol.decl := by rw [Oracle.defines?, hi]
    have horigins := origins_declare (d := d) l i symbol
    simp only [Definitions.record, hi]
    split at horigins
    · next hmem =>
      refine (h.keep fun decl hdef => ?_).congr horigins
      rwa [← Option.some.inj (hdecl.symm.trans hdef)]
    · next hnew => exact h.add (x := (l, i)) hi hnew horigins
  | usage symbol =>
    simp only [Definitions.record, hi]
    refine (h.keep fun decl hdef => ?_).congr origins_mention
    simp [Oracle.defines?, hi] at hdef
  | unresolved =>
    simp only [Definitions.record, hi]
    refine h.keep fun decl hdef => ?_
    simp [Oracle.defines?, hi] at hdef

theorem Introduced.foldl (h : d.Introduced oracle xs) (ys : List (Location × Ident)) :
    (ys.foldl (Definitions.record oracle) d).Introduced oracle (xs ++ ys) := by
  induction ys generalizing d xs with
  | nil => simpa using h
  | cons y ys ih =>
    rw [List.foldl_cons, ← List.singleton_append, ← List.append_assoc]
    exact ih (h.record y)

theorem introduced_find (g : Graph) (oracle : Oracle) :
    (find g oracle).Introduced oracle g.lookups := by
  have hempty : empty.Introduced oracle [] := ⟨rfl, by simp [origins, empty]⟩
  have hrecorded := hempty.foldl (occurrences g)
  rw [List.nil_append, occurrences_eq_lookups] at hrecorded
  -- the passes after the first one neither make objects nor change what they are known by
  have hfound : ∀ (ts : List Ident) (d : Definitions),
      (ts.foldl (assignTo oracle) d).origins = d.origins := by
    intro ts d
    refine List.foldlRecOn (motive := fun d' => d'.origins = d.origins) ts (assignTo oracle) rfl ?_
    exact fun d' hd' i _ => (origins_assignTo i).trans hd'
  rw [find, occurrences_eq_lookups]
  exact hrecorded.congr (hfound _ _)

def Anchored (d : Definitions) : Prop := ∀ o ∈ d.objects, ∀ p ∈ o.redefs, p ∈ d.referenceIds

theorem mem_referenceIds_of_reference? (h : (d.reference? p).isSome) : p ∈ d.referenceIds := by
  by_contra hn
  rw [reference?_eq_none_iff.mpr hn] at h
  cases h

theorem pos_mem_referenceIds_mention : i.pos ∈ (d.mention i oid).referenceIds := by
  rw [referenceIds_mention]
  split
  · assumption
  · exact List.mem_append_right _ (List.mem_singleton_self _)

theorem Anchored.mention (h : d.Anchored) : (d.mention i oid).Anchored := by
  intro o ho p hp
  rw [mention_objects] at ho
  rw [referenceIds_mention]
  split
  · exact h o ho p hp
  · exact List.mem_append_left _ (h o ho p hp)

theorem Anchored.redefine (h : d.Anchored) (hp : p ∈ d.referenceIds) :
    (d.redefine oid p).Anchored := by
  intro o ho q hq
  obtain ⟨o', ho', rfl⟩ := List.mem_map.mp ho
  split at hq
  · rcases mem_insert_redefs.mp hq with hq | rfl
    · exact h o' ho' q hq
    · exact hp
  · exact h o' ho' q hq

theorem Anchored.declare (h : d.Anchored) (l : Location) (i : Ident) (symbol : Symbol) :
    (d.declare l i symbol).Anchored := by
  have hm : (d.mention i symbol.decl).Anchored := h.mention
  have hpos : i.pos ∈ (d.mention i symbol.decl).referenceIds := pos_mem_referenceIds_mention
  simp only [Definitions.declare]
  split
  · exact hm.redefine hpos
  · intro o ho p hp
    rcases List.mem_append.mp ho with ho | ho
    · exact hm o ho p hp
    · obtain rfl := List.mem_singleton.mp ho
      rw [Std.ExtTreeSet.singleton_eq_insert, mem_insert_redefs] at hp
      rcases hp with hp | rfl
      · simp at hp
      · exact hpos

theorem Anchored.record (h : d.Anchored) (x : Location × Ident) : (d.record oracle x).Anchored := by
  obtain ⟨l, i⟩ := x
  cases hi : oracle i with
  | definition symbol =>
    simp only [Definitions.record, hi]
    exact h.declare l i symbol
  | usage symbol =>
    simp only [Definitions.record, hi]
    exact h.mention
  | unresolved => simpa only [Definitions.record, hi] using h

theorem Anchored.assignTo (h : d.Anchored) (i : Ident) : (d.assignTo oracle i).Anchored := by
  unfold Definitions.assignTo
  extract_lets d'
  have hd' : d'.Anchored := by
    cases hr : d.reference? i.pos with
    | some r => simpa only [d', hr] using h
    | none =>
      cases hdecl : (oracle i).decl? with
      | none => simpa only [d', hr, hdecl] using h
      | some decl => simpa only [d', hr, hdecl] using h.mention
  split
  · next oid hoid =>
    obtain ⟨r, hr, -⟩ := Option.bind_eq_some_iff.mp hoid
    exact hd'.redefine (mem_referenceIds_of_reference? (hr ▸ rfl))
  · exact hd'

theorem anchored_find (g : Graph) (oracle : Oracle) : (find g oracle).Anchored := by
  have hempty : empty.Anchored := by simp [Anchored, empty]
  have hrecorded : ((occurrences g).foldl (record oracle) empty).Anchored :=
    List.foldlRecOn (motive := Anchored) (occurrences g) (record oracle) hempty
      fun d hd x _ => hd.record x
  have hbound : ((occurrences g).foldl (record oracle) empty).bindAll.Anchored := by
    intro o ho p hp
    rw [referenceIds_bindAll]
    exact hrecorded o ho p hp
  exact List.foldlRecOn (motive := Anchored) (targets g) (assignTo oracle) hbound
    fun d hd i _ => hd.assignTo i

/-- A variable is an object just if some identifier defines it. Objects stand in the order in which
they are first defined and are what the first definition makes them. An object gets its values
where it is defined and where it is assigned to, and at no other place; each such place has a reference
that is bound to it, the one that introduces it included. -/
theorem objects_with_their_redefinitions (g : Graph) {oracle : Oracle} (horacle : oracle.Positional) :
    (find g oracle).objects.map (·.id) =
        (g.lookups.filterMap fun x => oracle.defines? x.2).eraseDups ∧
      ((find g oracle).objects.map (·.id)).Nodup ∧
      (∀ decl, (∃ o ∈ (find g oracle).objects, o.id = decl) ↔
        ∃ l, ∃ i ∈ g.identsAt l, ∃ symbol, oracle i = .definition symbol ∧ symbol.decl = decl) ∧
      ∀ o ∈ (find g oracle).objects,
        g.lookups.find? (fun x => oracle.defines? x.2 == some o.id) = some (o.location, o.ident) ∧
        oracle o.ident = .definition o.symbol ∧
        (∀ p, p ∈ o.redefs ↔
          (∃ l, ∃ i ∈ g.identsAt l, oracle.defines? i = some o.id ∧ i.pos = p) ∨
            ∃ b s, ∃ t ∈ g.definedAt (.point b s), (oracle t).decl? = some o.id ∧ t.pos = p) ∧
        (∀ p ∈ o.redefs, ∃ r, (find g oracle).reference? p = some r ∧
          (find g oracle).objectOf? r = some o) ∧
        o.ident.pos ∈ o.redefs := by
  have hintroduced := introduced_find g oracle
  have hanchored := anchored_find g oracle
  have hcomplete := complete_find g horacle
  generalize find g oracle = d at hintroduced hanchored hcomplete ⊢
  have hredefs : ∀ o ∈ d.objects, ∀ p, p ∈ o.redefs ↔
      (∃ l, ∃ i ∈ g.identsAt l, oracle.defines? i = some o.id ∧ i.pos = p) ∨
        ∃ b s, ∃ t ∈ g.definedAt (.point b s), (oracle t).decl? = some o.id ∧ t.pos = p := by
    intro o ho p
    rw [hcomplete.redefined.redefs o ho, mem_valuePairs_iff]
  refine ⟨hintroduced.ids, hcomplete.redefined.nodup, fun decl => ?_, fun o ho => ?_⟩
  · have hmem : (∃ o ∈ d.objects, o.id = decl) ↔ decl ∈ d.objectIds := List.mem_map.symm
    rw [hmem, hintroduced.mem_objectIds_iff,
      exists_mem_lookups (P := fun i => oracle.defines? i = some decl)]
    simp only [Oracle.defines?_eq_some_iff]
  · obtain ⟨hfirst, hsymbol⟩ := hintroduced.first _ (List.mem_map_of_mem ho)
    refine ⟨hfirst, hsymbol, hredefs o ho, fun p hp => ?_, ?_⟩
    · obtain ⟨r, hr, rfl⟩ := List.mem_map.mp (hanchored o ho p hp)
      exact ⟨r, hcomplete.dense.reference?_eq_some_iff.mpr ⟨hr, rfl⟩,
        hcomplete.objectOf?_of_mem_redefs horacle hr ho hp⟩
    · have hmem := List.mem_of_find?_eq_some hfirst
      have hdef := List.find?_some hfirst
      refine (hredefs o ho _).mpr (.inl ⟨o.location, o.ident, mem_lookups.mp hmem, ?_, rfl⟩)
      simpa using hdef

/-- A variable is defined twice, a parameter is counted up by a statement that does not list it, and
a variable from outside is assigned to. -/
def patchwork : Graph :=
  ⟨"patchwork", ⟨[], [⟨"n", 1⟩], []⟩,
    [⟨[.assign [⟨"x", 4⟩] [⟨"n", 5⟩], .other [⟨"x", 6⟩], ⟨.incDec (.ident ⟨"n", 8⟩), []⟩,
      .assign [⟨"limit", 9⟩] []], [], []⟩]⟩

def patchworkOracle : Oracle := .ofList
  [(1, .definition ⟨"n", 1⟩), (4, .definition ⟨"x", 4⟩), (5, .usage ⟨"n", 1⟩),
    (6, .definition ⟨"x", 4⟩), (8, .usage ⟨"n", 1⟩), (9, .usage ⟨"limit", 2⟩)]

theorem objects_with_their_redefinitions_patchwork :
    patchworkOracle.Positional ∧
      (find patchwork patchworkOracle).objects.map (fun o => (o.id, o.location, o.ident)) =
        [(1, .entry, ⟨"n", 1⟩), (4, .point 0 0, ⟨"x", 4⟩)] ∧
      (find patchwork patchworkOracle).objects.map (·.redefs.toList) = [[1, 8], [4, 6]] ∧
      ∀ o ∈ (find patchwork patchworkOracle).objects, ∀ p ∈ o.redefs,
        ∃ r, (find patchwork patchworkOracle).reference? p = some r ∧
          (find patchwork patchworkOracle).objectOf? r = some o := by
  have horacle : patchworkOracle.Positional := by
    intro i j hij
    rw [patchworkOracle, Oracle.ofList, hij]
    rfl
  obtain ⟨-, -, -, hobjects⟩ := objects_with_their_redefinitions patchwork horacle
  exact ⟨horacle, by decide +kernel, by decide +kernel, fun o ho => (hobjects o ho).2.2.2.1⟩

end Definitions

end Dependence
