import Dependence.Proofs.DefinitionTables

/-! Which references a function has and how they are numbered. Every step of the search adds at most
the identifier it looks at, and only at a position that is not taken, so references stand in the order
in which their positions are first met. None is left unbound whose variable is an object in the end. -/

namespace Dependence

theorem eraseDups_append_singleton (ps : List Pos) (p : Pos) :
    (ps ++ [p]).eraseDups = if p ∈ ps then ps.eraseDups else ps.eraseDups ++ [p] := by
  rw [List.eraseDups_append]
  by_cases hp : p ∈ ps <;> simp [List.removeAll, hp, List.eraseDups_cons]

/-- The identifiers of a function in the order in which they are looked at: those of the signature,
those of the statements, and the targets of the statements. -/
def Graph.mentions (g : Graph) : List Ident :=
  g.signature.bindings ++ (g.blocks.flatMap fun block => block.stmts.flatMap (·.idents)) ++
    g.blocks.flatMap fun block => block.stmts.flatMap (·.redefined)

def Oracle.resolved (oracle : Oracle) (idents : List Ident) : List Pos :=
  (idents.filter fun i => (oracle i).decl?.isSome).map (·.pos)

theorem Oracle.resolved_append (oracle : Oracle) (is js : List Ident) :
    oracle.resolved (is ++ js) = oracle.resolved is ++ oracle.resolved js := by
  rw [resolved, List.filter_append, List.map_append]
  rfl

theorem Oracle.resolved_singleton (oracle : Oracle) (i : Ident) :
    oracle.resolved [i] = if (oracle i).decl?.isSome then [i.pos] else [] := by
  by_cases hi : (oracle i).decl?.isSome <;> simp [resolved, hi]

namespace Definitions

variable {oracle : Oracle} {d : Definitions} {i : Ident} {oid p : Pos} {ps : List Pos} {g : Graph}

theorem map_snd_occurrences (g : Graph) :
    (occurrences g).map Prod.snd =
      g.signature.bindings ++ g.blocks.flatMap fun block => block.stmts.flatMap (·.idents) := by
  have hstmts : ∀ (stmts : List Statement) (b : Nat),
      (stmts.zipIdx.flatMap fun x => x.1.idents.map fun i => (Location.point b x.2, i)).map
        Prod.snd = stmts.flatMap (·.idents) := by
    intro stmts b
    rw [List.map_flatMap]
    simp only [List.map_map, Function.comp_def, List.map_id']
    conv_rhs => rw [← List.zipIdx_map_fst 0 stmts, List.flatMap_map]
  rw [occurrences, List.map_append, List.map_map, List.map_flatMap]
  congr 1
  · simp [Function.comp_def]
  · conv_rhs => rw [← List.zipIdx_map_fst 0 g.blocks, List.flatMap_map]
    exact List.flatMap_congr fun x _ => hstmts x.1.stmts x.2

def referenceIds (d : Definitions) : List Pos := d.references.map (·.id)

theorem referenceIds_mention : (d.mention i oid).referenceIds =
    if i.pos ∈ d.referenceIds then d.referenceIds else d.referenceIds ++ [i.pos] := by
  cases hi : d.reference? i.pos with
  | some r =>
    have hmem : i.pos ∈ d.referenceIds := by
      by_contra hn
      rw [reference?_eq_none_iff.mpr hn] at hi
      cases hi
    rw [mention_of_some hi, if_pos hmem]
  | none =>
    have hnew : i.pos ∉ d.referenceIds := reference?_eq_none_iff.mp hi
    rw [mention_of_none hi, if_neg hnew]
    simp [referenceIds, fresh]

theorem referenceIds_declare (l : Location) (symbol : Symbol) :
    (d.declare l i symbol).referenceIds = (d.mention i symbol.decl).referenceIds := by
  simp only [declare]
  split <;> rfl

theorem referenceIds_bindAll : d.bindAll.referenceIds = d.referenceIds := by
  simp only [referenceIds, bindAll, List.map_map]
  refine List.map_congr_left fun r _ => ?_
  simp only [Function.comp_apply]
  split <;> rfl

def Lists (d : Definitions) (ps : List Pos) : Prop := d.referenceIds = ps.eraseDups

theorem Lists.mention (h : d.Lists ps) : (d.mention i oid).Lists (ps ++ [i.pos]) := by
  unfold Lists at h ⊢
  rw [referenceIds_mention, eraseDups_append_singleton, h]
  simp only [List.mem_eraseDups]

theorem Lists.record (h : d.Lists ps) (x : Location × Ident) :
    (d.record oracle x).Lists (ps ++ oracle.resolved [x.2]) := by
  obtain ⟨l, i⟩ := x
  rw [Oracle.resolved_singleton]
  cases hi : oracle i with
  | definition symbol =>
    simp only [Definitions.record, hi, Resolution.decl?, Option.isSome_some, if_true]
    unfold Lists
    rw [referenceIds_declare]
    exact h.mention
  | usage symbol =>
    simp only [Definitions.record, hi, Resolution.decl?, Option.isSome_some, if_true]
    exact h.mention
  | unresolved => simpa [Definitions.record, hi, Resolution.decl?] using h

/-- Taking note of a target adds a reference only if there is none at its position, and else only
tells an object that it gets a value. -/
theorem assignTo_induction {P : Definitions → Prop}
    (hredefine : ∀ d oid p, P d → P (redefine d oid p))
    (hold : (d.reference? i.pos).isSome ∨ (oracle i).decl? = none → P d)
    (hnew : ∀ decl, d.reference? i.pos = none → (oracle i).decl? = some decl → P (d.mention i decl)) :
    P (d.assignTo oracle i) := by
  unfold assignTo
  extract_lets d'
  have hd' : P d' := by
    cases hr : d.reference? i.pos with
    | some r => simpa only [d', hr] using hold (.inl (hr ▸ rfl))
    | none =>
      cases hdecl : (oracle i).decl? with
      | none => simpa only [d', hr, hdecl] using hold (.inr hdecl)
      | some decl => simpa only [d', hr, hdecl] using hnew decl hr hdecl
  split
  · exact hredefine _ _ _ hd'
  · exact hd'

theorem Lists.assignTo (h : d.Lists ps) (i : Ident) :
    (d.assignTo oracle i).Lists (ps ++ oracle.resolved [i]) := by
  rw [Oracle.resolved_singleton]
  apply assignTo_induction (P := fun d => d.Lists _)
  · exact fun d oid p hd => hd
  · intro hold
    split
    · next hsome =>
      -- the position is taken already, so listing it once more changes nothing
      have hmem : i.pos ∈ ps := by
        rcases hold with hr | hnone
        · rw [← List.mem_eraseDups, ← h]
          by_contra hn
          rw [reference?_eq_none_iff.mpr hn] at hr
          cases hr
        · rw [hnone] at hsome
          cases hsome
      unfold Lists
      rw [eraseDups_append_singleton, if_pos hmem]
      exact h
    · rwa [List.append_nil]
  · intro decl _ hdecl
    rw [hdecl]
    exact h.mention

theorem Lists.foldl {α : Type} {step : Definitions → α → Definitions} {ident : α → Ident}
    (hstep : ∀ d ps x, Lists d ps → (step d x).Lists (ps ++ oracle.resolved [ident x]))
    (h : d.Lists ps) (xs : List α) :
    (xs.foldl step d).Lists (ps ++ oracle.resolved (xs.map ident)) := by
  induction xs generalizing d ps with
  | nil => simpa [Oracle.resolved] using h
  | cons x xs ih =>
    rw [List.foldl_cons, List.map_cons, ← List.singleton_append, Oracle.resolved_append,
      ← List.append_assoc]
    exact ih (hstep d ps x h)

theorem lists_find (g : Graph) (oracle : Oracle) :
    (find g oracle).Lists (oracle.resolved g.mentions) := by
  have hempty : empty.Lists [] := rfl
  have hrecorded : ((occurrences g).foldl (record oracle) empty).Lists
      ([] ++ oracle.resolved ((occurrences g).map Prod.snd)) :=
    hempty.foldl (fun _ _ x h => h.record x) (occurrences g)
  have hbound : ((occurrences g).foldl (record oracle) empty).bindAll.Lists
      ([] ++ oracle.resolved ((occurrences g).map Prod.snd)) := by
    unfold Lists
    rw [referenceIds_bindAll]
    exact hrecorded
  have hfound : (find g oracle).Lists
      ([] ++ oracle.resolved ((occurrences g).map Prod.snd) ++ oracle.resolved ((targets g).map id)) :=
    hbound.foldl (fun _ _ i h => h.assignTo i) (targets g)
  rw [List.nil_append, List.map_id, ← Oracle.resolved_append, map_snd_occurrences] at hfound
  exact hfound

theorem dense_find (g : Graph) (oracle : Oracle) :
    (find g oracle).Dense oracle ∧ (find g oracle).FullyLinked := by
  have hbound := ((recorded_empty oracle).foldl (occurrences g)).bindAll
  refine List.foldlRecOn (motive := fun d => d.Dense oracle ∧ d.FullyLinked) (targets g)
    (assignTo oracle) ⟨hbound.dense, hbound.linked⟩ ?_
  rintro d ⟨hdense, hlinked⟩ i -
  apply assignTo_induction (P := fun d => d.Dense oracle ∧ d.FullyLinked)
  · rintro d oid p ⟨hdense, hlinked⟩
    refine ⟨⟨hdense.index, hdense.nodup, hdense.known⟩, fun r hr => ?_⟩
    rw [objectIds_redefine]
    exact hlinked r hr
  · exact fun _ => ⟨hdense, hlinked⟩
  · exact fun decl _ hdecl => ⟨hdense.mention hdecl, hlinked.mention⟩

/-- There is one reference for each position where an identifier stands for a variable, and no other.
They are numbered in the order in which the positions are first met, found by position, and bound to
the variable that the oracle names just if that is an object of the function. -/
theorem references_in_order_of_mention (g : Graph) {oracle : Oracle}
    (horacle : ∀ i j : Ident, i.pos = j.pos → (oracle i).decl? = (oracle j).decl?) :
    (find g oracle).references.map (·.id) =
        ((g.mentions.filter fun i => (oracle i).decl?.isSome).map (·.pos)).eraseDups ∧
      ((find g oracle).references.map (·.id)).Nodup ∧
      (∀ p, p ∈ (find g oracle).references.map (·.id) ↔
        ∃ i ∈ g.mentions, i.pos = p ∧ (oracle i).decl?.isSome) ∧
      ∀ k r, (find g oracle).references[k]? = some r →
        r.index = k ∧ (find g oracle).reference? r.id = some r ∧
        (∀ i : Ident, i.pos = r.id → (oracle i).decl? = some r.oid) ∧
        (r.object = some r.oid ↔ ∃ o ∈ (find g oracle).objects, o.id = r.oid) ∧
        (r.object = none ↔ ¬∃ o ∈ (find g oracle).objects, o.id = r.oid) := by
  have horder := lists_find g oracle
  obtain ⟨hdense, hlinked⟩ := dense_find g oracle
  generalize find g oracle = d at horder hdense hlinked ⊢
  refine ⟨horder, hdense.nodup, fun p => ?_, fun k r hk => ?_⟩
  · change p ∈ d.referenceIds ↔ _
    rw [horder, List.mem_eraseDups, Oracle.resolved, List.mem_map]
    simp only [List.mem_filter]
    exact ⟨fun ⟨i, ⟨hi, hsome⟩, hp⟩ => ⟨i, hi, hp, hsome⟩,
      fun ⟨i, hi, hp, hsome⟩ => ⟨i, ⟨hi, hsome⟩, hp⟩⟩
  · have hr := List.mem_of_getElem? hk
    obtain ⟨hid, hdecl⟩ := hdense.known r hr
    have hobject := hlinked r hr
    have hmem : r.oid ∈ d.objectIds ↔ ∃ o ∈ d.objects, o.id = r.oid := List.mem_map
    rw [hobject, ← hmem]
    refine ⟨hdense.index hk, hdense.reference?_eq_some_iff.mpr ⟨hr, rfl⟩, fun i hi => ?_, ?_, ?_⟩
    · rw [horacle i r.ident (hi.trans hid), hdecl]
    · by_cases hoid : r.oid ∈ d.objectIds <;> simp [hoid]
    · by_cases hoid : r.oid ∈ d.objectIds <;> simp [hoid]

/-- A variable is used before the statement that declares it, a target is not among the identifiers
of its statement, and one name is declared outside. -/
def hoisted : Graph :=
  ⟨"hoisted", ⟨[], [⟨"n", 1⟩], []⟩,
    [⟨[.other [⟨"print", 3⟩, ⟨"x", 5⟩, ⟨"limit", 6⟩], .assign [⟨"x", 9⟩] [⟨"n", 1⟩],
      ⟨.incDec (.ident ⟨"n", 7⟩), []⟩], [], []⟩]⟩

def hoistedOracle : Oracle := .ofList
  [(1, .definition ⟨"n", 1⟩), (5, .usage ⟨"x", 9⟩), (6, .usage ⟨"limit", 2⟩),
    (7, .usage ⟨"n", 1⟩), (9, .definition ⟨"x", 9⟩)]

theorem references_in_order_of_mention_hoisted :
    (∀ i j : Ident, i.pos = j.pos → (hoistedOracle i).decl? = (hoistedOracle j).decl?) ∧
      (find hoisted hoistedOracle).references.map (fun r => (r.id, r.object)) =
        [(1, some 1), (5, some 9), (6, none), (9, some 9), (7, some 1)] ∧
      (find hoisted hoistedOracle).references.map (·.id) =
        ((hoisted.mentions.filter fun i => (hoistedOracle i).decl?.isSome).map (·.pos)).eraseDups := by
  have horacle : ∀ i j : Ident, i.pos = j.pos →
      (hoistedOracle i).decl? = (hoistedOracle j).decl? := by
    intro i j hij
    rw [hoistedOracle, Oracle.ofList, hij]
    rfl
  exact ⟨horacle, by decide +kernel, (references_in_order_of_mention hoisted horacle).1⟩

end Definitions

end Dependence
