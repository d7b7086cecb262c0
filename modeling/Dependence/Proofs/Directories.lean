import Dependence.Proofs.ReferenceOrder
import Dependence.Reaching

/-! The tables of a function with directories. An entry is found through its place, which a directory
keeps under its position, and a place past the end of a table is a fault. No place is ever out of range,
whatever the oracle answers, and what is found is what a search through the tables finds. -/

namespace Dependence

structure Table (α : Type) where
  entries : List α
  places : Std.ExtTreeMap Pos Nat compare

namespace Table

variable {α : Type} {key : α → Pos} {t : Table α} {f : α → α} {k : Nat} {p : Pos} {x : α}

def empty : Table α := ⟨[], ∅⟩

def entry (t : Table α) (k : Nat) : Except Error α := fetch t.entries k

def modify (t : Table α) (k : Nat) (f : α → α) : Except Error (Table α) := do
  let x ← t.entry k
  return { t with entries := t.entries.set k (f x) }

def lookup (t : Table α) (p : Pos) : Except Error (Option α) :=
  match t.places[p]? with
  | some k => return some (← t.entry k)
  | none => .ok none

def push (t : Table α) (p : Pos) (x : α) : Table α :=
  ⟨t.entries ++ [x], t.places.insert p t.entries.length⟩

/-- The directory has the place of the first entry of each position, and no other. -/
def Indexes (key : α → Pos) (t : Table α) : Prop :=
  ∀ p, t.places[p]? = t.entries.findIdx? (key · == p)

theorem indexes_empty : (empty : Table α).Indexes key := by
  intro p
  simp [empty]

theorem Indexes.congr (h : t.Indexes key) {entries : List α}
    (hkeys : entries.map key = t.entries.map key) :
    Indexes key { t with entries } := by
  intro p
  have hfind : ∀ xs : List α, xs.findIdx? (key · == p) = (xs.map key).findIdx? (· == p) := by
    intro xs
    rw [List.findIdx?_map]
    rfl
  simp only [h p, hfind, hkeys]

theorem Indexes.exists_entry (h : t.Indexes key) (hk : t.places[p]? = some k) :
    ∃ x, t.entries[k]? = some x ∧ t.entry k = .ok x ∧ key x = p ∧
      t.entries.find? (key · == p) = some x := by
  rw [h p] at hk
  obtain ⟨hlt, hkey, -⟩ := List.findIdx?_eq_some_iff_getElem.mp hk
  have hx := List.getElem?_eq_getElem hlt
  refine ⟨_, hx, fetch_of_getElem? hx, by simpa using hkey, ?_⟩
  rw [List.find?_eq_bind_findIdx?_getElem?, hk, Option.bind_some, hx]

theorem Indexes.find?_eq_none (h : t.Indexes key) (hk : t.places[p]? = none) :
    t.entries.find? (key · == p) = none := by
  rw [h p] at hk
  rw [List.find?_eq_bind_findIdx?_getElem?, hk, Option.bind_none]

theorem Indexes.lookup_eq (h : t.Indexes key) (p : Pos) :
    t.lookup p = .ok (t.entries.find? (key · == p)) := by
  cases hk : t.places[p]? with
  | none => rw [lookup, hk, h.find?_eq_none hk]
  | some k =>
    obtain ⟨x, -, hentry, -, hfind⟩ := h.exists_entry hk
    rw [lookup, hk, hfind]
    simp only [hentry]
    rfl

theorem Indexes.isSome_places (h : t.Indexes key) (p : Pos) :
    (t.places[p]?).isSome = (t.entries.find? (key · == p)).isSome := by
  cases hk : t.places[p]? with
  | none =>
    rw [h.find?_eq_none hk]
    rfl
  | some k =>
    obtain ⟨x, -, -, -, hfind⟩ := h.exists_entry hk
    rw [hfind]
    rfl

theorem Indexes.push (h : t.Indexes key) (hk : t.places[key x]? = none) :
    (t.push (key x) x).Indexes key := by
  intro p
  simp only [Table.push, Std.ExtTreeMap.getElem?_insert, List.findIdx?_append, ← h p]
  by_cases hp : key x = p
  · subst hp
    simp [hk]
  · have hcompare : ¬compare (key x) p = .eq := fun heq => hp (Nat.compare_eq_eq.mp heq)
    simp [hcompare, hp]

theorem Indexes.modify_ok (h : t.Indexes key) (hnodup : (t.entries.map key).Nodup)
    (hk : t.places[p]? = some k) (f : α → α) :
    t.modify k f = .ok { t with entries := t.entries.map fun x => if key x = p then f x else x } := by
  obtain ⟨x, hx, hentry, rfl, -⟩ := h.exists_entry hk
  have hset : t.entries.set k (f x) = t.entries.map fun y => if key y = key x then f y else y := by
    refine List.ext_getElem? fun j => ?_
    rw [List.getElem?_set, List.getElem?_map]
    by_cases hj : k = j
    · subst hj
      rw [if_pos rfl, if_pos (List.getElem?_eq_some_iff.mp hx).1, hx, Option.map_some, if_pos rfl]
    · rw [if_neg hj]
      cases hy : t.entries[j]? with
      | none => rfl
      | some y =>
        have hlt : j < (t.entries.map key).length := by
          simpa using (List.getElem?_eq_some_iff.mp hy).1
        -- an entry elsewhere with this key would be a second one
        have hne : key y ≠ key x := fun heq => hj
          ((List.getElem?_inj hlt hnodup).mp (by simp [hx, hy, heq])).symm
        simp [hne]
  rw [modify, hentry, ← hset]
  rfl

theorem Indexes.map (h : t.Indexes key) (hf : ∀ x, key (f x) = key x) :
    Indexes key { t with entries := t.entries.map f } := by
  apply h.congr
  rw [List.map_map]
  exact List.map_congr_left fun x _ => hf x

end Table

namespace Definitions

variable {oracle : Oracle} {d : Definitions} {i : Ident} {oid p : Pos}

theorem object?_eq_none_iff : d.object? oid = none ↔ oid ∉ d.objectIds := by
  rw [← object?_isSome_iff, Option.not_isSome_iff_eq_none]

theorem redefine_of_notMem (h : oid ∉ d.objectIds) : d.redefine oid p = d := by
  have hmap : (d.objects.map fun o =>
      if o.id = oid then { o with redefs := o.redefs.insert p } else o) = d.objects.map id := by
    refine List.map_congr_left fun o ho => if_neg ?_
    exact fun heq => h (heq ▸ List.mem_map_of_mem ho)
  rw [List.map_id] at hmap
  simp only [redefine, hmap]

def assignAt (d : Definitions) (p : Pos) : Definitions :=
  ((d.reference? p).bind (·.object)).elim d (d.redefine · p)

theorem assignTo_of_known (h : (d.reference? i.pos).isSome) : d.assignTo oracle i = d.assignAt i.pos := by
  obtain ⟨r, hr⟩ := Option.isSome_iff_exists.mp h
  simp only [assignTo, assignAt, hr, Option.bind_some]
  cases r.object <;> rfl

theorem assignTo_of_unresolved (h : d.reference? i.pos = none) (hdecl : (oracle i).decl? = none) :
    d.assignTo oracle i = d := by
  simp only [assignTo, h, hdecl, Option.bind_none]

theorem assignTo_of_new (h : d.reference? i.pos = none) (hdecl : (oracle i).decl? = some oid) :
    d.assignTo oracle i = (d.mention i oid).assignAt i.pos := by
  simp only [assignTo, h, hdecl, assignAt]
  cases ((d.mention i oid).reference? i.pos).bind (·.object) <;> rfl

end Definitions

structure Registry where
  objects : Table Object
  references : Table Reference

namespace Registry

variable {oracle : Oracle} {t : Registry} {k : Nat} {i : Ident} {oid p : Pos}

def empty : Registry := ⟨.empty, .empty⟩

def mention (t : Registry) (i : Ident) (oid : Pos) : Registry × Nat :=
  match t.references.places[i.pos]? with
  | some k => (t, k)
  | none =>
    let k := t.references.entries.length
    let object := if (t.objects.places[oid]?).isSome then some oid else none
    ({ t with references := t.references.push i.pos ⟨i.pos, k, i, oid, object⟩ }, k)

def redefine (t : Registry) (k : Nat) (p : Pos) : Except Error Registry := do
  return { t with objects := ← t.objects.modify k fun o => { o with redefs := o.redefs.insert p } }

def declare (t : Registry) (l : Location) (i : Ident) (symbol : Symbol) : Except Error Registry :=
  let t := (t.mention i symbol.decl).1
  match t.objects.places[symbol.decl]? with
  | some k => t.redefine k i.pos
  | none =>
    .ok { t with objects := t.objects.push symbol.decl ⟨symbol.decl, i, symbol, l, {i.pos}⟩ }

def record (oracle : Oracle) (t : Registry) (x : Location × Ident) : Except Error Registry :=
  match oracle x.2 with
  | .definition symbol => t.declare x.1 x.2 symbol
  | .usage symbol => .ok (t.mention x.2 symbol.decl).1
  | .unresolved => .ok t

def bindAll (t : Registry) : Registry :=
  { t with references := { t.references with
      entries := t.references.entries.map fun r =>
        if (t.objects.places[r.oid]?).isSome then { r with object := some r.oid } else r } }

def assignAt (t : Registry) (k : Nat) : Except Error Registry := do
  let r ← t.references.entry k
  match r.object.bind (t.objects.places[·]?) with
  | some place => t.redefine place r.id
  | none => return t

def assignTo (oracle : Oracle) (t : Registry) (target : Ident) : Except Error Registry :=
  match t.references.places[target.pos]?, (oracle target).decl? with
  | some k, _ => t.assignAt k
  | none, some decl => (t.mention target decl).1.assignAt (t.mention target decl).2
  | none, none => .ok t

def find (g : Graph) (oracle : Oracle) : Except Error Registry := do
  let t ← (Definitions.occurrences g).foldlM (record oracle) empty
  (Definitions.targets g).foldlM (assignTo oracle) t.bindAll

def definitions (t : Registry) : Definitions := ⟨t.objects.entries, t.references.entries⟩

structure Indexed (t : Registry) : Prop where
  objects : t.objects.Indexes (·.id)
  references : t.references.Indexes (·.id)
  nodup : t.definitions.objectIds.Nodup

def Simulates (outcome : Except Error Registry) (d : Definitions) : Prop :=
  ∃ t, outcome = .ok t ∧ t.Indexed ∧ t.definitions = d

theorem Indexed.exists_reference (h : t.Indexed) (hk : t.references.places[p]? = some k) :
    ∃ r, t.references.entry k = .ok r ∧ r.id = p ∧ t.definitions.reference? p = some r := by
  obtain ⟨r, -, hentry, hid, hfind⟩ := h.references.exists_entry hk
  exact ⟨r, hentry, hid, hfind⟩

theorem Indexed.reference?_eq_none (h : t.Indexed) (hk : t.references.places[p]? = none) :
    t.definitions.reference? p = none := h.references.find?_eq_none hk

theorem Indexed.object?_eq_none (h : t.Indexed) (hk : t.objects.places[oid]? = none) :
    t.definitions.object? oid = none := h.objects.find?_eq_none hk

theorem Indexed.isSome_object (h : t.Indexed) (oid : Pos) :
    (t.objects.places[oid]?).isSome = (t.definitions.object? oid).isSome :=
  h.objects.isSome_places oid

theorem Indexed.mention (h : t.Indexed) (i : Ident) (oid : Pos) :
    (t.mention i oid).1.Indexed ∧ (t.mention i oid).1.definitions = t.definitions.mention i oid ∧
      (t.mention i oid).1.references.places[i.pos]? = some (t.mention i oid).2 := by
  unfold Registry.mention
  cases hk : t.references.places[i.pos]? with
  | some k =>
    obtain ⟨r, -, -, hr⟩ := h.exists_reference hk
    exact ⟨h, (Definitions.mention_of_some hr).symm, hk⟩
  | none =>
    refine ⟨⟨h.objects, ?_, h.nodup⟩, ?_, by simp [Table.push]⟩
    · exact h.references.push (x := ⟨i.pos, _, i, oid, _⟩) hk
    · rw [Definitions.mention_of_none (h.reference?_eq_none hk)]
      simp only [Definitions.fresh, ← h.isSome_object oid]
      rfl

theorem Indexed.redefine (h : t.Indexed) (hk : t.objects.places[oid]? = some k) (p : Pos) :
    Simulates (t.redefine k p) (t.definitions.redefine oid p) := by
  have hmodify := h.objects.modify_ok h.nodup hk fun o => { o with redefs := o.redefs.insert p }
  have hmap := h.objects.map (f := fun o =>
    if o.id = oid then { o with redefs := o.redefs.insert p } else o) fun o => by split <;> rfl
  rw [Registry.redefine, hmodify]
  refine ⟨_, rfl, ⟨hmap, h.references, ?_⟩, rfl⟩
  have hids : (t.definitions.redefine oid p).objectIds = t.definitions.objectIds :=
    Definitions.objectIds_redefine
  exact hids ▸ h.nodup

theorem Indexed.declare (h : t.Indexed) (l : Location) (i : Ident) (symbol : Symbol) :
    Simulates (t.declare l i symbol) (t.definitions.declare l i symbol) := by
  obtain ⟨hm, hdefs, -⟩ := h.mention i symbol.decl
  have hsome := hm.isSome_object symbol.decl
  simp only [Registry.declare, Definitions.declare, ← hdefs]
  generalize (t.mention i symbol.decl).1 = m at hm hsome ⊢
  cases hk : m.objects.places[symbol.decl]? with
  | some k =>
    rw [hk] at hsome
    obtain ⟨o, ho⟩ := Option.isSome_iff_exists.mp hsome.symm
    simp only [ho]
    exact hm.redefine hk i.pos
  | none =>
    have hnone := hm.object?_eq_none hk
    rw [hnone]
    refine ⟨_, rfl, ⟨?_, hm.references, ?_⟩, rfl⟩
    · exact hm.objects.push (x := ⟨symbol.decl, i, symbol, l, {i.pos}⟩) hk
    · have hnew := Definitions.object?_eq_none_iff.mp hnone
      have hids : Definitions.objectIds
          ⟨m.definitions.objects ++ [⟨symbol.decl, i, symbol, l, {i.pos}⟩], m.definitions.references⟩ =
            m.definitions.objectIds ++ [symbol.decl] := by simp [Definitions.objectIds]
      exact hids ▸ List.concat_eq_append ▸ hm.nodup.concat hnew

theorem Indexed.record (h : t.Indexed) (oracle : Oracle) (x : Location × Ident) :
    Simulates (t.record oracle x) (t.definitions.record oracle x) := by
  obtain ⟨l, i⟩ := x
  cases hi : oracle i with
  | definition symbol =>
    simp only [Registry.record, Definitions.record, hi]
    exact h.declare l i symbol
  | usage symbol =>
    obtain ⟨hm, hdefs, -⟩ := h.mention i symbol.decl
    simp only [Registry.record, Definitions.record, hi]
    exact ⟨_, rfl, hm, hdefs⟩
  | unresolved =>
    simp only [Registry.record, Definitions.record, hi]
    exact ⟨t, rfl, h, rfl⟩

theorem Indexed.bindAll (h : t.Indexed) :
    t.bindAll.Indexed ∧ t.bindAll.definitions = t.definitions.bindAll := by
  refine ⟨⟨h.objects, h.references.map fun r => by split <;> rfl, h.nodup⟩, ?_⟩
  simp only [Registry.bindAll, Definitions.bindAll, h.isSome_object]
  rfl

theorem Indexed.assignAt (h : t.Indexed) (hk : t.references.places[p]? = some k) :
    Simulates (t.assignAt k) (t.definitions.assignAt p) := by
  obtain ⟨r, hentry, rfl, hr⟩ := h.exists_reference hk
  rw [Registry.assignAt, hentry, Definitions.assignAt, hr, Option.bind_some]
  simp only [bind, Except.bind]
  cases r.object with
  | none => exact ⟨t, rfl, h, rfl⟩
  | some oid =>
    simp only [Option.bind_some, Option.elim_some]
    cases hplace : t.objects.places[oid]? with
    | some place => exact h.redefine hplace r.id
    | none =>
      -- without an object of this id the search for one changes nothing either
      have hnew := Definitions.object?_eq_none_iff.mp (h.object?_eq_none hplace)
      exact ⟨t, rfl, h, (Definitions.redefine_of_notMem hnew).symm⟩

theorem Indexed.assignTo (h : t.Indexed) (oracle : Oracle) (target : Ident) :
    Simulates (t.assignTo oracle target) (t.definitions.assignTo oracle target) := by
  unfold Registry.assignTo
  cases hk : t.references.places[target.pos]? with
  | some k =>
    obtain ⟨r, -, -, hr⟩ := h.exists_reference hk
    rw [Definitions.assignTo_of_known (by rw [hr]; rfl)]
    exact h.assignAt hk
  | none =>
    have hnone := h.reference?_eq_none hk
    cases hdecl : (oracle target).decl? with
    | none => exact ⟨t, rfl, h, (Definitions.assignTo_of_unresolved hnone hdecl).symm⟩
    | some decl =>
      obtain ⟨hm, hdefs, hplace⟩ := h.mention target decl
      rw [Definitions.assignTo_of_new hnone hdecl, ← hdefs]
      exact hm.assignAt hplace

theorem Indexed.foldlM {α : Type} {step : Registry → α → Except Error Registry}
    {search : Definitions → α → Definitions}
    (hstep : ∀ t x, Indexed t → Simulates (step t x) (search t.definitions x)) (h : t.Indexed)
    (xs : List α) : Simulates (xs.foldlM step t) (xs.foldl search t.definitions) := by
  induction xs generalizing t with
  | nil => exact ⟨t, rfl, h, rfl⟩
  | cons x xs ih =>
    obtain ⟨t', hok, h', hdefs⟩ := hstep t x h
    rw [List.foldlM_cons, hok, List.foldl_cons, ← hdefs]
    exact ih h'

theorem simulates_find (g : Graph) (oracle : Oracle) :
    Simulates (find g oracle) (Definitions.find g oracle) := by
  have hempty : empty.Indexed :=
    ⟨Table.indexes_empty, Table.indexes_empty, List.nodup_nil⟩
  obtain ⟨t, hok, h, hdefs⟩ := hempty.foldlM (fun t x ht => ht.record oracle x)
    (Definitions.occurrences g)
  obtain ⟨hbound, hbdefs⟩ := h.bindAll
  rw [find, hok, Definitions.find]
  have hfound := hbound.foldlM (fun t i ht => ht.assignTo oracle i) (Definitions.targets g)
  rw [hbdefs, hdefs] at hfound
  exact hfound

def objectOf? (t : Registry) (r : Reference) : Except Error (Option Object) :=
  match r.object with
  | some id => t.objects.lookup id
  | none => .ok none

def kill (t : Registry) (kills : BitSet) (p : Pos) : Except Error BitSet := do
  match ← t.references.lookup p with
  | some other => return (← kills.insert other.index).1
  | none => return kills

def addTarget (t : Registry) (gk : GenKill) (target : Ident) : Except Error GenKill := do
  match ← t.references.lookup target.pos with
  | none => return gk
  | some reference =>
    match ← t.objectOf? reference with
    | none => return gk
    | some object =>
      let (gens, _) ← gk.gens.insert reference.index
      let kills ← (object.redefs.toList.filter (· ≠ reference.id)).foldlM t.kill gk.kills
      return ⟨gens, kills⟩

def genKill (t : Registry) (g : Graph) (l : Location) : Except Error GenKill :=
  (g.definedAt l).foldlM t.addTarget (.empty t.references.entries.length)

theorem Indexed.lookup_reference (h : t.Indexed) (p : Pos) :
    t.references.lookup p = .ok (t.definitions.reference? p) := h.references.lookup_eq p

theorem Indexed.objectOf?_eq (h : t.Indexed) (r : Reference) :
    t.objectOf? r = .ok (t.definitions.objectOf? r) := by
  unfold Registry.objectOf? Definitions.objectOf?
  cases r.object with
  | none => rfl
  | some id => exact h.objects.lookup_eq id

theorem Indexed.foldlM_kill (h : t.Indexed) (kills : BitSet) (ps : List Pos) :
    ps.foldlM t.kill kills = (ps.filterMap t.definitions.reference?).foldlM
      (fun kills other => return (← kills.insert other.index).1) kills := by
  rw [List.foldlM_filterMap]
  congr 1
  funext kills p
  rw [kill, h.lookup_reference]
  cases t.definitions.reference? p <;> rfl

theorem Indexed.addTarget_eq (h : t.Indexed) : t.addTarget = t.definitions.addTarget := by
  funext gk target
  rw [Registry.addTarget, Definitions.addTarget, h.lookup_reference]
  simp only [bind, Except.bind]
  cases t.definitions.reference? target.pos with
  | none => rfl
  | some reference =>
    simp only [h.objectOf?_eq]
    cases t.definitions.objectOf? reference with
    | none => rfl
    | some object =>
      simp only [h.foldlM_kill]
      rfl

theorem Indexed.genKill_eq (h : t.Indexed) : t.genKill = t.definitions.genKill := by
  funext g l
  rw [Registry.genKill, h.addTarget_eq]
  rfl

end Registry

end Dependence
