import Dependence.Proofs.Aggregates
import Dependence.Profiling.Recorder

/-! A store holds, under each name, the sum of what it began with there and of all that was added to
it since. The order in which things were added shows neither in what is stored nor in what is
refused, as long as those of one name have one layout. -/

namespace Dependence.Store

variable {s s' s'' : Store} {a b : Aggregate} {call : Call} {calls calls' : List Call}
  {parts qs : List Aggregate} {o o' : Option Aggregate} {e : Error} {name : String}

theorem ext_get? (h : ∀ name, s.get? name = s'.get? name) : s = s' := by
  cases s
  cases s'
  exact congrArg Store.mk (Std.ExtTreeMap.ext_getElem? h)

@[simp] theorem get?_empty (name : String) : empty.get? name = none :=
  Std.ExtTreeMap.getElem?_empty

theorem get?_insert (s : Store) (a : Aggregate) (name : String) :
    (s.insert a).get? name = if a.layout.name = name then some a else s.get? name := by
  simp only [get?, insert, Std.ExtTreeMap.getElem?_insert, Std.compare_eq_iff_eq]

structure Sized (s : Store) : Prop where
  named : ∀ name a, s.get? name = some a → a.layout.name = name
  sized : ∀ name a, s.get? name = some a → a.Sized

theorem sized_empty : empty.Sized := ⟨by simp, by simp⟩

theorem Sized.insert (hs : s.Sized) (ha : a.Sized) : (s.insert a).Sized := by
  constructor <;> intro name b hb <;> rw [get?_insert] at hb <;> split at hb
  · next hname => exact Option.some.inj hb ▸ hname
  · exact hs.named name b hb
  · exact Option.some.inj hb ▸ ha
  · exact hs.sized name b hb

def verdict (s : Store) (a : Aggregate) : Except Error Unit :=
  match s.get? a.layout.name with
  | none => .ok ()
  | some stored => stored.checkMergeable a

theorem merge_of_error (h : s.verdict a = .error e) : s.merge a = (s, .error e) := by
  unfold verdict at h
  unfold merge
  split at h
  · cases h
  · next stored hstored => simp only [hstored, Aggregate.merge_of_error h, put]

def Sums : Option Aggregate → List Aggregate → Prop
  | none, parts => parts = []
  | some a, parts => a.IsSum parts

theorem Sums.flatten (xs : List Aggregate) {ys : List Aggregate}
    (ho : Sums o (xs ++ (o'.toList ++ ys))) (ho' : Sums o' qs) : Sums o (xs ++ (qs ++ ys)) := by
  cases o' with
  | none => exact ho' ▸ ho
  | some b =>
    cases o with
    | none => simp [Sums] at ho
    | some a => exact Aggregate.IsSum.flatten ho ho'

theorem Sums.unique {xs ys : List Aggregate} (ho : Sums o xs) (ho' : Sums o' ys) (h : xs.Perm ys)
    (hlayout : xs.head?.map (·.layout) = ys.head?.map (·.layout)) : o = o' := by
  cases o with
  | none =>
    obtain rfl : xs = [] := ho
    cases o' with
    | none => rfl
    | some b =>
      have hnone := ho'.layout
      simp [h.nil_eq.symm] at hnone
  | some a =>
    cases o' with
    | none =>
      obtain rfl : ys = [] := ho'
      have hnone := ho.layout
      simp [h.eq_nil] at hnone
    | some b =>
      rw [ho.layout, ho'.layout] at hlayout
      rw [ho.unique ho' h (Option.some.inj hlayout)]

theorem map_layout_head?_eq {xs ys : List Aggregate} (h : xs.Perm ys)
    (hsame : ∀ p ∈ xs, ∀ q ∈ xs, p.layout = q.layout) :
    xs.head?.map (·.layout) = ys.head?.map (·.layout) := by
  cases xs with
  | nil => rw [h.nil_eq]
  | cons p xs =>
    cases ys with
    | nil => simp at h
    | cons q ys =>
      exact congrArg some (hsame p List.mem_cons_self q (h.mem_iff.mpr List.mem_cons_self))

/-- What is in `s'` is what was in `s` and the aggregates added to it. -/
def Adds (s s' : Store) (parts : List Aggregate) : Prop :=
  ∀ name, Sums (s'.get? name) ((s.get? name).toList ++ parts.filter (·.layout.name = name))

theorem Sized.adds_nil (hs : s.Sized) : s.Adds s [] := by
  intro name
  cases hget : s.get? name with
  | none => exact rfl
  | some a => exact (hs.sized name a hget).isSum

theorem Adds.trans (h : s.Adds s' parts) (h' : s'.Adds s'' qs) : s.Adds s'' (parts ++ qs) := by
  intro name
  rw [List.filter_append, ← List.append_assoc]
  exact (h' name).flatten [] (h name)

theorem Adds.sized (h : s.Adds s' parts) (hs : s.Sized) : s'.Sized := by
  constructor <;> intro name a ha <;> have hsum := h name <;> rw [ha] at hsum
  · obtain ⟨p, hp, hlayout⟩ := hsum.exists_layout
    rw [← hlayout]
    rcases List.mem_append.mp hp with hp | hp
    · exact hs.named name p (Option.mem_toList.mp hp)
    · exact of_decide_eq_true (List.mem_filter.mp hp).2
  · exact hsum.sized

theorem adds_insert (hs : s.Sized) (hname : b.layout.name = a.layout.name)
    (hsum : b.IsSum ((s.get? a.layout.name).toList ++ [a])) : s.Adds (s.insert b) [a] := by
  intro name
  rw [get?_insert]
  by_cases h : a.layout.name = name
  · subst h
    simpa [hname, Sums] using hsum
  · simpa [hname, h] using hs.adds_nil name

theorem merge_of_ok (hs : s.Sized) (ha : a.Sized) (h : s.verdict a = .ok ()) :
    ∃ s', s.merge a = (s', .ok ()) ∧ s.Adds s' [a] := by
  unfold verdict at h
  unfold merge
  cases hget : s.get? a.layout.name with
  | none => exact ⟨_, rfl, adds_insert hs rfl (by simpa [hget] using ha.isSum)⟩
  | some stored =>
    simp only [hget] at h
    obtain ⟨b, hb, hsum⟩ := Aggregate.isSum_of_merge (hs.sized _ _ hget) ha h
    have hlayout : stored.layout = b.layout := Option.some.inj hsum.layout
    have hname : b.layout.name = a.layout.name := hlayout ▸ hs.named _ _ hget
    refine ⟨_, by simp only [hb, put], adds_insert hs hname ?_⟩
    simpa [hget] using hsum

def Compatible (a b : Aggregate) : Prop :=
  a.layout.name = b.layout.name →
    a.layout.id = b.layout.id ∧ a.layout.nodeCount = b.layout.nodeCount

def Agree (a b : Aggregate) : Prop := a.layout.name = b.layout.name → a.layout = b.layout

theorem Agree.compatible (h : Agree a b) : Compatible a b := fun hname => by
  rw [h hname]
  exact ⟨rfl, rfl⟩

/-- Adding some aggregates changes nothing about which others are refused. -/
theorem Adds.verdict_eq (h : s.Adds s' parts) (hs : s.Sized) (ha : a.Sized)
    (hcompatible : ∀ p ∈ parts, Compatible p a) : s'.verdict a = s.verdict a := by
  have hsum := h a.layout.name
  unfold verdict
  cases hget : s.get? a.layout.name with
  | some b =>
    cases hget' : s'.get? a.layout.name with
    | none => simp [hget, hget', Sums] at hsum
    | some c =>
      rw [hget, hget'] at hsum
      exact Aggregate.checkMergeable_congr hsum.sized (hs.sized _ _ hget)
        (Option.some.inj hsum.layout).symm
  | none =>
    cases hget' : s'.get? a.layout.name with
    | none => rfl
    | some c =>
      -- what is there now has the layout of one of the parts
      rw [hget, hget'] at hsum
      obtain ⟨p, hp, hlayout⟩ := hsum.exists_layout
      obtain ⟨hmem, hname⟩ := List.mem_filter.mp hp
      obtain ⟨hid, hnodes⟩ := hcompatible p hmem (of_decide_eq_true hname)
      rw [Aggregate.checkMergeable_iff hsum.sized ha, ← hlayout]
      exact ⟨hid.symm, hnodes.symm⟩

/-- Neither the order nor the way in which aggregates are added shows in the store. -/
theorem Adds.unique (h : s.Adds s' parts) (h' : s.Adds s'' qs) (hperm : parts.Perm qs)
    (hagree : ∀ p ∈ parts, ∀ q ∈ parts, Agree p q) : s' = s'' := by
  refine ext_get? fun name => ?_
  have hfilter := hperm.filter (·.layout.name = name)
  refine (h name).unique (h' name) (hfilter.append_left _) ?_
  cases s.get? name with
  | some b => rfl
  | none =>
    refine map_layout_head?_eq hfilter fun p hp q hq => ?_
    obtain ⟨hp, hpname⟩ := List.mem_filter.mp hp
    obtain ⟨hq, hqname⟩ := List.mem_filter.mp hq
    exact hagree p hp q hq ((of_decide_eq_true hpname).trans (of_decide_eq_true hqname).symm)

theorem fold_eq_merge (h : call.Sized) : s.fold call = s.merge (.ofCall call) := by
  have hname : (Aggregate.ofCall call).layout.name = call.layout.name := rfl
  unfold fold getOrCreate merge
  rw [hname]
  cases hget : s.get? call.layout.name with
  | some stored => rfl
  | none =>
    have hinsert : (s.insert (.new call.layout)).insert (.ofCall call) =
        s.insert (.ofCall call) := by
      refine ext_get? fun name => ?_
      simp only [get?_insert, Aggregate.new, hname]
      split <;> rfl
    simp only [Aggregate.update_new h, put, hinsert]

theorem fold_snd (hs : s.Sized) (h : call.Sized) :
    (s.fold call).2 = s.verdict (.ofCall call) := by
  rw [fold_eq_merge h]
  cases hverdict : s.verdict (.ofCall call) with
  | error e => rw [merge_of_error hverdict]
  | ok =>
    obtain ⟨s', hmerge, -⟩ := merge_of_ok hs (Aggregate.sized_ofCall h) hverdict
    rw [hmerge]

structure Foldable (calls : List Call) : Prop where
  sized : ∀ call ∈ calls, call.Sized
  agree : ∀ call ∈ calls, ∀ other ∈ calls, call.layout.name = other.layout.name →
    call.layout = other.layout

theorem Foldable.mono (h : Foldable calls) (hsub : calls' ⊆ calls) : Foldable calls' where
  sized c hc := h.sized c (hsub hc)
  agree c hc d hd := h.agree c (hsub hc) d (hsub hd)

theorem Foldable.agree_ofCall (h : Foldable calls) :
    ∀ p ∈ calls.map .ofCall, ∀ q ∈ calls.map .ofCall, Agree p q := by
  simp only [List.forall_mem_map]
  exact h.agree

def taken (s : Store) (calls : List Call) : List Call :=
  calls.filter fun call => s.verdict (.ofCall call) = .ok ()

theorem foldAll_spec (hs : s.Sized) (hcalls : Foldable calls) :
    s.Adds (Session.foldAll s calls).1 ((s.taken calls).map .ofCall) ∧
      ((Session.foldAll s calls).2 = .ok () ↔
        ∀ call ∈ calls, s.verdict (.ofCall call) = .ok ()) := by
  induction calls generalizing s with
  | nil => exact ⟨hs.adds_nil, by simp [Session.foldAll]⟩
  | cons call calls ih =>
    have htail : Foldable calls := hcalls.mono (List.subset_cons_self call calls)
    have hcall : call.Sized := hcalls.sized call List.mem_cons_self
    unfold Session.foldAll
    rw [fold_eq_merge hcall]
    cases hverdict : s.verdict (.ofCall call) with
    | error e =>
      obtain ⟨hadds, -⟩ := ih hs htail
      rw [merge_of_error hverdict]
      exact ⟨by simpa [taken, hverdict] using hadds, by simp [hverdict]⟩
    | ok =>
      obtain ⟨s', hmerge, hadds⟩ := merge_of_ok hs (Aggregate.sized_ofCall hcall) hverdict
      have hsame : ∀ c ∈ calls, s'.verdict (.ofCall c) = s.verdict (.ofCall c) := by
        intro c hc
        have hmem := List.mem_cons_of_mem call hc
        refine hadds.verdict_eq hs (Aggregate.sized_ofCall (hcalls.sized c hmem)) fun p hp => ?_
        rw [List.mem_singleton.mp hp]
        exact Agree.compatible (hcalls.agree call List.mem_cons_self c hmem)
      have htaken : s'.taken calls = s.taken calls :=
        List.filter_congr fun c hc => by rw [hsame c hc]
      obtain ⟨hrest, hresult⟩ := ih (hadds.sized hs) htail
      rw [hmerge]
      constructor
      · have hboth := hadds.trans (htaken ▸ hrest)
        simpa [taken, hverdict] using hboth
      · refine hresult.trans ?_
        rw [List.forall_mem_cons, and_iff_right hverdict]
        exact forall₂_congr fun c hc => by rw [hsame c hc]

theorem foldAll_perm (hs : s.Sized) (hcalls : Foldable calls) (hperm : calls.Perm calls') :
    (Session.foldAll s calls).1 = (Session.foldAll s calls').1 := by
  have hcalls' : Foldable calls' := hcalls.mono hperm.symm.subset
  have htaken : Foldable (s.taken calls) := hcalls.mono (List.filter_subset_self calls)
  exact (foldAll_spec hs hcalls).1.unique (foldAll_spec hs hcalls').1 ((hperm.filter _).map _)
    htaken.agree_ofCall

theorem foldAll_cons (s : Store) (call : Call) (calls : List Call) :
    (Session.foldAll s (call :: calls)).1 = (Session.foldAll (s.fold call).1 calls).1 := by
  rw [Session.foldAll]
  obtain ⟨store, result⟩ := s.fold call
  cases result <;> rfl

theorem foldAll_append (s : Store) (calls calls' : List Call) :
    (Session.foldAll s (calls ++ calls')).1 =
      (Session.foldAll (Session.foldAll s calls).1 calls').1 := by
  induction calls generalizing s with
  | nil => rfl
  | cons call calls ih => rw [List.cons_append, foldAll_cons, foldAll_cons, ih]

end Dependence.Store
