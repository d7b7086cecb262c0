import Dependence.Proofs.CallStates
import Dependence.Profiling.Aggregate

/-! An aggregate is the sum of what was added to it: it has the layout of the first part, its calls
are those of all parts together, and a block depends on a branch if it does so in some part. Parts
are aggregates themselves, one call being an aggregate of its own, so sums of sums are sums. -/

namespace Dependence.Aggregate

variable {a b c : Aggregate} {call : Call} {e : Error} {parts qs xs ys : List Aggregate}
  {n x y : Nat}

def ofCall (call : Call) : Aggregate := ⟨call.layout, 1, call.preds⟩

def Sized (a : Aggregate) : Prop := BitSet.AllSized a.layout.nodeCount a.preds

def DependsOn (a : Aggregate) (x y : Nat) : Prop := BitSet.MemAt a.preds x y

theorem sized_new (l : Layout) : (new l).Sized := BitSet.allSized_replicate _

theorem sized_ofCall (h : call.Sized) : (ofCall call).Sized := h.allSized

theorem Sized.ext (ha : a.Sized) (hb : b.Sized) (hlayout : a.layout = b.layout)
    (hcalls : a.calls = b.calls) (h : ∀ x y, a.DependsOn x y ↔ b.DependsOn x y) : a = b := by
  have hpreds : a.preds = b.preds := BitSet.AllSized.ext ha (hlayout ▸ hb) h
  cases a
  cases b
  simp_all

theorem unions_ok {ss ts : List BitSet} (hlength : ss.length = ts.length)
    (hs : ∀ s ∈ ss, s.Sized n) (ht : ∀ t ∈ ts, t.Sized n) :
    ∃ us, unions ss ts = .ok us ∧ us.length = ss.length ∧ (∀ u ∈ us, u.Sized n) ∧
      ∀ x y, BitSet.MemAt us x y ↔ BitSet.MemAt ss x y ∨ BitSet.MemAt ts x y := by
  induction ss generalizing ts with
  | nil =>
    obtain rfl := List.eq_nil_of_length_eq_zero hlength.symm
    exact ⟨[], rfl, rfl, by simp, by simp [BitSet.MemAt]⟩
  | cons s ss ih =>
    cases ts with
    | nil => simp at hlength
    | cons t ts =>
      rw [List.forall_mem_cons] at hs ht
      have hcap : s.capacity = t.capacity := hs.1.2.trans ht.1.2.symm
      obtain ⟨u, changed, hunion, hvalid, hucap, hmem⟩ := hs.1.1.union ht.1.1 hcap
      obtain ⟨us, hunions, hlen, hsized, hmems⟩ := ih (Nat.succ.inj hlength) hs.2 ht.2
      refine ⟨u :: us, ?_, by simp [hlen], ?_, fun x y => ?_⟩
      · rw [unions, hunion, hunions]
        rfl
      · exact List.forall_mem_cons.mpr ⟨⟨hvalid, hucap.trans hs.1.2⟩, hsized⟩
      · cases x with
        | zero => simp [BitSet.MemAt, hmem]
        | succ x => exact hmems x y

theorem checkMergeable_eq_ok :
    a.checkMergeable b = .ok () ↔ b.id = a.id ∧ b.preds.length = a.preds.length := by
  unfold checkMergeable check
  split
  · simp_all
  · split <;> simp_all

theorem isFault_of_checkMergeable (h : a.checkMergeable b = .error e) : e.isFault = false := by
  unfold checkMergeable check at h
  split at h
  · exact Except.error.inj h ▸ rfl
  · split at h
    · exact Except.error.inj h ▸ rfl
    · cases h

theorem checkMergeable_iff (ha : a.Sized) (hb : b.Sized) : a.checkMergeable b = .ok () ↔
    b.layout.id = a.layout.id ∧ b.layout.nodeCount = a.layout.nodeCount := by
  rw [checkMergeable_eq_ok, ha.length, hb.length]
  rfl

theorem checkMergeable_congr (ha : a.Sized) (hb : b.Sized) (h : a.layout = b.layout) :
    a.checkMergeable c = b.checkMergeable c := by
  unfold checkMergeable check id
  rw [ha.length, hb.length, h]

theorem merge_of_error (h : a.checkMergeable b = .error e) : a.merge b = .error e := by
  unfold merge add
  unfold checkMergeable at h
  rw [h]
  rfl

theorem merge_ok (ha : a.Sized) (hb : b.Sized) (h : a.checkMergeable b = .ok ()) :
    ∃ c, a.merge b = .ok c ∧ c.Sized ∧ c.layout = a.layout ∧ c.calls = a.calls + b.calls ∧
      ∀ x y, c.DependsOn x y ↔ a.DependsOn x y ∨ b.DependsOn x y := by
  have hlength := (checkMergeable_eq_ok.mp h).2
  have hnodes : b.layout.nodeCount = a.layout.nodeCount := by
    rw [← hb.length, ← ha.length, hlength]
  obtain ⟨us, hunions, hlen, hsized, hmem⟩ :=
    unions_ok hlength.symm ha.sized fun t ht => hnodes ▸ hb.sized t ht
  refine ⟨⟨a.layout, a.calls + b.calls, us⟩, ?_, ⟨hlen.trans ha.length, hsized⟩, rfl, rfl, hmem⟩
  unfold checkMergeable at h
  rw [merge, add, h, hunions]
  rfl

theorem update_new (h : call.Sized) : (new call.layout).update call = .ok (ofCall call) := by
  have hnew := sized_new call.layout
  have hcall := sized_ofCall h
  obtain ⟨c, hc, hsized, hlayout, hcalls, hmem⟩ :=
    merge_ok hnew hcall ((checkMergeable_iff hnew hcall).mpr ⟨rfl, rfl⟩)
  have hsame : c = ofCall call := by
    refine hsized.ext hcall hlayout (hcalls.trans (Nat.zero_add 1)) fun x y => ?_
    rw [hmem]
    exact or_iff_right (BitSet.not_memAt_replicate _ _ x y)
  exact hsame ▸ hc

def total (parts : List Aggregate) : Nat := parts.foldr (fun p n => p.calls + n) 0

theorem total_append (xs ys : List Aggregate) : total (xs ++ ys) = total xs + total ys := by
  induction xs with
  | nil => exact (Nat.zero_add _).symm
  | cons x xs ih => exact (congrArg (x.calls + ·) ih).trans (Nat.add_assoc _ _ _).symm

theorem total_perm (h : xs.Perm ys) : total xs = total ys := by
  unfold total
  exact h.foldr_eq' (fun p _ q _ n => Nat.add_left_comm q.calls p.calls n) 0

/-- The sum of some aggregates, in whose order only the layout of the first one matters. -/
structure IsSum (a : Aggregate) (parts : List Aggregate) : Prop where
  sized : a.Sized
  layout : parts.head?.map (·.layout) = some a.layout
  calls : a.calls = total parts
  dependsOn : ∀ x y, a.DependsOn x y ↔ ∃ p ∈ parts, p.DependsOn x y

theorem Sized.isSum (h : a.Sized) : a.IsSum [a] := ⟨h, rfl, rfl, by simp⟩

theorem isSum_of_merge (ha : a.Sized) (hb : b.Sized) (h : a.checkMergeable b = .ok ()) :
    ∃ c, a.merge b = .ok c ∧ c.IsSum [a, b] := by
  obtain ⟨c, hc, hsized, hlayout, hcalls, hmem⟩ := merge_ok ha hb h
  exact ⟨c, hc, hsized, congrArg some hlayout.symm, hcalls, by simpa using hmem⟩

theorem IsSum.exists_layout (h : a.IsSum parts) : ∃ p ∈ parts, p.layout = a.layout := by
  obtain ⟨p, hp, hlayout⟩ := Option.map_eq_some_iff.mp h.layout
  exact ⟨p, List.mem_of_head? hp, hlayout⟩

theorem IsSum.flatten (ha : a.IsSum (xs ++ b :: ys)) (hb : b.IsSum qs) :
    a.IsSum (xs ++ (qs ++ ys)) := by
  refine ⟨ha.sized, ?_, ?_, fun x y => ?_⟩
  · rw [← ha.layout]
    cases xs with
    | nil => rw [List.nil_append, List.nil_append, List.head?_append, Option.map_or, hb.layout]; rfl
    | cons x xs => rfl
  · have hcons : total (b :: ys) = b.calls + total ys := rfl
    rw [ha.calls, total_append, total_append, total_append, hcons, hb.calls]
  · rw [ha.dependsOn]
    simp only [List.mem_append, List.mem_cons, or_and_right, exists_or, exists_eq_left,
      hb.dependsOn]

theorem IsSum.unique (ha : a.IsSum xs) (hb : b.IsSum ys) (h : xs.Perm ys)
    (hlayout : a.layout = b.layout) : a = b := by
  refine ha.sized.ext hb.sized hlayout ?_ fun x y => ?_
  · rw [ha.calls, hb.calls, total_perm h]
  · rw [ha.dependsOn, hb.dependsOn]
    simp only [h.mem_iff]

end Dependence.Aggregate
