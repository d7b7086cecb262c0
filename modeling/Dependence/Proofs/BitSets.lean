import Mathlib.Data.List.Basic
import Dependence.BitSet

/-! Bit sets are sets of numbers. A set is valid if it keeps just the words that its capacity needs
and no bit at or past the capacity is set; then its bits are its members, and each operation is
described by the members of what it returns. -/

namespace Dependence.BitSet

structure Valid (s : BitSet) : Prop where
  length : s.words.length = (s.capacity + 63) / 64
  padding : ∀ {i : Nat}, s.capacity ≤ i → s.bit i = false

variable {s t : BitSet} {i j : Nat}

theorem mem_def : i ∈ s ↔ s.contains i = true := Iff.rfl

theorem bit_mul_add (k : Nat) (hj : j < 64) :
    s.bit (64 * k + j) = (s.words[k]?.getD 0#64).getLsbD j := by
  have hdiv : (64 * k + j) / 64 = k := by omega
  have hmod : (64 * k + j) % 64 = j := by omega
  rw [bit, hdiv, hmod]

theorem Valid.mem_iff_bit (hs : s.Valid) : i ∈ s ↔ s.bit i = true := by
  simp only [mem_def, contains, Bool.and_eq_true, decide_eq_true_eq, and_iff_right_iff_imp]
  intro h
  by_contra hi
  simp [hs.padding (Nat.le_of_not_lt hi)] at h

theorem Valid.div_lt (hs : s.Valid) (h : i < s.capacity) : i / 64 < s.words.length := by
  rw [hs.length]
  omega

@[simp] theorem bit_empty (n i : Nat) : (empty n).bit i = false := by
  simp only [bit, empty, List.getElem?_replicate]
  split <;> simp

theorem valid_empty (n : Nat) : (empty n).Valid := ⟨by simp [empty], fun _ => bit_empty _ _⟩

@[simp] theorem notMem_empty (n i : Nat) : i ∉ empty n := by
  simp [(valid_empty n).mem_iff_bit]

theorem getLsbD_mask (i : Nat) (hj : j < 64) : (mask i).getLsbD j = decide (j = i % 64) := by
  rw [mask, BitVec.getLsbD_shiftLeft, BitVec.getLsbD_one]
  simp only [hj, decide_true, Bool.true_and, Nat.zero_lt_succ]
  grind

section Modify

variable {f : BitVec 64 → BitVec 64} {b : Bool}

theorem bit_modify (hi : i / 64 < s.words.length) (hf : ∀ w j, j < 64 →
      (f w).getLsbD j = if j = i % 64 then b else w.getLsbD j) :
    bit { s with words := s.words.modify (i / 64) f } j = if j = i then b else s.bit j := by
  simp only [bit, List.getElem?_modify]
  by_cases hword : i / 64 = j / 64
  · have hpos : j % 64 = i % 64 ↔ j = i := by omega
    rw [hword] at hi ⊢
    simp [hi, hf _ _ (Nat.mod_lt j (by decide)), hpos]
  · have hne : j ≠ i := fun h => hword (by rw [h])
    simp [hword, hne]

theorem Valid.modify (hs : s.Valid) (hi : i < s.capacity) (hf : ∀ w j, j < 64 →
      (f w).getLsbD j = if j = i % 64 then b else w.getLsbD j) :
    Valid { s with words := s.words.modify (i / 64) f } := by
  refine ⟨by simp [hs.length], fun {k} hk => ?_⟩
  have hne : k ≠ i := fun h => absurd hi (by simpa [h] using hk)
  rw [bit_modify (hs.div_lt hi) hf, if_neg hne, hs.padding hk]

end Modify

theorem getLsbD_or_mask (i : Nat) (w : BitVec 64) (j : Nat) (hj : j < 64) :
    (w ||| mask i).getLsbD j = if j = i % 64 then true else w.getLsbD j := by
  rw [BitVec.getLsbD_or, getLsbD_mask i hj]
  by_cases h : j = i % 64 <;> simp [h]

theorem getLsbD_and_not_mask (i : Nat) (w : BitVec 64) (j : Nat) (hj : j < 64) :
    (w &&& ~~~(mask i)).getLsbD j = if j = i % 64 then false else w.getLsbD j := by
  rw [BitVec.getLsbD_and, BitVec.getLsbD_not, getLsbD_mask i hj]
  by_cases h : j = i % 64 <;> simp [h, hj]

theorem Valid.insert (hs : s.Valid) (hi : i < s.capacity) :
    ∃ u new, s.insert i = .ok (u, new) ∧ u.Valid ∧ u.capacity = s.capacity ∧
      ∀ k, k ∈ u ↔ k ∈ s ∨ k = i := by
  have hvalid := hs.modify hi (getLsbD_or_mask i)
  refine ⟨_, _, by rw [BitSet.insert, if_pos hi], hvalid, rfl, fun k => ?_⟩
  rw [hvalid.mem_iff_bit, hs.mem_iff_bit, bit_modify (hs.div_lt hi) (getLsbD_or_mask i)]
  by_cases h : k = i <;> simp [h]

theorem Valid.erase (hs : s.Valid) (hi : i < s.capacity) :
    ∃ u present, s.erase i = .ok (u, present) ∧ u.Valid ∧ u.capacity = s.capacity ∧
      ∀ k, k ∈ u ↔ k ∈ s ∧ k ≠ i := by
  have hvalid := hs.modify hi (getLsbD_and_not_mask i)
  refine ⟨_, _, by rw [BitSet.erase, if_pos hi], hvalid, rfl, fun k => ?_⟩
  rw [hvalid.mem_iff_bit, hs.mem_iff_bit, bit_modify (hs.div_lt hi) (getLsbD_and_not_mask i)]
  by_cases h : k = i <;> simp [h]

theorem bit_clear (s : BitSet) (i : Nat) : s.clear.bit i = false := by
  simp only [bit, clear, List.getElem?_map]
  cases s.words[i / 64]? <;> simp

theorem Valid.clear (hs : s.Valid) : s.clear.Valid :=
  ⟨(List.length_map _).trans hs.length, fun _ => bit_clear s _⟩

theorem Valid.insertAll {α : Type} (number : α → Nat) {xs : List α} (hs : s.Valid)
    (hxs : ∀ x ∈ xs, number x < s.capacity) :
    ∃ u, xs.foldlM (fun s x => return (← s.insert (number x)).1) s = .ok u ∧ u.Valid ∧
      u.capacity = s.capacity ∧ ∀ k, k ∈ u ↔ k ∈ s ∨ ∃ x ∈ xs, number x = k := by
  induction xs generalizing s with
  | nil => exact ⟨s, rfl, hs, rfl, by simp⟩
  | cons x xs ih =>
    obtain ⟨t, new, ht, hvalid, hcap, hmem⟩ := hs.insert (hxs x (by simp))
    obtain ⟨u, hu, huvalid, hucap, humem⟩ :=
      ih hvalid fun y hy => hcap ▸ hxs y (List.mem_cons_of_mem x hy)
    refine ⟨u, ?_, huvalid, hucap.trans hcap, fun k => ?_⟩
    · rw [List.foldlM_cons, ht]
      exact hu
    · rw [humem, hmem]
      simp [or_assoc, eq_comm]

section Combine

variable {f : BitVec 64 → BitVec 64 → BitVec 64} {φ : Bool → Bool → Bool}

theorem bit_zipWith (hs : s.Valid) (ht : t.Valid) (hcap : s.capacity = t.capacity)
    (hf : ∀ x y j, j < 64 → (f x y).getLsbD j = φ (x.getLsbD j) (y.getLsbD j))
    (hφ : φ false false = false) :
    bit { s with words := List.zipWith f s.words t.words } j = φ (s.bit j) (t.bit j) := by
  have hlen : s.words.length = t.words.length := by rw [hs.length, ht.length, hcap]
  simp only [bit, List.getElem?_zipWith]
  by_cases hj : j / 64 < s.words.length
  · simp [List.getElem?_eq_getElem hj, List.getElem?_eq_getElem (hlen ▸ hj),
      hf _ _ _ (Nat.mod_lt j (by decide))]
  · rw [List.getElem?_eq_none (by omega), List.getElem?_eq_none (by omega)]
    simp [hφ]

theorem Valid.combine (hs : s.Valid) (ht : t.Valid) (hcap : s.capacity = t.capacity)
    (hf : ∀ x y j, j < 64 → (f x y).getLsbD j = φ (x.getLsbD j) (y.getLsbD j))
    (hφ : φ false false = false) :
    ∃ u changed, s.combine f t = .ok (u, changed) ∧ u.Valid ∧ u.capacity = s.capacity ∧
      ∀ k, k ∈ u ↔ φ (s.bit k) (t.bit k) = true := by
  have hbit := fun k => bit_zipWith (j := k) hs ht hcap hf hφ
  have hvalid : Valid { s with words := List.zipWith f s.words t.words } := by
    refine ⟨?_, fun {k} hk => ?_⟩
    · rw [List.length_zipWith, hs.length, ht.length, hcap, Nat.min_self]
    · rw [hbit, hs.padding hk, ht.padding (hcap ▸ hk), hφ]
  refine ⟨_, _, by rw [BitSet.combine, if_pos hcap], hvalid, rfl, fun k => ?_⟩
  rw [hvalid.mem_iff_bit, hbit]

theorem Valid.union (hs : s.Valid) (ht : t.Valid) (hcap : s.capacity = t.capacity) :
    ∃ u changed, s.union t = .ok (u, changed) ∧ u.Valid ∧ u.capacity = s.capacity ∧
      ∀ k, k ∈ u ↔ k ∈ s ∨ k ∈ t := by
  obtain ⟨u, changed, hu, hvalid, hucap, hmem⟩ :=
    hs.combine (f := (· ||| ·)) (φ := or) ht hcap (fun x y j _ => BitVec.getLsbD_or) rfl
  exact ⟨u, changed, hu, hvalid, hucap, fun k => by
    rw [hmem, hs.mem_iff_bit, ht.mem_iff_bit, Bool.or_eq_true]⟩

theorem Valid.difference (hs : s.Valid) (ht : t.Valid) (hcap : s.capacity = t.capacity) :
    ∃ u changed, s.difference t = .ok (u, changed) ∧ u.Valid ∧ u.capacity = s.capacity ∧
      ∀ k, k ∈ u ↔ k ∈ s ∧ k ∉ t := by
  obtain ⟨u, changed, hu, hvalid, hucap, hmem⟩ :=
    hs.combine (f := (· &&& ~~~ ·)) (φ := fun a b => a && !b) ht hcap
      (fun x y j hj => by simp [hj]) rfl
  exact ⟨u, changed, hu, hvalid, hucap, fun k => by
    rw [hmem, hs.mem_iff_bit, ht.mem_iff_bit, Bool.and_eq_true, Bool.not_eq_true',
      Bool.not_eq_true]⟩

end Combine

def bitsAt (k : Nat) (w : BitVec 64) : List Nat := ((List.range 64).filter w.getLsbD).map (64 * k + ·)

theorem mem_bitsAt {k : Nat} {w : BitVec 64} : i ∈ bitsAt k w ↔ ∃ j, w.getLsbD j = true ∧ 64 * k + j = i := by
  simp only [bitsAt, List.mem_map, List.mem_filter, List.mem_range]
  refine exists_congr fun j => and_congr_left fun _ => and_iff_right_of_imp fun h => ?_
  exact BitVec.lt_of_getLsbD h

theorem pairwise_lt_bitsAt (k : Nat) (w : BitVec 64) : (bitsAt k w).Pairwise (· < ·) := by
  rw [bitsAt, List.pairwise_map]
  exact (List.pairwise_lt_range.filter _).imp (Nat.add_lt_add_left · _)

theorem toList_eq_flatMap (s : BitSet) : s.toList = s.words.zipIdx.flatMap fun x => bitsAt x.2 x.1 := rfl

theorem mem_toList_iff_bit : i ∈ s.toList ↔ s.bit i = true := by
  simp only [toList_eq_flatMap, List.mem_flatMap, mem_bitsAt, Prod.exists, List.mem_zipIdx_iff_getElem?]
  constructor
  · rintro ⟨w, k, hw, j, hbit, rfl⟩
    rwa [bit_mul_add k (BitVec.lt_of_getLsbD hbit), hw, Option.getD_some]
  · intro h
    rw [bit] at h
    cases hw : s.words[i / 64]? with
    | none => simp [hw] at h
    | some w =>
      rw [hw, Option.getD_some] at h
      exact ⟨w, i / 64, hw, i % 64, h, Nat.div_add_mod i 64⟩

theorem Valid.mem_toList (hs : s.Valid) : i ∈ s.toList ↔ i ∈ s := by
  rw [mem_toList_iff_bit, hs.mem_iff_bit]

theorem pairwise_lt_toList (s : BitSet) : s.toList.Pairwise (· < ·) := by
  have hindices : s.words.zipIdx.Pairwise fun x y => x.2 < y.2 := by
    rw [← List.pairwise_map (f := Prod.snd), List.zipIdx_map_snd]
    exact List.pairwise_lt_range'
  rw [toList_eq_flatMap, List.pairwise_flatMap]
  refine ⟨fun x _ => pairwise_lt_bitsAt x.2 x.1, hindices.imp fun {x y} hlt => ?_⟩
  intro i hi j hj
  obtain ⟨i', hbit, rfl⟩ := mem_bitsAt.mp hi
  obtain ⟨j', -, rfl⟩ := mem_bitsAt.mp hj
  have hi' : i' < 64 := BitVec.lt_of_getLsbD hbit
  omega

def Sized (n : Nat) (s : BitSet) : Prop := s.Valid ∧ s.capacity = n

theorem sized_empty (n : Nat) : (empty n).Sized n := ⟨valid_empty n, rfl⟩

theorem Sized.ext {n : Nat} (hs : s.Sized n) (ht : t.Sized n) (h : ∀ i, i ∈ s ↔ i ∈ t) :
    s = t := by
  obtain ⟨hsvalid, hscap⟩ := hs
  obtain ⟨htvalid, htcap⟩ := ht
  have hcap : s.capacity = t.capacity := hscap.trans htcap.symm
  have hwords : s.words = t.words := by
    refine List.ext_getElem (by rw [hsvalid.length, htvalid.length, hcap]) fun k hks hkt => ?_
    refine BitVec.eq_of_getLsbD_eq fun j hj => ?_
    have hbit := h (64 * k + j)
    rw [hsvalid.mem_iff_bit, htvalid.mem_iff_bit, ← Bool.eq_iff_iff, bit_mul_add k hj,
      bit_mul_add k hj] at hbit
    simpa [hks, hkt] using hbit
  cases s
  cases t
  simp_all

theorem lt_of_mem (hi : i ∈ s) : i < s.capacity := by
  rw [mem_def, contains, Bool.and_eq_true, decide_eq_true_eq] at hi
  exact hi.1

theorem Sized.lt_of_mem {n : Nat} (hs : s.Sized n) (hi : i ∈ s) : i < n :=
  hs.2 ▸ BitSet.lt_of_mem hi

theorem Sized.lt_of_mem_toList {n : Nat} (hs : s.Sized n) (hi : i ∈ s.toList) : i < n :=
  hs.lt_of_mem (hs.1.mem_toList.mp hi)

theorem ofList_ok {n : Nat} {members : List Nat} (h : ∀ i ∈ members, i < n) :
    ∃ s, ofList n members = .ok s ∧ s.Sized n ∧ ∀ i, i ∈ s ↔ i ∈ members := by
  obtain ⟨s, hs, hvalid, hcap, hmem⟩ := (valid_empty n).insertAll id h
  exact ⟨s, hs, ⟨hvalid, hcap⟩, by simpa using hmem⟩

theorem ofList_toList {n : Nat} (hs : s.Sized n) : ofList n s.toList = .ok s := by
  obtain ⟨u, hu, husized, hu_mem⟩ := ofList_ok fun _ hi => hs.lt_of_mem_toList hi
  have hsame : u = s := husized.ext hs fun i => by rw [hu_mem, hs.1.mem_toList]
  exact hsame ▸ hu

theorem ofList_of_find? {n : Nat} {members : List Nat} (h : members.find? (n ≤ ·) = some i) :
    ofList n members = .error (.indexOutOfBounds i n) := by
  obtain ⟨hi, first, later, rfl, hfirst⟩ := List.find?_eq_some_iff_append.mp h
  have hlt : ∀ k ∈ first, k < n := by simpa using hfirst
  obtain ⟨s, hs, ⟨-, hcap⟩, -⟩ := ofList_ok hlt
  have hfail : s.insert i = .error (.indexOutOfBounds i n) := by
    rw [BitSet.insert, hcap, if_neg (by simpa using hi)]
  rw [ofList] at hs ⊢
  rw [List.foldlM_append, hs]
  simp only [List.foldlM_cons, bind, Except.bind, hfail]

def MemAt (sets : List BitSet) (x y : Nat) : Prop := ∃ set, sets[x]? = some set ∧ y ∈ set

structure AllSized (n : Nat) (sets : List BitSet) : Prop where
  length : sets.length = n
  sized : ∀ set ∈ sets, set.Sized n

theorem AllSized.ext {n : Nat} {ss ts : List BitSet} (hs : AllSized n ss) (ht : AllSized n ts)
    (h : ∀ x y, MemAt ss x y ↔ MemAt ts x y) : ss = ts := by
  refine List.ext_getElem (hs.length.trans ht.length.symm) fun x hxs hxt => ?_
  refine (hs.sized _ (List.getElem_mem hxs)).ext (ht.sized _ (List.getElem_mem hxt)) fun y => ?_
  simpa [MemAt, hxs, hxt] using h x y

theorem allSized_replicate (n : Nat) : AllSized n (List.replicate n (empty n)) where
  length := List.length_replicate
  sized _ hset := List.eq_of_mem_replicate hset ▸ sized_empty n

theorem not_memAt_replicate (k n x y : Nat) : ¬MemAt (List.replicate k (empty n)) x y := by
  rintro ⟨set, hset, hy⟩
  obtain rfl := List.eq_of_mem_replicate (List.mem_of_getElem? hset)
  exact notMem_empty _ _ hy

end Dependence.BitSet
