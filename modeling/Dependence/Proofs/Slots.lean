import Mathlib.Data.List.Nodup
import Dependence.Flow.Slots
import Dependence.Proofs.EdgeEnds

/-! The numbering of locations is a bijection, and the edges of a checked graph are the same seen
from either end: a location is among the sources of another one exactly when the latter is among its
dependents. -/

namespace Dependence

theorem Block.locationCount_pos (block : Block) : 0 < block.locationCount := by
  unfold locationCount
  omega

namespace Graph

inductive Accepted : Graph → Prop
  | body {name : String} {signature : Signature} {blocks : List Block} {g : Graph}
      (h : ofBlocks name signature blocks = .ok g) : Accepted g
  | declaration (name : String) (signature : Signature) : Accepted (declaration name signature)

structure Consistent (g : Graph) : Prop where
  next : ∀ {b c : Nat} {block : Block}, g.blocks[b]? = some block → c ∈ block.next →
    ∃ target, g.blocks[c]? = some target ∧ b ∈ target.prev
  prev : ∀ {b p : Nat} {block : Block}, g.blocks[b]? = some block → p ∈ block.prev →
    ∃ source, g.blocks[p]? = some source ∧ b ∈ source.next

theorem Accepted.consistent {g : Graph} (h : g.Accepted) : g.Consistent := by
  cases h with
  | declaration => constructor <;> intro b _ block hb <;> simp [Graph.declaration] at hb
  | body h =>
    obtain ⟨hnone, rfl⟩ := ofBlocks_eq_ok_iff.mp h
    have hmatched := edgesAgree_iff_matched.mp (defect?_eq_none_iff.mp hnone)
    exact ⟨fun hb hc => hmatched _ (next_mem_ends.mpr ⟨_, hb, hc⟩),
      fun hb hp => hmatched _ (prev_mem_ends.mpr ⟨_, hb, hp⟩)⟩

variable {g : Graph}

theorem contains_point {b s : Nat} :
    g.contains (.point b s) = true ↔ ∃ block, g.blocks[b]? = some block ∧ s < block.locationCount := by
  simp only [contains, Option.any_eq_true, decide_eq_true_eq]

theorem getElem?_flatMap_zipIdx (blocks : List Block) (k : Nat) {b s : Nat} {block : Block}
    (hb : blocks[b]? = some block) (hs : s < block.locationCount) :
    ((blocks.zipIdx k).flatMap fun (block, b) =>
      (List.range block.locationCount).map (Location.point b))[
        (blocks.take b).foldr (fun block n => block.locationCount + n) 0 + s]? =
      some (.point (k + b) s) := by
  induction blocks generalizing k b with
  | nil => simp at hb
  | cons head blocks ih =>
    cases b with
    | zero =>
      obtain rfl : head = block := by simpa using hb
      simp [List.zipIdx_cons, List.getElem?_append_left, hs]
    | succ b =>
      have hrest := ih (k + 1) (by simpa using hb)
      simp only [List.zipIdx_cons, List.flatMap_cons, List.take_succ_cons, List.foldr_cons]
      rw [List.getElem?_append_right (by simp; omega)]
      simp only [List.length_map, List.length_range]
      rw [Nat.add_assoc, Nat.add_sub_cancel_left, hrest, show k + 1 + b = k + (b + 1) by omega]

theorem getElem?_locations_of_slot? {l : Location} {i : Nat} (h : g.slot? l = some i) :
    g.locations[i]? = some l := by
  cases l with
  | entry =>
    obtain rfl : 0 = i := by simpa [slot?] using h
    rfl
  | point b s =>
    simp only [slot?] at h
    split at h
    · next block hb =>
      split at h
      · next hs =>
        obtain rfl := Option.some.inj h
        have := getElem?_flatMap_zipIdx g.blocks 0 hb hs
        simp only [Nat.zero_add] at this
        rw [firstSlot, Nat.add_assoc, Nat.add_comm 1, locations, List.getElem?_cons_succ, this]
      · simp at h
    · simp at h

theorem mem_locations {l : Location} : l ∈ g.locations ↔ g.contains l = true := by
  cases l with
  | entry => simp [locations, contains]
  | point b s =>
    rw [contains_point]
    simp only [locations, List.mem_cons, reduceCtorEq, false_or, List.mem_flatMap, List.mem_map,
      List.mem_range, Location.point.injEq, Prod.exists, List.mem_zipIdx_iff_getElem?]
    constructor
    · rintro ⟨block, b', hb, s', hs, rfl, rfl⟩
      exact ⟨block, hb, hs⟩
    · rintro ⟨block, hb, hs⟩
      exact ⟨block, b, hb, s, hs, rfl, rfl⟩

theorem nodup_locations (g : Graph) : g.locations.Nodup := by
  unfold locations
  rw [List.nodup_cons, List.nodup_flatMap]
  refine ⟨by simp, ?_, ?_⟩
  · rintro ⟨block, b⟩ _
    exact List.nodup_range.map fun s s' h => (Location.point.inj h).2
  · have hindex : (g.blocks.zipIdx.map Prod.snd).Nodup := by
      simp [List.zipIdx_map_snd, List.nodup_range']
    refine (List.pairwise_map.mp hindex).imp ?_
    rintro ⟨block, b⟩ ⟨block', b'⟩ hne l hl hl'
    obtain ⟨s, _, rfl⟩ := List.mem_map.mp hl
    obtain ⟨s', _, h⟩ := List.mem_map.mp hl'
    exact hne (Location.point.inj h).1.symm

theorem exists_slot?_of_contains {l : Location} (h : g.contains l = true) :
    ∃ i, g.slot? l = some i := by
  cases l with
  | entry => exact ⟨0, rfl⟩
  | point b s =>
    obtain ⟨block, hb, hs⟩ := contains_point.mp h
    exact ⟨g.firstSlot b + s, by simp [slot?, hb, hs]⟩

theorem slot?_eq_some_iff {l : Location} {i : Nat} :
    g.slot? l = some i ↔ g.locations[i]? = some l := by
  refine ⟨getElem?_locations_of_slot?, fun h => ?_⟩
  obtain ⟨j, hj⟩ := exists_slot?_of_contains (mem_locations.mp (List.mem_of_getElem? h))
  have hl := getElem?_locations_of_slot? hj
  have hi : i < g.locations.length := (List.getElem?_eq_some_iff.mp h).1
  rw [hj, (List.getElem?_inj hi g.nodup_locations).mp (h.trans hl.symm)]

theorem slotOf?_eq_some_iff {l : Location} {i : g.Slot} :
    g.slotOf? l = some i ↔ g.location i = l := by
  have hloc : g.locations[i.val]? = some l ↔ g.location i = l := by
    rw [List.getElem?_eq_getElem i.isLt, Option.some.injEq]
    rfl
  rw [← hloc, ← slot?_eq_some_iff]
  unfold slotOf?
  constructor
  · intro h
    obtain ⟨j, hj, hi⟩ := Option.bind_eq_some_iff.mp h
    split at hi
    · rw [hj, ← Option.some.inj hi]
    · simp at hi
  · intro h
    simp [h]

@[simp] theorem slotOf?_location (i : g.Slot) : g.slotOf? (g.location i) = some i :=
  slotOf?_eq_some_iff.mpr rfl

theorem contains_location (i : g.Slot) : g.contains (g.location i) = true :=
  mem_locations.mp (List.get_mem _ _)

theorem exists_slot_of_contains {l : Location} (h : g.contains l = true) :
    ∃ i : g.Slot, g.location i = l := by
  obtain ⟨i, hi⟩ := List.get_of_mem (mem_locations.mpr h)
  exact ⟨i, hi⟩

theorem location_injective : Function.Injective g.location := fun i j h => by
  have hi := slotOf?_location i
  rw [h, slotOf?_location] at hi
  exact (Option.some.inj hi).symm

theorem mem_sourceSlots {i k : g.Slot} :
    k ∈ g.sourceSlots i ↔ g.location k ∈ g.sources (g.location i) := by
  simp only [sourceSlots, List.mem_filterMap, slotOf?_eq_some_iff]
  exact ⟨fun ⟨l, hl, h⟩ => h ▸ hl, fun h => ⟨_, h, rfl⟩⟩

theorem mem_dependentSlots {i k : g.Slot} :
    k ∈ g.dependentSlots i ↔ g.location k ∈ g.dependents (g.location i) := by
  simp only [dependentSlots, List.mem_filterMap, slotOf?_eq_some_iff]
  exact ⟨fun ⟨l, hl, h⟩ => h ▸ hl, fun h => ⟨_, h, rfl⟩⟩

theorem mem_filterMap_lastLocation? {prev : List Nat} {l : Location} :
    l ∈ prev.filterMap g.lastLocation? ↔ ∃ p ∈ prev, ∃ source, g.blocks[p]? = some source ∧
      l = .point p (source.locationCount - 1) := by
  simp only [List.mem_filterMap, lastLocation?, Option.map_eq_some_iff]
  constructor
  · rintro ⟨p, hp, source, hs, rfl⟩
    exact ⟨p, hp, source, hs, rfl⟩
  · rintro ⟨p, hp, source, hs, rfl⟩
    exact ⟨p, hp, source, hs, rfl⟩

theorem mapM_lastLocation? {prev : List Nat} (h : ∀ p ∈ prev, ∃ source, g.blocks[p]? = some source) :
    prev.mapM g.lastLocation? = some (prev.filterMap g.lastLocation?) := by
  induction prev with
  | nil => rfl
  | cons p prev ih =>
    obtain ⟨source, hsource⟩ := h p (by simp)
    have hlast : g.lastLocation? p = some (.point p (source.locationCount - 1)) := by
      simp [lastLocation?, hsource]
    rw [List.mapM_cons, hlast, ih fun q hq => h q (by simp [hq]), List.filterMap_cons_some hlast]
    rfl

theorem sources_first {b : Nat} {block : Block} (hb : g.blocks[b]? = some block) :
    g.sources (.point b 0) = (if b = 0 ∨ block.prev = [] then [Location.entry] else []) ++
      block.prev.filterMap g.lastLocation? := by
  simp [sources, hb, startsAt]

theorem Consistent.mem_dependents_of_mem_sources (h : g.Consistent) {l k : Location}
    (hl : g.contains l = true) (hk : k ∈ g.sources l) : l ∈ g.dependents k := by
  match l, hl with
  | .entry, _ => simp [sources] at hk
  | .point b (s + 1), hl =>
    obtain ⟨block, hb, hs⟩ := contains_point.mp hl
    obtain rfl : k = .point b s := by simpa [sources] using hk
    simp [dependents, hb, hs]
  | .point b 0, hl =>
    obtain ⟨block, hb, _⟩ := contains_point.mp hl
    simp only [sources, hb, List.mem_append] at hk
    rcases hk with hk | hk
    · -- The entry is read by the blocks that control comes into from outside.
      split at hk
      · next hstart =>
        obtain rfl : k = .entry := by simpa using hk
        simp only [dependents, List.mem_map, List.mem_filter, Prod.exists,
          List.mem_zipIdx_iff_getElem?]
        exact ⟨block, b, ⟨hb, hstart⟩, rfl⟩
      · simp at hk
    · obtain ⟨p, hp, source, hsource, rfl⟩ := mem_filterMap_lastLocation?.mp hk
      obtain ⟨source', hsource', hnext⟩ := h.prev hb hp
      obtain rfl : source = source' := Option.some.inj (hsource.symm.trans hsource')
      have hlast : ¬ source.locationCount - 1 + 1 < source.locationCount := by omega
      simp only [dependents, hsource, hlast, if_false, List.mem_map]
      exact ⟨b, hnext, rfl⟩

theorem contains_of_mem_sources {l k : Location}
    (hl : g.contains l = true) (hk : k ∈ g.sources l) : g.contains k = true := by
  match l, hl with
  | .entry, _ => simp [sources] at hk
  | .point b (s + 1), hl =>
    obtain ⟨block, hb, hs⟩ := contains_point.mp hl
    obtain rfl : k = .point b s := by simpa [sources] using hk
    exact contains_point.mpr ⟨block, hb, by omega⟩
  | .point b 0, hl =>
    obtain ⟨block, hb, _⟩ := contains_point.mp hl
    simp only [sources, hb, List.mem_append] at hk
    rcases hk with hk | hk
    · split at hk
      · obtain rfl : k = .entry := by simpa using hk
        rfl
      · simp at hk
    · obtain ⟨p, _, source, hsource, rfl⟩ := mem_filterMap_lastLocation?.mp hk
      have := source.locationCount_pos
      exact contains_point.mpr ⟨source, hsource, by omega⟩

theorem Consistent.mem_dependentSlots_of_mem_sourceSlots (h : g.Consistent) {i k : g.Slot}
    (hk : k ∈ g.sourceSlots i) : i ∈ g.dependentSlots k :=
  mem_dependentSlots.mpr
    (h.mem_dependents_of_mem_sources (contains_location i) (mem_sourceSlots.mp hk))

theorem map_location_filterMap_slotOf? {ks : List Location} (h : ∀ k ∈ ks, g.contains k = true) :
    (ks.filterMap g.slotOf?).map g.location = ks := by
  induction ks with
  | nil => rfl
  | cons k ks ih =>
    obtain ⟨j, hj⟩ := exists_slot_of_contains (h k (by simp))
    rw [List.filterMap_cons_some (slotOf?_eq_some_iff.mpr hj), List.map_cons, hj,
      ih fun k hk => h k (by simp [hk])]

theorem map_location_sourceSlots (i : g.Slot) :
    (g.sourceSlots i).map g.location = g.sources (g.location i) :=
  map_location_filterMap_slotOf? fun _ hk => contains_of_mem_sources (contains_location i) hk

end Graph

end Dependence
