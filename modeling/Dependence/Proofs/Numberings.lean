import Mathlib.Data.List.Induction
import Dependence.Proofs.Slots

/-! The row of locations as it is built up, one block after the other, with the place where each block
begins. The number of a location is found by counting from where its block begins, and there is none from
where the next block begins or the row ends. So the locations of a function are numbered without gaps, and
the number of a location is the place where it stands in the row. -/

namespace Dependence

structure Numbering where
  offsets : List Nat
  locations : List Location
deriving DecidableEq, Repr

namespace Numbering

def start : Numbering := ⟨[], [.entry]⟩

def push (n : Numbering) (x : Block × Nat) : Numbering where
  offsets := n.offsets ++ [n.locations.length]
  locations := n.locations ++ (List.range x.1.locationCount).map (.point x.2)

def ofBlocks (blocks : List Block) : Numbering := blocks.zipIdx.foldl push start

def slot? (n : Numbering) : Location → Option Nat
  | .entry => some 0
  | .point b s =>
    n.offsets[b]?.bind fun first =>
      let bound := n.offsets[b + 1]?.getD n.locations.length
      if first + s < bound then some (first + s) else none

def location? (n : Numbering) (i : Nat) : Option Location := n.locations[i]?

def size (n : Numbering) : Nat := n.locations.length

end Numbering

namespace Block

def totalCount (blocks : List Block) : Nat :=
  blocks.foldr (fun block n => block.locationCount + n) 0

theorem totalCount_append (blocks rest : List Block) :
    totalCount (blocks ++ rest) = totalCount blocks + totalCount rest := by
  induction blocks with
  | nil => exact (Nat.zero_add _).symm
  | cons block blocks ih =>
    change block.locationCount + totalCount (blocks ++ rest) = _
    rw [ih, ← Nat.add_assoc]
    rfl

theorem totalCount_take_succ {blocks : List Block} {b : Nat} {block : Block}
    (hb : blocks[b]? = some block) :
    totalCount (blocks.take (b + 1)) = totalCount (blocks.take b) + block.locationCount := by
  rw [List.take_add_one, hb, totalCount_append]
  rfl

end Block

namespace Numbering

variable {n : Numbering} {blocks : List Block} {block : Block} {b : Nat}

structure Counts (n : Numbering) (blocks : List Block) : Prop where
  offsets : n.offsets = (List.range blocks.length).map fun b => 1 + Block.totalCount (blocks.take b)
  locations : n.locations = .entry ::
    blocks.zipIdx.flatMap fun x => (List.range x.1.locationCount).map (Location.point x.2)
  size : n.locations.length = 1 + Block.totalCount blocks

theorem counts_start : start.Counts [] := ⟨rfl, rfl, rfl⟩

theorem Counts.push (h : n.Counts blocks) (block : Block) :
    (n.push (block, blocks.length)).Counts (blocks ++ [block]) where
  offsets := by
    have hbefore : ∀ b ∈ List.range blocks.length, 1 + Block.totalCount ((blocks ++ [block]).take b) =
        1 + Block.totalCount (blocks.take b) := by
      intro b hb
      rw [List.take_append_of_le_length (Nat.le_of_lt (List.mem_range.mp hb))]
    rw [List.length_append, List.length_singleton, List.range_succ, List.map_append,
      List.map_congr_left hbefore, ← h.offsets, List.map_singleton, List.take_left, ← h.size]
    rfl
  locations := by
    rw [List.zipIdx_append, List.flatMap_append, ← List.cons_append, ← h.locations, Nat.zero_add]
    simp [Numbering.push]
  size := by
    rw [Block.totalCount_append, ← Nat.add_assoc, ← h.size]
    simp [Numbering.push, Block.totalCount]

theorem counts_ofBlocks (blocks : List Block) : (ofBlocks blocks).Counts blocks := by
  -- from the end, since each block is numbered after all that come before it
  induction blocks using List.reverseRecOn with
  | nil => exact counts_start
  | append_singleton blocks block ih =>
    have hstep : ofBlocks (blocks ++ [block]) = (ofBlocks blocks).push (block, blocks.length) := by
      simp [ofBlocks, List.zipIdx_append]
    rw [hstep]
    exact ih.push block

theorem Counts.getD_offsets (h : n.Counts blocks) (hb : b ≤ blocks.length) :
    n.offsets[b]?.getD n.locations.length = 1 + Block.totalCount (blocks.take b) := by
  rw [h.offsets]
  rcases Nat.lt_or_eq_of_le hb with hlt | rfl
  · simp [hlt]
  · simp [h.size]

theorem Counts.slot?_point (h : n.Counts blocks) (hb : blocks[b]? = some block) (s : Nat) :
    n.slot? (.point b s) = if s < block.locationCount
      then some (1 + Block.totalCount (blocks.take b) + s) else none := by
  have hlt : b < blocks.length := (List.getElem?_eq_some_iff.mp hb).1
  have hfirst : n.offsets[b]? = some (1 + Block.totalCount (blocks.take b)) := by
    rw [h.offsets]
    simp [hlt]
  rw [slot?, hfirst, Option.bind_some, h.getD_offsets (Nat.succ_le_of_lt hlt),
    Block.totalCount_take_succ hb, ← Nat.add_assoc]
  simp only [Nat.add_lt_add_iff_left]

theorem slot?_ofBlocks (g : Graph) (l : Location) : (ofBlocks g.blocks).slot? l = g.slot? l := by
  cases l with
  | entry => rfl
  | point b s =>
    have hcounts := counts_ofBlocks g.blocks
    cases hb : g.blocks[b]? with
    | none =>
      have hoffset : (ofBlocks g.blocks).offsets[b]? = none := by
        rw [hcounts.offsets]
        simpa using hb
      simp [slot?, Graph.slot?, hoffset, hb]
    | some block =>
      rw [hcounts.slot?_point hb, Graph.slot?, hb]
      rfl

theorem locations_ofBlocks (g : Graph) : (ofBlocks g.blocks).locations = g.locations :=
  (counts_ofBlocks g.blocks).locations

/-- Exactly the locations of a function have a number. It is less than their count, which is the sum of
what the blocks have and one for the entry, and it is where the location stands in the row; so every place
in the row is the number of what stands there, and the entry comes first. This is the numbering by which an
analysis finds its states. -/
theorem numbers_and_places_correspond (g : Graph) :
    let n := ofBlocks g.blocks
    (∀ l, (∃ i, n.slot? l = some i) ↔ g.contains l = true) ∧
    (∀ l i, n.slot? l = some i → i < n.size ∧ n.location? i = some l) ∧
    (∀ i < n.size, ∃ l, n.location? i = some l ∧ n.slot? l = some i) ∧
    n.slot? .entry = some 0 ∧ n.location? 0 = some .entry ∧
    n.size = 1 + Block.totalCount g.blocks ∧
    n.locations = g.locations ∧ ∀ l, n.slot? l = g.slot? l := by
  intro n
  have hrow : n.locations = g.locations := locations_ofBlocks g
  have hslot : ∀ l, n.slot? l = g.slot? l := slot?_ofBlocks g
  have hplace : ∀ l i, n.slot? l = some i ↔ n.location? i = some l := by
    intro l i
    rw [hslot, Graph.slot?_eq_some_iff, location?, hrow]
  refine ⟨fun l => ?_, fun l i hi => ?_, fun i hi => ?_, rfl, ?_, (counts_ofBlocks g.blocks).size, hrow,
    hslot⟩
  · rw [← Graph.mem_locations, ← hrow, List.mem_iff_getElem?]
    exact exists_congr fun i => hplace l i
  · have hl : n.location? i = some l := (hplace l i).mp hi
    exact ⟨(List.getElem?_eq_some_iff.mp hl).1, hl⟩
  · have hl : n.location? i = some n.locations[i] := List.getElem?_eq_getElem hi
    exact ⟨_, hl, (hplace _ i).mpr hl⟩
  · exact (hplace .entry 0).mp rfl

example : ofBlocks [⟨[.other [], .other []], [], [1]⟩, ⟨[], [0], [2]⟩, ⟨[.other []], [1], []⟩] =
      ⟨[1, 3, 4], [.entry, .point 0 0, .point 0 1, .point 1 0, .point 2 0]⟩ ∧
    (⟨[1, 3, 4], [.entry, .point 0 0, .point 0 1, .point 1 0, .point 2 0]⟩ : Numbering).slot?
      (.point 1 1) = none := by
  decide

end Numbering

end Dependence
