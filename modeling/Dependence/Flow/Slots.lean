import Dependence.Flow.Graph

/-! The locations of a function in a row, the number of each, and the edges along which control
passes from one to the next. -/

namespace Dependence.Graph

def locations (g : Graph) : List Location :=
  .entry :: g.blocks.zipIdx.flatMap fun (block, b) =>
    (List.range block.locationCount).map (.point b)

abbrev slotCount (g : Graph) : Nat := g.locations.length

abbrev Slot (g : Graph) := Fin g.slotCount

def location (g : Graph) (i : g.Slot) : Location := g.locations.get i

def firstSlot (g : Graph) (b : Nat) : Nat :=
  1 + (g.blocks.take b).foldr (fun block n => block.locationCount + n) 0

def slot? (g : Graph) : Location → Option Nat
  | .entry => some 0
  | .point b s =>
    match g.blocks[b]? with
    | some block => if s < block.locationCount then some (g.firstSlot b + s) else none
    | none => none

def slotOf? (g : Graph) (l : Location) : Option g.Slot :=
  (g.slot? l).bind fun i => if h : i < g.slotCount then some ⟨i, h⟩ else none

/-- Control comes into a block from the entry if it is the first one or has no predecessors. -/
def startsAt (b : Nat) (block : Block) : Bool := b == 0 || block.prev.isEmpty

def sources (g : Graph) : Location → List Location
  | .entry => []
  | .point b 0 =>
    match g.blocks[b]? with
    | none => []
    | some block =>
      (if startsAt b block then [.entry] else []) ++ block.prev.filterMap g.lastLocation?
  | .point b (s + 1) => [.point b s]

def dependents (g : Graph) : Location → List Location
  | .entry =>
    (g.blocks.zipIdx.filter fun (block, b) => startsAt b block).map fun (_, b) => .point b 0
  | .point b s =>
    match g.blocks[b]? with
    | none => []
    | some block =>
      if s + 1 < block.locationCount then [.point b (s + 1)]
      else block.next.map fun succ => .point succ 0

def sourceSlots (g : Graph) (i : g.Slot) : List g.Slot :=
  (g.sources (g.location i)).filterMap g.slotOf?

def dependentSlots (g : Graph) (i : g.Slot) : List g.Slot :=
  (g.dependents (g.location i)).filterMap g.slotOf?

def dependencyCount (g : Graph) : Nat :=
  g.locations.foldr (fun l n => (g.dependents l).length + n) 0

end Dependence.Graph
