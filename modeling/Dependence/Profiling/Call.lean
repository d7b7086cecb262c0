import Dependence.BitSet
import Dependence.Profiling.Layout

/-! One call of a function while it runs. A branch opens a region that lasts until control reaches
the postdominator of the branch; a block depends on the branch of the innermost region that is open
when it is entered. -/

namespace Dependence

/-- The region of a branch, which ends at a block unless it lasts to the end of the call. -/
structure Region where
  branch : Nat
  finish : Option Nat
deriving DecidableEq, Repr

structure Entrance where
  block : Nat
  stmt : Nat
  position : String
deriving DecidableEq, Repr

inductive BlockEvent where
  | enter (block : Nat) (position : String)
  /-- Control comes back to a statement of a block. -/
  | resume (block stmt : Nat) (position : String)
deriving DecidableEq, Repr

/-- The open regions stand outermost first. `preds` has the branches that each block depended on so
far, `depths` the number of regions open right after each block was entered the last time. -/
structure Call where
  layout : Layout
  regions : List Region
  preds : List BitSet
  depths : List (Option Nat)
  last : Option Entrance
  position : String
deriving DecidableEq, Repr

namespace Call

def id (c : Call) : FunctionId := c.layout.id

def depth (c : Call) : Nat := c.regions.length

/-- The regions still open at a block: a region that ends there is closed with all regions in it. -/
def openAt (regions : List Region) (block : Nat) : List Region :=
  regions.takeWhile (·.finish ≠ some block)

def reopen (layout : Layout) (regions : List Region) (block : Nat) : List Region :=
  if layout.isBranch block then
    regions.takeWhile (·.branch ≠ block) ++ [⟨block, layout.postdominator? block⟩]
  else
    regions

def depend (preds : List BitSet) (regions : List Region) (block : Nat) :
    Except Error (List BitSet) :=
  match regions.getLast?, preds[block]? with
  | some region, some set => do return preds.set block (← set.insert region.branch).1
  | _, _ => .ok preds

def enter (c : Call) (block : Nat) (position : String) : Except Error Call := do
  let outer := openAt c.regions block
  let preds ← depend c.preds outer block
  let regions := reopen c.layout outer block
  return { c with
    regions
    preds
    depths := c.depths.set block (some regions.length)
    last := some ⟨block, 0, position⟩ }

/-- Goes back to the regions that were open after the block was entered, or just closes those that
end at it if it never was. -/
def resume (c : Call) (block stmt : Nat) (position : String) : Call :=
  let regions := match c.depths[block]?.join with
    | some depth => c.regions.take depth
    | none => openAt c.regions block
  { c with regions, last := some ⟨block, stmt, position⟩ }

def start (layout : Layout) (position : String) : Except Error Call :=
  let n := layout.nodeCount
  let call : Call := {
    layout
    regions := []
    preds := List.replicate n (.empty n)
    depths := List.replicate n none
    last := none
    position }
  if n = 0 then .ok call else call.enter 0 position

def checkBlock (c : Call) (block : Nat) : Except Error Unit :=
  if block < c.layout.nodeCount then .ok ()
  else .error (.blockOutOfRange c.layout.name block c.layout.nodeCount)

def handle (c : Call) : BlockEvent → Except Error Call
  | .enter block position => do
    c.checkBlock block
    c.enter block position
  | .resume block 0 position => do
    c.checkBlock block
    c.enter block position
  | .resume block (stmt + 1) position => do
    c.checkBlock block
    return c.resume block (stmt + 1) position

def ofEvents (layout : Layout) (position : String) (events : List BlockEvent) :
    Except Error Call := do
  events.foldlM handle (← start layout position)

end Call

end Dependence
