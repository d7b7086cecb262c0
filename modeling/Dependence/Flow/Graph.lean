import Dependence.Error
import Dependence.Digraph.Dominators
import Dependence.Flow.Statement

/-! The body of a function as a graph of blocks, and the locations in it. Every edge is listed at
both of its ends. -/

namespace Dependence

inductive Location where
  | entry
  | point (block stmt : Nat)
deriving DecidableEq, Repr

namespace Location

def block? : Location → Option Nat
  | entry => none
  | point block _ => some block

def text : Location → String
  | entry => "entry"
  | point block stmt => s!"b{block}:{stmt}"

def le : Location → Location → Bool
  | entry, _ => true
  | point .., entry => false
  | point b s, point b' s' => b < b' || (b == b' && s ≤ s')

end Location

structure Block where
  stmts : List Statement
  prev : List Nat
  next : List Nat
deriving DecidableEq, Repr

namespace Block

/-- A block without statements still has one location. -/
def locationCount (b : Block) : Nat := max b.stmts.length 1

def isBranch (b : Block) : Bool := 1 < b.next.length

end Block

/-- A function; one without blocks is only declared. -/
structure Graph where
  name : String
  signature : Signature
  blocks : List Block
deriving DecidableEq, Repr

namespace Graph

def successorDefect? (name : String) (blocks : List Block) (id succ : Nat) : Option Defect :=
  match blocks[succ]? with
  | none => some (.unknownSuccessor name id succ blocks.length)
  | some target => if id ∈ target.prev then none else some (.missingPredecessor name id succ)

def predecessorDefect? (name : String) (blocks : List Block) (id pred : Nat) : Option Defect :=
  match blocks[pred]? with
  | none => some (.unknownPredecessor name id pred blocks.length)
  | some source => if id ∈ source.next then none else some (.missingSuccessor name pred id)

/-- The first defect of a list of blocks, looking at the successors of each block before its
predecessors. -/
def defect? (name : String) (blocks : List Block) : Option Defect :=
  blocks.zipIdx.findSome? fun (block, id) =>
    (block.next.findSome? (successorDefect? name blocks id)).or
      (block.prev.findSome? (predecessorDefect? name blocks id))

def ofBlocks (name : String) (signature : Signature) (blocks : List Block) : Except Error Graph :=
  match defect? name blocks with
  | none => .ok ⟨name, signature, blocks⟩
  | some defect => .error (.malformed defect)

def declaration (name : String) (signature : Signature) : Graph := ⟨name, signature, []⟩

def isDeclaration (g : Graph) : Bool := g.blocks.isEmpty

def statement? (g : Graph) : Location → Option Statement
  | .entry => none
  | .point b s => g.blocks[b]?.bind (·.stmts[s]?)

def contains (g : Graph) : Location → Bool
  | .entry => true
  | .point b s => g.blocks[b]?.any (s < ·.locationCount)

def lastLocation? (g : Graph) (b : Nat) : Option Location :=
  g.blocks[b]?.map fun block => .point b (block.locationCount - 1)

def successorLists (g : Graph) : Adjacency := g.blocks.map (·.next)

def postdominators (g : Graph) : List (Option Nat) := g.successorLists.postdominators

def definedAt (g : Graph) (l : Location) : List Ident :=
  match l with
  | .entry => g.signature.bindings
  | .point .. => ((g.statement? l).map (·.redefined)).getD []

end Graph

end Dependence
