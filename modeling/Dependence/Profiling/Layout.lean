import Std.Data.ExtTreeMap
import Dependence.Flow.Graph

/-! The shape of a function as far as recording its calls needs it: the successors of each of its
blocks and the block where the ways out of it come together again. -/

namespace Dependence

structure Layout where
  id : FunctionId
  successors : Adjacency
  postdominators : List (Option Nat)
deriving DecidableEq, Repr

namespace Layout

def defect? (id : FunctionId) (successors : Adjacency) (postdominators : List (Option Nat)) :
    Option Defect :=
  let count := successors.length
  if postdominators.length ≠ count then
    some (.postdominatorCount id count postdominators.length)
  else
    (successors.zipIdx.findSome? fun (succs, node) =>
      (succs.find? (count ≤ ·)).map (.successorRange id node · count)).or
    (postdominators.zipIdx.findSome? fun (p, node) =>
      (p.filter (count ≤ ·)).map (.postdominatorRange id node · count))

def ofParts (id : FunctionId) (successors : Adjacency) (postdominators : List (Option Nat)) :
    Except Error Layout :=
  match defect? id successors postdominators with
  | none => .ok ⟨id, successors, postdominators⟩
  | some defect => .error (.malformed defect)

def ofSuccessors (id : FunctionId) (successors : Adjacency) : Except Error Layout :=
  ofParts id successors successors.postdominators

def ofGraph (entry : Nat) (g : Graph) : Layout :=
  ⟨⟨g.name, entry⟩, g.successorLists, g.postdominators⟩

def name (l : Layout) : String := l.id.name

def nodeCount (l : Layout) : Nat := l.successors.length

def postdominator? (l : Layout) (node : Nat) : Option Nat := l.postdominators[node]?.join

def isBranch (l : Layout) (node : Nat) : Bool := l.successors[node]?.any (1 < ·.length)

end Layout

structure Program where
  layouts : Std.ExtTreeMap String Layout compare

namespace Program

def empty : Program := ⟨∅⟩

def insert (p : Program) (l : Layout) : Program := ⟨p.layouts.insert l.name l⟩

def ofLayouts (layouts : List Layout) : Program := layouts.foldl insert empty

def ofGraphs (entry : Graph → Nat) (graphs : List Graph) : Program :=
  ofLayouts ((graphs.filter (!·.isDeclaration)).map fun g => .ofGraph (entry g) g)

def get? (p : Program) (name : String) : Option Layout := p.layouts[name]?

def size (p : Program) : Nat := p.layouts.size

def isEmpty (p : Program) : Bool := p.layouts.isEmpty

end Program

end Dependence
