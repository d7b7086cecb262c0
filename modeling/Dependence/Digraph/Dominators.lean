import Dependence.Iteration
import Dependence.Digraph.Postorder

/-! Dominator trees. A node dominates another one if every path from the root to the latter passes
through the former. The tree is improved in passes over the nodes, those left last by a depth-first
search first: the parent of a node becomes the nearest common ancestor of the predecessors that are
in the tree already, until a pass changes nothing. -/

namespace Dependence

/-- The parent of each node that is in the tree; the root is its own parent. -/
abbrev ParentTable := Array (Option Nat)

def ParentTable.parent? (t : ParentTable) (v : Nat) : Option Nat := t[v]?.join

def climb (parent? : Nat → Option Nat) (number : Nat → Nat) : Nat × Nat → Option (Nat × Nat)
  | (a, b) =>
    if a = b then none
    else if number a < number b then some ((parent? a).getD a, b)
    else if number b < number a then some (a, (parent? b).getD b)
    else some (a, b)

def meet? (steps : Nat) (parent? : Nat → Option Nat) (number : Nat → Nat) (a b : Nat) :
    Option Nat :=
  (iterate? (climb parent? number) steps (a, b)).map Prod.fst

structure Survey where
  size : Nat
  root : Nat
  order : List Nat
  predecessors : Array (List Nat)
  numbers : Array Nat

namespace Survey

def of (g : Adjacency) (root : Nat) : Survey where
  size := g.length
  root
  order := (g.postorder root).reverse.filter (· ≠ root)
  predecessors := ((List.range g.length).map g.predecessors).toArray
  numbers := (g.postorder root).zipIdx.foldl (fun a (v, i) => a.setIfInBounds v i)
    (Array.replicate g.length g.length)

def number (s : Survey) (v : Nat) : Nat := s.numbers.getD v s.size

/-- Two fingers go up at most once past every node. -/
def meet? (s : Survey) (t : ParentTable) (a b : Nat) : Option Nat :=
  Dependence.meet? (2 * s.size) t.parent? s.number a b

/-- The meeting point of those of the given nodes that are in the tree. The outer option is missing
if two nodes fail to meet, the inner one if no node is in the tree. -/
def common? (s : Survey) (t : ParentTable) (nodes : List Nat) : Option (Option Nat) :=
  nodes.foldlM (fun best p =>
    match t.parent? p, best with
    | none, _ => some best
    | some _, none => some (some p)
    | some _, some c => (s.meet? t p c).map some) none

def improve (s : Survey) (t : ParentTable) (v : Nat) : Option ParentTable :=
  (s.common? t (s.predecessors.getD v [])).map fun
    | none => t
    | some p => t.setIfInBounds v (some p)

def pass (s : Survey) (t : ParentTable) : Option ParentTable := s.order.foldlM s.improve t

def settle? (s : Survey) : Nat → ParentTable → Option ParentTable
  | 0, _ => none
  | n + 1, t =>
    match s.pass t with
    | none => none
    | some t' => if t' = t then some t else settle? s n t'

def start (s : Survey) : ParentTable :=
  (Array.replicate s.size none).setIfInBounds s.root (some s.root)

/-- A parent only ever moves up the tree, which each of the nodes does at most once past every
other, so this many passes are enough. -/
def table (s : Survey) : ParentTable :=
  (s.settle? ((s.size + 1) * (s.size + 1)) s.start).getD s.start

end Survey

structure DominatorTree where
  root : Nat
  parents : ParentTable
deriving DecidableEq, Repr

namespace DominatorTree

def size (t : DominatorTree) : Nat := t.parents.size

def immediateDominator? (t : DominatorTree) (v : Nat) : Option Nat :=
  if v = t.root then none else t.parents.parent? v

def isReachable (t : DominatorTree) (v : Nat) : Bool := (t.parents.parent? v).isSome

def walk? (t : DominatorTree) (a : Nat) (steps : Nat) (v : Nat) : Option Nat :=
  iterate? (fun v => if v = a then none else t.immediateDominator? v) steps v

def dominates (t : DominatorTree) (a b : Nat) : Bool := t.walk? a t.size b = some a

end DominatorTree

namespace Adjacency

def dominators (g : Adjacency) (root : Nat) : DominatorTree :=
  if root < g.length then
    ⟨root, (Survey.of g root).table⟩
  else
    ⟨root, Array.replicate g.length none⟩

def exits (g : Adjacency) : List Nat :=
  (List.range g.length).filter fun v => (g.successors v).isEmpty

def reversed (g : Adjacency) : Adjacency :=
  (List.range g.length).map g.predecessors ++ [g.exits]

def postdominators (g : Adjacency) : List (Option Nat) :=
  let tree := g.reversed.dominators g.length
  (List.range g.length).map fun v =>
    (tree.immediateDominator? v).filter (· ≠ g.length)

end Adjacency

end Dependence
