import Dependence.BitSet

/-! States that can be joined. A join is an upper bound of two states; updating a state by a join
and comparing two states are derived from it, and a type may have faster ways to do so. -/

namespace Dependence

section Derived

variable {α : Type} [DecidableEq α] (join : α → α → Except Error α)

def derivedJoinWith (a b : α) : Except Error (α × Bool) := do
  let j ← join a b
  return (j, decide (j ≠ a))

def derivedIsBelow (a b : α) : Except Error Bool := do
  let j ← join a b
  return decide (j = b)

end Derived

class JoinLattice (α : Type) [DecidableEq α] where
  join : α → α → Except Error α
  joinWith : α → α → Except Error (α × Bool) := derivedJoinWith join
  isBelow : α → α → Except Error Bool := derivedIsBelow join

def JoinLattice.absorb {α : Type} [DecidableEq α] [JoinLattice α] (a b : α) : Except Error α := do
  return (← joinWith a b).1

instance : JoinLattice BitSet where
  join s t := return (← s.union t).1
  joinWith := BitSet.union
  isBelow s t := .ok (s.isSubset t)

instance : JoinLattice Nat where
  join a b := .ok (max a b)

end Dependence
