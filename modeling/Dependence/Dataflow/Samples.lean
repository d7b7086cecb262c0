import Dependence.Dataflow.GenKill

/-! Small analyses, monotone and not, on which the solver can be watched. -/

namespace Dependence.Analysis

def trail (width : Nat) : Analysis BitSet where
  bottom := .empty width
  flow
    | .point b 0, input => return (← input.insert b).1
    | _, input => .ok input

def grow (width : Nat) : Analysis BitSet where
  bottom := .empty width
  flow _ input :=
    match (List.range width).find? (· ∉ input) with
    | some i => return (← input.insert i).1
    | none => .ok input

/-- Every location but the entry takes the complement, which is not monotone. -/
def flip (width : Nat) : Analysis BitSet where
  bottom := .empty width
  flow
    | .entry, input => .ok input
    | .point .., input => BitSet.ofList width ((List.range width).filter (· ∉ input))

/-- A location with an entry in the table acts by its last one, any other does nothing. -/
def table (width : Nat) (rows : List (Location × GenKill)) : Analysis BitSet :=
  ofGenKill width fun l => .ok ((rows.reverse.lookup l).getD (.empty width))

/-- The weight of the heaviest way to a location, cut off at `cap`. The last weight given for a
location counts, and a location without one weighs 1. -/
def longest (cap : Nat) (weights : List (Location × Nat)) : Analysis Nat where
  bottom := 0
  flow l input := .ok (min (input + (weights.reverse.lookup l).getD 1) cap)

end Dependence.Analysis
