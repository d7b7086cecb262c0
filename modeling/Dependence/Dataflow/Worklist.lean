import Dependence.JoinLattice
import Dependence.Flow.Slots

/-! Forward data-flow analyses, solved by a worklist. The state before a location joins the states
after the locations that control comes from; the state after it is what the analysis makes of that.
All locations are pending at first, the one that waits longest is visited next, and whenever the
state after a location changes those that depend on it are pending again. -/

namespace Dependence

structure Analysis (L : Type) where
  bottom : L
  flow : Location → L → Except Error L

structure State (L : Type) (n : Nat) where
  inputs : Vector L n
  outputs : Vector L n
  pending : List (Fin n)
  pops : Nat

structure Solution (L : Type) (g : Graph) where
  inputs : Vector L g.slotCount
  outputs : Vector L g.slotCount
  pops : Nat

namespace Solution

variable {L : Type} {g : Graph}

def input? (s : Solution L g) (l : Location) : Option L :=
  (g.slotOf? l).map fun i => s.inputs[i.val]

def output? (s : Solution L g) (l : Location) : Option L :=
  (g.slotOf? l).map fun i => s.outputs[i.val]

end Solution

def enqueue {n : Nat} (pending : List (Fin n)) (i : Fin n) : List (Fin n) :=
  if i ∈ pending then pending else pending ++ [i]

namespace Analysis

variable {L : Type} [DecidableEq L] [JoinLattice L]

def start (a : Analysis L) (g : Graph) : State L g.slotCount where
  inputs := Vector.replicate g.slotCount a.bottom
  outputs := Vector.replicate g.slotCount a.bottom
  pending := List.finRange g.slotCount
  pops := 0

def inputOf (a : Analysis L) (g : Graph) (outputs : Vector L g.slotCount) (i : g.Slot) :
    Except Error L :=
  (g.sourceSlots i).foldlM (fun x j => JoinLattice.absorb x outputs[j.val]) a.bottom

def visit (a : Analysis L) (g : Graph) (s : State L g.slotCount) (i : g.Slot) :
    Except Error (State L g.slotCount) := do
  let input ← a.inputOf g s.outputs i
  let output ← a.flow (g.location i) input
  let inputs := s.inputs.set i.val input
  let pending := s.pending.erase i
  if output = s.outputs[i.val] then
    return { inputs, outputs := s.outputs, pending, pops := s.pops + 1 }
  else
    return {
      inputs
      outputs := s.outputs.set i.val output
      pending := (g.dependentSlots i).foldl enqueue pending
      pops := s.pops + 1 }

/-- Visits pending locations until there are none, at most the given number of them. There is no
state if that is not enough. -/
def run (a : Analysis L) (g : Graph) :
    Nat → State L g.slotCount → Except Error (Option (State L g.slotCount))
  | 0, s => .ok (if s.pending.isEmpty then some s else none)
  | n + 1, s =>
    match s.pending with
    | [] => .ok (some s)
    | i :: _ => do a.run g n (← a.visit g s i)

def solve (a : Analysis L) (g : Graph) (limit : Nat) : Except Error (Solution L g) := do
  match ← a.run g limit (a.start g) with
  | some s => return { inputs := s.inputs, outputs := s.outputs, pops := s.pops }
  | none => throw (.fixpointNotReached g.name (limit + 1))

def exhaust (a : Analysis L) (g : Graph) (s : State L g.slotCount) :
    Except Error (State L g.slotCount) :=
  have : Nonempty (State L g.slotCount) := ⟨s⟩
  repeatM (fun s => do
    match s.pending with
    | [] => return .inr s
    | i :: _ => return .inl (← a.visit g s i)) s

def solveUnbounded (a : Analysis L) (g : Graph) : Except Error (Solution L g) := do
  let s ← a.exhaust g (a.start g)
  return { inputs := s.inputs, outputs := s.outputs, pops := s.pops }

end Analysis

end Dependence
