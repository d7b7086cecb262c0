import Dependence.FunctionId

/-! What can go wrong, as causes, and the wording of each cause. A `Defect` is an inconsistency
found while checking a description given from outside; an `Error` is the failure of an operation. -/

namespace Dependence

inductive Defect where
  | unknownSuccessor (function : String) (block successor count : Nat)
  | missingPredecessor (function : String) (block successor : Nat)
  | unknownPredecessor (function : String) (block predecessor count : Nat)
  | missingSuccessor (function : String) (predecessor block : Nat)
  | postdominatorCount (function : FunctionId) (nodes entries : Nat)
  | successorRange (function : FunctionId) (node successor count : Nat)
  | postdominatorRange (function : FunctionId) (node postdominator count : Nat)
  | predecessorSetCount (function : FunctionId) (nodes sets : Nat)
  | predecessorRange (function : FunctionId) (node predecessor count : Nat)
  | reported (message : String)
deriving DecidableEq, Repr

namespace Defect

def message : Defect → String
  | unknownSuccessor function block successor count =>
    s!"{function}: block {block} has successor {successor}, but only {count} blocks exist"
  | missingPredecessor function block successor =>
    s!"{function}: edge {block} -> {successor} is missing from the predecessors of {successor}"
  | unknownPredecessor function block predecessor count =>
    s!"{function}: block {block} has predecessor {predecessor}, but only {count} blocks exist"
  | missingSuccessor function predecessor block =>
    s!"{function}: edge {predecessor} -> {block} is missing from the successors of {predecessor}"
  | postdominatorCount function nodes entries =>
    s!"{function.text}: {nodes} nodes but {entries} postdominator entries"
  | successorRange function node successor count =>
    s!"{function.text}: node {node} has successor {successor}, but only {count} nodes exist"
  | postdominatorRange function node postdominator count =>
    s!"{function.text}: node {node} has postdominator {postdominator}, but only {count} nodes exist"
  | predecessorSetCount function nodes sets =>
    s!"{function.text}: {nodes} nodes but {sets} predecessor sets"
  | predecessorRange function node predecessor count =>
    s!"{function.text}: node {node} has predecessor {predecessor}, but only {count} nodes exist"
  | reported message => message

end Defect

structure Site where
  file : String
  line : Nat

inductive Error where
  | indexOutOfBounds (index capacity : Nat)
  | capacityMismatch (left right : Nat)
  | malformed (defect : Defect)
  | fixpointNotReached (function : String) (iterations : Nat)
  | identityMismatch (expected found : FunctionId)
  | shapeMismatch (function : FunctionId) (expected found : Nat)
  | unbalancedExit (expected found : String)
  | noActiveCall (context : ContextId)
  | blockOutOfRange (function : String) (block count : Nat)
  | unknownFunction (name : String)
  | shutDown
  | file (reason : String)
  | unreadable
deriving DecidableEq, Repr

namespace Error

/-- The two causes that a caller rules out beforehand: a number too large for its set, and two sets
of different capacity in one operation. -/
def isFault : Error → Bool
  | indexOutOfBounds .. | capacityMismatch .. => true
  | _ => false

/-- Causes after which what was recorded can no longer be trusted. -/
def isFatal : Error → Bool
  | identityMismatch .. | shapeMismatch .. | unbalancedExit .. | noActiveCall .. => true
  | _ => false

def message : Error → String
  | indexOutOfBounds index capacity => s!"index {index} out of bounds ({capacity})"
  | capacityMismatch left right =>
    "assertion `left == right` failed: bit sets must have same length" ++
      s!"\n  left: {left}\n right: {right}"
  | malformed defect => defect.message
  | fixpointNotReached function iterations =>
    s!"Fixpoint not reached for '{function}' after {iterations} iterations"
  | identityMismatch expected found =>
    s!"Can't merge profile of {found.text} into {expected.text}"
  | shapeMismatch function expected found =>
    s!"Profile of {function.text} has {found} nodes, expected {expected}"
  | unbalancedExit expected found =>
    s!"Exit from '{found}' while '{expected}' is the active call"
  | noActiveCall context => s!"No active call in execution context {context}"
  | blockOutOfRange function block count =>
    s!"Block {block} is out of range for '{function}' ({count} blocks)"
  | unknownFunction name => s!"No static layout registered for '{name}'"
  | shutDown => "The recorder has been shut down"
  | file reason => reason
  | unreadable => "The text is not a profile"

/-- The message as it is shown to a user, which says of a defect where the check stands that found it. -/
def shown (site : Site) : Error → String
  | malformed defect => s!"Malformed - {site.file}:{site.line}: {defect.message}"
  | e => e.message

end Error

theorem bind_eq_ok {α β : Type} {x : Except Error α} {f : α → Except Error β} {r : β} :
    (x >>= f) = .ok r ↔ ∃ a, x = .ok a ∧ f a = .ok r := by
  cases x <;> simp [bind, Except.bind]

def fetch {α : Type} (xs : List α) (i : Nat) : Except Error α :=
  match xs[i]? with
  | some x => .ok x
  | none => .error (.indexOutOfBounds i xs.length)

theorem fetch_of_getElem? {α : Type} {xs : List α} {i : Nat} {x : α} (h : xs[i]? = some x) :
    fetch xs i = .ok x := by
  rw [fetch, h]

end Dependence
