import Dependence.Profiling.Call

/-! What is known of all calls of a function together, and the plain record of it that is kept and
exchanged. -/

namespace Dependence

structure Record where
  name : String
  entry : Nat
  successors : List (List Nat)
  postdominators : List (Option Nat)
  calls : Nat
  preds : List (List Nat)
deriving DecidableEq, Repr

structure Aggregate where
  layout : Layout
  calls : Nat
  preds : List BitSet
deriving DecidableEq, Repr

namespace Aggregate

def new (layout : Layout) : Aggregate :=
  ⟨layout, 0, List.replicate layout.nodeCount (.empty layout.nodeCount)⟩

def id (a : Aggregate) : FunctionId := a.layout.id

/-- Another identity is refused, and then another number of blocks. -/
def check (a : Aggregate) (id : FunctionId) (nodes : Nat) : Except Error Unit :=
  if id ≠ a.id then .error (.identityMismatch a.id id)
  else if nodes ≠ a.preds.length then .error (.shapeMismatch a.id a.preds.length nodes)
  else .ok ()

def checkMergeable (a b : Aggregate) : Except Error Unit := a.check b.id b.preds.length

def unions : List BitSet → List BitSet → Except Error (List BitSet)
  | s :: ss, t :: ts => do return (← s.union t).1 :: (← unions ss ts)
  | ss, _ => .ok ss

def add (a : Aggregate) (id : FunctionId) (calls : Nat) (preds : List BitSet) :
    Except Error Aggregate := do
  a.check id preds.length
  return { a with calls := a.calls + calls, preds := ← unions a.preds preds }

def update (a : Aggregate) (call : Call) : Except Error Aggregate := a.add call.id 1 call.preds

def merge (a b : Aggregate) : Except Error Aggregate := a.add b.id b.calls b.preds

def toRecord (a : Aggregate) : Record where
  name := a.layout.name
  entry := a.layout.id.entry
  successors := a.layout.successors
  postdominators := a.layout.postdominators
  calls := a.calls
  preds := a.preds.map (·.toList)

def predsDefect? (id : FunctionId) (nodes : Nat) (preds : List (List Nat)) : Option Defect :=
  if preds.length ≠ nodes then
    some (.predecessorSetCount id nodes preds.length)
  else
    preds.zipIdx.findSome? fun (members, node) =>
      (members.find? (nodes ≤ ·)).map (.predecessorRange id node · nodes)

def ofRecord (r : Record) : Except Error Aggregate := do
  let layout ← Layout.ofParts ⟨r.name, r.entry⟩ r.successors r.postdominators
  match predsDefect? layout.id layout.nodeCount r.preds with
  | some defect => throw (.malformed defect)
  | none =>
    let preds ← r.preds.mapM (BitSet.ofList layout.nodeCount)
    return ⟨layout, r.calls, preds⟩

end Aggregate

end Dependence
