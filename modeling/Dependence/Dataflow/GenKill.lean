import Dependence.Dataflow.Worklist

/-! Analyses whose states are sets, where a location removes some members and then adds others. -/

namespace Dependence

structure GenKill where
  gens : BitSet
  kills : BitSet
deriving DecidableEq, Repr

namespace GenKill

def empty (width : Nat) : GenKill := ⟨.empty width, .empty width⟩

/-- What is killed goes first, so a member both killed and generated is there afterwards. -/
def apply (gk : GenKill) (input : BitSet) : Except Error BitSet := do
  let (rest, _) ← input.difference gk.kills
  let (output, _) ← rest.union gk.gens
  return output

end GenKill

def Analysis.ofGenKill (width : Nat) (transfer : Location → Except Error GenKill) :
    Analysis BitSet where
  bottom := .empty width
  flow l input := do (← transfer l).apply input

end Dependence
