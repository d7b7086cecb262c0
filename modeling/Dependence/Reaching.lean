import Dependence.Config
import Dependence.Dataflow.GenKill
import Dependence.Definitions

/-! Reaching definitions: which occurrences that gave a variable its value may still be in force at
a location. Facts are the indices of references. A location generates the references of the
variables it defines and kills the other references that define the same variables. -/

namespace Dependence

namespace Definitions

def addTarget (d : Definitions) (gk : GenKill) (target : Ident) : Except Error GenKill :=
  match d.reference? target.pos with
  | none => .ok gk
  | some reference =>
    match d.objectOf? reference with
    | none => .ok gk
    | some object => do
      let (gens, _) ← gk.gens.insert reference.index
      let others := object.redefs.toList.filter (· ≠ reference.id)
      let kills ← (others.filterMap d.reference?).foldlM
        (fun kills other => return (← kills.insert other.index).1) gk.kills
      return ⟨gens, kills⟩

def genKillOf (d : Definitions) (targets : List Ident) : Except Error GenKill :=
  targets.foldlM d.addTarget (.empty d.referenceCount)

def genKill (d : Definitions) (g : Graph) (l : Location) : Except Error GenKill :=
  d.genKillOf (g.definedAt l)

def analysis (d : Definitions) (g : Graph) : Analysis BitSet :=
  .ofGenKill d.referenceCount (d.genKill g)

end Definitions

structure Reaching (g : Graph) where
  definitions : Definitions
  solution : Solution BitSet g

namespace Reaching

/-- Each edge carries every reference at most once, so without a limit of its own the analysis of a
function is done after this many visits. -/
def patience (g : Graph) (d : Definitions) : Nat :=
  g.slotCount + d.referenceCount * g.dependencyCount

def solve (g : Graph) (d : Definitions) (config : Config) : Except Error (Reaching g) := do
  let solution ← (d.analysis g).solve g (config.maxIterations.getD (patience g d))
  return { definitions := d, solution }

variable {g : Graph}

def genKill (r : Reaching g) (l : Location) : Except Error GenKill := r.definitions.genKill g l

def decode (r : Reaching g) (set : Option BitSet) : List Reference :=
  (set.elim [] BitSet.toList).filterMap (r.definitions.references[·]?)

def incoming (r : Reaching g) (l : Location) : List Reference := r.decode (r.solution.input? l)

def outgoing (r : Reaching g) (l : Location) : List Reference := r.decode (r.solution.output? l)

def knows (r : Reaching g) (l : Location) : Bool :=
  (r.solution.input? l).isSome && (r.solution.output? l).isSome

end Reaching

structure Report where
  graph : Graph
  result : Except Error (Reaching graph)

def analyzeAll (graphs : List Graph) (oracle : Oracle) (config : Config) : List Report :=
  (graphs.filter (!·.isDeclaration)).map fun graph =>
    { graph, result := Reaching.solve graph (.find graph oracle) config }

end Dependence
