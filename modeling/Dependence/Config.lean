/-! Settings of an analysis. -/

namespace Dependence

/-- `parallel` allows several functions to be analysed at once. It has no influence on answers. -/
structure Config where
  maxIterations : Option Nat
  parallel : Bool
deriving DecidableEq, Repr

namespace Config

def default : Config := ⟨none, true⟩

def sequential : Config := { default with parallel := false }

def bounded : Config := { default with maxIterations := some 1000000 }

def withMaxIterations (c : Config) (n : Nat) : Config := { c with maxIterations := some n }

def unbounded (c : Config) : Config := { c with maxIterations := none }

def withParallel (c : Config) (parallel : Bool) : Config := { c with parallel }

end Config

end Dependence
