import Dependence.Profiling.Aggregate

/-! Profiles: records in the order of their names, which are found by halving. -/

namespace Dependence

structure Profile where
  records : List Record
deriving DecidableEq, Repr

namespace Profile

def empty : Profile := ⟨[]⟩

/-- Records of equal name stay in the order in which they are given. -/
def ofRecords (records : List Record) : Profile :=
  ⟨records.mergeSort fun a b => decide (a.name ≤ b.name)⟩

def size (p : Profile) : Nat := p.records.length

def isEmpty (p : Profile) : Bool := p.records.isEmpty

/-- Halves the part of the records that starts at `base` until one is left: the last one whose name
is not after the name looked for. -/
def locate (records : List Record) (name : String) (base size : Nat) : Nat :=
  if size ≤ 1 then base
  else
    let half := size / 2
    if records[base + half]?.all (name < ·.name) then locate records name base (size - half)
    else locate records name (base + half) (size - half)
termination_by size

def get? (p : Profile) (name : String) : Option Record :=
  p.records[locate p.records name 0 p.size]?.filter (·.name = name)

end Profile

end Dependence
