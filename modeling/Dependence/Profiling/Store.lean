import Dependence.Profiling.Profile

/-! The store in which calls, aggregates and profiles are added up. An operation on it gives the
store after it and whether it succeeded. -/

namespace Dependence

structure Store where
  aggregates : Std.ExtTreeMap String Aggregate compare

namespace Store

def empty : Store := ⟨∅⟩

def get? (s : Store) (name : String) : Option Aggregate := s.aggregates[name]?

def size (s : Store) : Nat := s.aggregates.size

def isEmpty (s : Store) : Bool := s.aggregates.isEmpty

def insert (s : Store) (a : Aggregate) : Store := ⟨s.aggregates.insert a.layout.name a⟩

/-- The aggregate of the layout's name, whatever its own layout; a new one if there is none. -/
def getOrCreate (s : Store) (layout : Layout) : Store × Aggregate :=
  match s.get? layout.name with
  | some a => (s, a)
  | none => (s.insert (.new layout), .new layout)

def put (s : Store) : Except Error Aggregate → Store × Except Error Unit
  | .ok a => (s.insert a, .ok ())
  | .error e => (s, .error e)

def fold (s : Store) (call : Call) : Store × Except Error Unit :=
  let (s, a) := s.getOrCreate call.layout
  s.put (a.update call)

def merge (s : Store) (a : Aggregate) : Store × Except Error Unit :=
  match s.get? a.layout.name with
  | some stored => s.put (stored.merge a)
  | none => (s.insert a, .ok ())

/-- Whether aggregates could be merged one after the other: each must agree with the one stored
under its name and with the nearest one of its name before it. `seen` are those before, last first.
-/
def checkAll (s : Store) (seen : List Aggregate) : List Aggregate → Except Error Unit
  | [] => .ok ()
  | a :: rest => do
    if let some stored := s.get? a.layout.name then
      stored.checkMergeable a
    if let some earlier := seen.find? (·.layout.name = a.layout.name) then
      earlier.checkMergeable a
    s.checkAll (a :: seen) rest

def mergeAll (s : Store) : List Aggregate → Store × Except Error Unit
  | [] => (s, .ok ())
  | a :: rest =>
    match s.merge a with
    | (s, .ok ()) => s.mergeAll rest
    | (s, .error e) => (s, .error e)

def absorb (s : Store) (p : Profile) : Store × Except Error Unit :=
  match p.records.mapM Aggregate.ofRecord with
  | .error e => (s, .error e)
  | .ok aggregates =>
    match s.checkAll [] aggregates with
    | .error e => (s, .error e)
    | .ok () => s.mergeAll aggregates

def profile (s : Store) : Profile :=
  .ofRecords (s.aggregates.toList.map fun (_, a) => a.toRecord)

end Store

def Profile.merge (p q : Profile) : Except Error Profile := do
  let (s, first) := Store.empty.absorb p
  first
  let (s, second) := s.absorb q
  second
  return s.profile

def Profile.absorb (p q : Profile) : Profile × Except Error Unit :=
  match p.merge q with
  | .ok sum => (sum, .ok ())
  | .error e => (p, .error e)

end Dependence
