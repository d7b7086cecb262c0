import Dependence.Json.Reader
import Dependence.Profiling.Store

/-! Profiles as JSON text. A record is written as an object; both a record and a profile may also be
read from the array of their members. -/

namespace Dependence

namespace Json

def ofNat (n : Nat) : Json := number (some n)

def ofOption (n : Option Nat) : Json := n.elim null ofNat

def ofNats (ns : List Nat) : Json := array (ns.map ofNat)

def text? : Json → Option String
  | string s => s
  | _ => none

def word? : Json → Option Nat
  | number (some n) => if n < UInt64.size then some n else none
  | _ => none

def optionalWord? : Json → Option (Option Nat)
  | null => some none
  | j => j.word?.map some

def items? {α : Type} (f : Json → Option α) : Json → Option (List α)
  | array items => items.mapM f
  | _ => none

/-- The values of the members with the given names, in the order of the names. In an object each of
them has to be there once; members of other names are ignored, but their names have to be text. An
array has to have exactly these members in order. -/
def members? (names : List String) : Json → Option (List Json)
  | object members =>
    if members.all (·.1.isSome) then
      names.mapM fun name =>
        match members.filter (·.1 = some name) with
        | [(_, value)] => some value
        | _ => none
    else none
  | array items => if items.length = names.length then some items else none
  | _ => none

end Json

namespace Record

def toJson (r : Record) : Json :=
  .object [(some "name", .string (some r.name)), (some "entry", .ofNat r.entry),
    (some "cfg", .array (r.successors.map .ofNats)),
    (some "ipdom", .array (r.postdominators.map .ofOption)), (some "calls", .ofNat r.calls),
    (some "dyn_cdp", .array (r.preds.map .ofNats))]

def ofJson? (j : Json) : Option Record := do
  match ← j.members? ["name", "entry", "cfg", "ipdom", "calls", "dyn_cdp"] with
  | [name, entry, successors, postdominators, calls, preds] =>
    return {
      name := ← name.text?
      entry := ← entry.word?
      successors := ← successors.items? (Json.items? Json.word?)
      postdominators := ← postdominators.items? Json.optionalWord?
      calls := ← calls.word?
      preds := ← preds.items? (Json.items? Json.word?) }
  | _ => none

end Record

namespace Profile

def toJson (p : Profile) : Json :=
  .object [(some "functions", .array (p.records.map Record.toJson))]

def ofJson? (j : Json) : Option Profile := do
  match ← j.members? ["functions"] with
  | [records] => return ofRecords (← records.items? Record.ofJson?)
  | _ => none

def write (p : Profile) : Json.Bytes := p.toJson.render

def read (bs : Json.Bytes) : Except Error Profile :=
  match (Json.read bs).bind ofJson? with
  | some p => .ok p
  | none => .error .unreadable

def toFile (p : Profile) : Except String Unit → Except Error Json.Bytes
  | .ok () => .ok p.write
  | .error reason => .error (.file reason)

def ofFile : Except String Json.Bytes → Except Error Profile
  | .ok contents => read contents
  | .error reason => .error (.file reason)

end Profile

end Dependence
