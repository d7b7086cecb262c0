import Std.Data.ExtTreeSet
import Dependence.Flow.Graph
import Dependence.Symbols

/-! The variables of a function and the occurrences of identifiers that refer to variables. Every
variable knows the occurrences that give it a value. -/

namespace Dependence

structure Object where
  id : Pos
  ident : Ident
  symbol : Symbol
  location : Location
  redefs : Std.ExtTreeSet Pos compare

/-- An occurrence that the oracle resolves. It is bound to an object if the variable is one of the
function's own. -/
structure Reference where
  id : Pos
  index : Nat
  ident : Ident
  oid : Pos
  object : Option Pos
deriving DecidableEq, Repr

structure Definitions where
  objects : List Object
  references : List Reference

namespace Definitions

def empty : Definitions := ⟨[], []⟩

def object? (d : Definitions) (id : Pos) : Option Object := d.objects.find? (·.id == id)

def reference? (d : Definitions) (id : Pos) : Option Reference := d.references.find? (·.id == id)

def objectOf? (d : Definitions) (r : Reference) : Option Object := r.object.bind d.object?

def referenceCount (d : Definitions) : Nat := d.references.length

def mention (d : Definitions) (i : Ident) (oid : Pos) : Definitions :=
  match d.reference? i.pos with
  | some _ => d
  | none =>
    let object := if (d.object? oid).isSome then some oid else none
    { d with references := d.references ++ [⟨i.pos, d.references.length, i, oid, object⟩] }

def redefine (d : Definitions) (oid pos : Pos) : Definitions :=
  { d with objects := d.objects.map fun o =>
      if o.id = oid then { o with redefs := o.redefs.insert pos } else o }

/-- The first identifier that defines a symbol makes it an object, every one gives it a value. -/
def declare (d : Definitions) (l : Location) (i : Ident) (symbol : Symbol) : Definitions :=
  let d := d.mention i symbol.decl
  match d.object? symbol.decl with
  | some _ => d.redefine symbol.decl i.pos
  | none => { d with objects := d.objects ++ [⟨symbol.decl, i, symbol, l, {i.pos}⟩] }

def record (oracle : Oracle) (d : Definitions) : Location × Ident → Definitions
  | (l, i) =>
    match oracle i with
    | .definition symbol => d.declare l i symbol
    | .usage symbol => d.mention i symbol.decl
    | .unresolved => d

def bindAll (d : Definitions) : Definitions :=
  { d with references := d.references.map fun r =>
      if (d.object? r.oid).isSome then { r with object := some r.oid } else r }

/-- Takes note that the target of an assignment gets a value. A target that is not among the
identifiers of its statement is looked up now. -/
def assignTo (oracle : Oracle) (d : Definitions) (target : Ident) : Definitions :=
  let d := match d.reference? target.pos, (oracle target).decl? with
    | none, some decl => d.mention target decl
    | _, _ => d
  match (d.reference? target.pos).bind (·.object) with
  | some oid => d.redefine oid target.pos
  | none => d

def occurrences (g : Graph) : List (Location × Ident) :=
  g.signature.bindings.map (fun i => (.entry, i)) ++
    g.blocks.zipIdx.flatMap fun (block, b) =>
      block.stmts.zipIdx.flatMap fun (stmt, s) => stmt.idents.map fun i => (.point b s, i)

def targets (g : Graph) : List Ident :=
  g.blocks.flatMap fun block => block.stmts.flatMap (·.redefined)

def find (g : Graph) (oracle : Oracle) : Definitions :=
  (targets g).foldl (assignTo oracle)
    ((occurrences g).foldl (record oracle) empty).bindAll

end Definitions

end Dependence
