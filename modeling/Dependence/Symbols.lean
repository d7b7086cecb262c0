import Std.Data.ExtTreeMap
import Dependence.Flow.Statement

/-! What identifiers stand for. A symbol is a variable, told apart by where it is declared; an
oracle says of an occurrence whether it defines or uses one. -/

namespace Dependence

structure Symbol where
  name : String
  decl : Pos
deriving DecidableEq, Repr

inductive Resolution where
  | definition (symbol : Symbol)
  | usage (symbol : Symbol)
  | unresolved
deriving DecidableEq, Repr

def Resolution.decl? : Resolution → Option Pos
  | definition symbol | usage symbol => some symbol.decl
  | unresolved => none

abbrev Oracle := Ident → Resolution

/-- Answers by position; the last answer given for a position counts. -/
def Oracle.ofList (answers : List (Pos × Resolution)) : Oracle := fun i =>
  (answers.reverse.lookup i.pos).getD .unresolved

inductive Occurrence where
  | definition
  | usage (decl : Pos)
deriving DecidableEq, Repr

structure SymbolTable where
  symbols : Std.ExtTreeMap Pos Symbol compare
  occurrences : Std.ExtTreeMap Pos Occurrence compare

namespace SymbolTable

def empty : SymbolTable := ⟨∅, ∅⟩

def define (t : SymbolTable) (i : Ident) : SymbolTable :=
  ⟨t.symbols.insert i.pos ⟨i.name, i.pos⟩, t.occurrences.insert i.pos .definition⟩

def useOf (t : SymbolTable) (pos decl : Pos) : SymbolTable :=
  { t with occurrences := t.occurrences.insert pos (.usage decl) }

def size (t : SymbolTable) : Nat := t.occurrences.size

def isEmpty (t : SymbolTable) : Bool := t.occurrences.isEmpty

/-- A symbol that is used and was not declared has the name of the identifier. -/
def resolve (t : SymbolTable) : Oracle := fun i =>
  match t.occurrences[i.pos]? with
  | some .definition =>
    match t.symbols[i.pos]? with
    | some symbol => .definition symbol
    | none => .unresolved
  | some (.usage decl) => .usage (t.symbols[decl]?.getD ⟨i.name, decl⟩)
  | none => .unresolved

end SymbolTable

end Dependence
