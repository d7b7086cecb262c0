/-! Statements as far as variables are concerned: which identifiers occur in them and which of these
they assign to. -/

namespace Dependence

abbrev Pos := Nat

def Pos.text (p : Pos) : String := s!"@{p}"

structure Ident where
  name : String
  pos : Pos
deriving DecidableEq, Repr

def Ident.text (i : Ident) : String := i.name ++ i.pos.text

inductive Target where
  | ident (i : Ident)
  | other
deriving DecidableEq, Repr

def Target.ident? : Target → Option Ident
  | ident i => some i
  | other => none

inductive Action where
  | assign (targets : List Target)
  | incDec (target : Target)
  | other
deriving DecidableEq, Repr

/-- The identifiers of a statement are listed in the order in which they are looked up. -/
structure Statement where
  action : Action
  idents : List Ident
deriving DecidableEq, Repr

namespace Statement

def assign (targets operands : List Ident) : Statement :=
  ⟨.assign (targets.map .ident), targets ++ operands⟩

def incDec (target : Ident) : Statement := ⟨.incDec (.ident target), [target]⟩

def other (idents : List Ident) : Statement := ⟨.other, idents⟩

def redefined (s : Statement) : List Ident :=
  match s.action with
  | .assign targets => targets.filterMap Target.ident?
  | .incDec target => target.ident?.toList
  | .other => []

end Statement

structure Signature where
  receiver : List Ident
  params : List Ident
  results : List Ident
deriving DecidableEq, Repr

def Signature.bindings (s : Signature) : List Ident := s.receiver ++ s.params ++ s.results

end Dependence
