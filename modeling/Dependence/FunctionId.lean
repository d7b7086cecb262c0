/-! Who a function is: its name together with the address at which it is entered. -/

namespace Dependence

structure FunctionId where
  name : String
  entry : Nat
deriving DecidableEq, Repr, Inhabited

namespace FunctionId

def text (id : FunctionId) : String :=
  id.name ++ "@0x" ++ String.ofList (Nat.toDigits 16 id.entry)

/-- By name, then by address. Names compare by code point, which is their order in bytes. -/
def le (a b : FunctionId) : Bool :=
  a.name < b.name || (a.name == b.name && a.entry ≤ b.entry)

end FunctionId

abbrev ContextId := Nat

def ContextId.text (c : ContextId) : String := s!"ctx{c}"

end Dependence
