/-! JSON values as far as they matter here, and their compact text in bytes. Of a number only a
plain natural number is kept, of a string only a sequence of characters: all other numbers are one
value, and so are all strings that are not text because of a surrogate or a byte that belongs to
nothing. -/

namespace Dependence

inductive Json where
  | null
  | bool (b : Bool)
  | number (natural : Option Nat)
  | string (text : Option String)
  | array (items : List Json)
  | object (members : List (Option String × Json))
deriving Repr

namespace Json

abbrev Bytes := List UInt8

def Bytes.ofString (s : String) : Bytes := s.toUTF8.data.toList

def ascii (c : Char) : UInt8 := c.toUInt8

def hexDigit (n : Nat) : UInt8 :=
  if n < 10 then ascii '0' + n.toUInt8 else ascii 'a' + (n - 10).toUInt8

def shortEscape? (b : UInt8) : Option UInt8 :=
  if b = 8 then some (ascii 'b')
  else if b = 9 then some (ascii 't')
  else if b = 10 then some (ascii 'n')
  else if b = 12 then some (ascii 'f')
  else if b = 13 then some (ascii 'r')
  else none

def escape (b : UInt8) : Bytes :=
  if b = ascii '"' ∨ b = ascii '\\' then [ascii '\\', b]
  else if b < 32 then
    match shortEscape? b with
    | some letter => [ascii '\\', letter]
    | none => [ascii '\\', ascii 'u', ascii '0', ascii '0', hexDigit (b.toNat / 16),
        hexDigit (b.toNat % 16)]
  else [b]

/-- A string in quotes. The text that stands for all strings that are no text is a lone surrogate.
-/
def quote : Option String → Bytes
  | some s => ascii '"' :: (Bytes.ofString s).flatMap escape ++ [ascii '"']
  | none => Bytes.ofString "\"\\ud800\""

def decimal (n : Nat) : Bytes :=
  if n < 10 then [ascii '0' + n.toUInt8] else decimal (n / 10) ++ [ascii '0' + (n % 10).toUInt8]

mutual

def render : Json → Bytes
  | null => Bytes.ofString "null"
  | bool true => Bytes.ofString "true"
  | bool false => Bytes.ofString "false"
  | number (some n) => decimal n
  | number none => Bytes.ofString "-0"
  | string s => quote s
  | array [] => [ascii '[', ascii ']']
  | array (item :: items) => ascii '[' :: render item ++ renderItems items
  | object [] => [ascii '\x7b', ascii '\x7d']
  | object ((name, value) :: members) =>
    ascii '\x7b' :: quote name ++ ascii ':' :: render value ++ renderMembers members

/-- The items after the first one, with the bracket that closes the array. -/
def renderItems : List Json → Bytes
  | [] => [ascii ']']
  | item :: items => ascii ',' :: render item ++ renderItems items

def renderMembers : List (Option String × Json) → Bytes
  | [] => [ascii '\x7d']
  | (name, value) :: members =>
    ascii ',' :: quote name ++ ascii ':' :: render value ++ renderMembers members

end

end Json

end Dependence
