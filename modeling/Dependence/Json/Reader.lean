import Dependence.Json.Basic

/-! Reading JSON text, strictly: no comments, no comma at the end of a list, no superfluous zeros,
and nothing but blanks after the value. A string may hold anything but quotes, backslashes and
control characters, and whether it is text is settled afterwards. -/

namespace Dependence.Json

def isBlank (b : UInt8) : Bool := b = 32 || b = 9 || b = 10 || b = 13

def skipBlanks (bs : Bytes) : Bytes := bs.dropWhile isBlank

def isDigit (b : UInt8) : Bool := ascii '0' ≤ b && b ≤ ascii '9'

def ofDigits (bs : Bytes) : Nat := bs.foldl (fun n b => 10 * n + (b - ascii '0').toNat) 0

def readDigits (bs : Bytes) : Option (Bytes × Bytes) :=
  match bs.takeWhile isDigit with
  | [] => none
  | ds => some (ds, bs.dropWhile isDigit)

def skipFraction : Bytes → Option (Bool × Bytes)
  | b :: bs =>
    if b = ascii '.' then (readDigits bs).map fun (_, rest) => (true, rest)
    else some (false, b :: bs)
  | [] => some (false, [])

def skipSign : Bytes → Bytes
  | b :: bs => if b = ascii '+' || b = ascii '-' then bs else b :: bs
  | [] => []

def skipExponent : Bytes → Option (Bool × Bytes)
  | b :: bs =>
    if b = ascii 'e' || b = ascii 'E' then
      (readDigits (skipSign bs)).map fun (_, rest) => (true, rest)
    else some (false, b :: bs)
  | [] => some (false, [])

def readUnsigned (bs : Bytes) : Option (Option Nat × Bytes) := do
  let (digits, rest) ← readDigits bs
  if digits.head? = some (ascii '0') && digits.length ≠ 1 then none
  let (fraction, rest) ← skipFraction rest
  let (exponent, rest) ← skipExponent rest
  return (if fraction || exponent then none else some (ofDigits digits), rest)

inductive TextUnit where
  | byte (b : UInt8)
  | code (n : Nat)
deriving DecidableEq, Repr

def hexValue? (b : UInt8) : Option Nat :=
  if isDigit b then some (b - ascii '0').toNat
  else if ascii 'a' ≤ b && b ≤ ascii 'f' then some ((b - ascii 'a').toNat + 10)
  else if ascii 'A' ≤ b && b ≤ ascii 'F' then some ((b - ascii 'A').toNat + 10)
  else none

def hexNumber? (a b c d : UInt8) : Option Nat := do
  return (((← hexValue? a) * 16 + (← hexValue? b)) * 16 + (← hexValue? c)) * 16 + (← hexValue? d)

def unescape? (b : UInt8) : Option UInt8 :=
  if b = ascii '"' || b = ascii '\\' || b = ascii '/' then some b
  else if b = ascii 'b' then some 8
  else if b = ascii 't' then some 9
  else if b = ascii 'n' then some 10
  else if b = ascii 'f' then some 12
  else if b = ascii 'r' then some 13
  else none

def readUnits : Bytes → Option (List TextUnit × Bytes)
  | [] => none
  | b :: bs =>
    if b = ascii '"' then some ([], bs)
    else if b = ascii '\\' then
      match bs with
      | [] => none
      | e :: bs =>
        if e = ascii 'u' then
          match bs with
          | h :: i :: j :: k :: bs =>
            match hexNumber? h i j k with
            | some n => (readUnits bs).map fun (units, rest) => (.code n :: units, rest)
            | none => none
          | _ => none
        else
          match unescape? e with
          | some c => (readUnits bs).map fun (units, rest) => (.byte c :: units, rest)
          | none => none
    else if b < 32 then none
    else (readUnits bs).map fun (units, rest) => (.byte b :: units, rest)

def isLeading (n : Nat) : Bool := 0xD800 ≤ n && n < 0xDC00

def isTrailing (n : Nat) : Bool := 0xDC00 ≤ n && n < 0xE000

def characterBytes (n : Nat) : Bytes := String.utf8EncodeChar (Char.ofNat n)

/-- The bytes that units stand for. A leading surrogate has to be followed by a trailing one, with
which it makes one character, and there is no other place for a trailing one. -/
def unitBytes? : List TextUnit → Option Bytes
  | [] => some []
  | .byte b :: units => (unitBytes? units).map (b :: ·)
  | .code n :: units =>
    if isLeading n then
      match units with
      | .code m :: units =>
        if isTrailing m then
          (unitBytes? units).map
            (characterBytes (0x10000 + (n - 0xD800) * 0x400 + (m - 0xDC00)) ++ ·)
        else none
      | _ => none
    else if isTrailing n then none
    else (unitBytes? units).map (characterBytes n ++ ·)

def unitText? (units : List TextUnit) : Option String :=
  (unitBytes? units).bind fun bs => String.fromUTF8? ⟨bs.toArray⟩

def readString (bs : Bytes) : Option (Option String × Bytes) :=
  (readUnits bs).map fun (units, rest) => (unitText? units, rest)

def expect (word : String) (bs : Bytes) : Option Bytes :=
  if (Bytes.ofString word).isPrefixOf bs then some (bs.drop (Bytes.ofString word).length) else none

def readName (bs : Bytes) : Option (Option String × Bytes) := do
  let (name, bs) ← readString (← expect "\"" (skipBlanks bs))
  return (name, ← expect ":" (skipBlanks bs))

mutual

/-- One value with the blanks before it. The first argument bounds the nesting and the lengths of
lists. -/
def readValue : Nat → Bytes → Option (Json × Bytes)
  | 0, _ => none
  | n + 1, bs =>
    match skipBlanks bs with
    | [] => none
    | b :: bs =>
      if b = ascii '[' then
        match skipBlanks bs with
        | [] => none
        | c :: rest =>
          if c = ascii ']' then some (array [], rest)
          else (readItems n bs).map fun (items, rest) => (array items, rest)
      else if b = ascii '\x7b' then
        match skipBlanks bs with
        | [] => none
        | c :: rest =>
          if c = ascii '\x7d' then some (object [], rest)
          else (readMembers n bs).map fun (members, rest) => (object members, rest)
      else if b = ascii '"' then (readString bs).map fun (s, rest) => (string s, rest)
      else if b = ascii 'n' then (expect "ull" bs).map fun rest => (null, rest)
      else if b = ascii 't' then (expect "rue" bs).map fun rest => (bool true, rest)
      else if b = ascii 'f' then (expect "alse" bs).map fun rest => (bool false, rest)
      else if b = ascii '-' then (readUnsigned bs).map fun (_, rest) => (number none, rest)
      else (readUnsigned (b :: bs)).map fun (natural, rest) => (number natural, rest)

def readItems : Nat → Bytes → Option (List Json × Bytes)
  | 0, _ => none
  | n + 1, bs =>
    match readValue n bs with
    | none => none
    | some (item, bs) =>
      match skipBlanks bs with
      | [] => none
      | b :: bs =>
        if b = ascii ']' then some ([item], bs)
        else if b = ascii ',' then (readItems n bs).map fun (items, rest) => (item :: items, rest)
        else none

def readMembers : Nat → Bytes → Option (List (Option String × Json) × Bytes)
  | 0, _ => none
  | n + 1, bs =>
    match readName bs with
    | none => none
    | some (name, bs) =>
      match readValue n bs with
      | none => none
      | some (value, bs) =>
        match skipBlanks bs with
        | [] => none
        | b :: bs =>
          if b = ascii '\x7d' then some ([(name, value)], bs)
          else if b = ascii ',' then
            (readMembers n bs).map fun (members, rest) => ((name, value) :: members, rest)
          else none

end

/-- Reads a whole text. Every level of nesting and every item takes at least one byte, and at most
two calls are made before the next byte is read. -/
def read (bs : Bytes) : Option Json :=
  (readValue (2 * bs.length + 2) bs).bind fun (value, rest) =>
    if (skipBlanks rest).isEmpty then some value else none

end Dependence.Json
