import Dependence.Error

/-! Sets of numbers below a fixed capacity, one bit each, packed into words of 64 bits. An operation
that is given a number at or past the capacity, or two sets of different capacity, is an error. -/

namespace Dependence

/-- The member `i` is bit `i % 64` of word `i / 64`. -/
structure BitSet where
  capacity : Nat
  words : List (BitVec 64)
deriving DecidableEq, Repr

namespace BitSet

def empty (capacity : Nat) : BitSet :=
  ⟨capacity, List.replicate ((capacity + 63) / 64) 0#64⟩

instance : Inhabited BitSet := ⟨empty 0⟩

def bit (s : BitSet) (i : Nat) : Bool :=
  (s.words[i / 64]?.getD 0#64).getLsbD (i % 64)

def contains (s : BitSet) (i : Nat) : Bool :=
  decide (i < s.capacity) && s.bit i

instance : Membership Nat BitSet := ⟨fun s i => s.contains i = true⟩

instance (i : Nat) (s : BitSet) : Decidable (i ∈ s) :=
  inferInstanceAs (Decidable (s.contains i = true))

def mask (i : Nat) : BitVec 64 := 1#64 <<< (i % 64)

/-- The set with `i` in it, and whether `i` is new. -/
def insert (s : BitSet) (i : Nat) : Except Error (BitSet × Bool) :=
  if i < s.capacity then
    .ok ({ s with words := s.words.modify (i / 64) (· ||| mask i) }, !s.bit i)
  else
    .error (.indexOutOfBounds i s.capacity)

def erase (s : BitSet) (i : Nat) : Except Error (BitSet × Bool) :=
  if i < s.capacity then
    .ok ({ s with words := s.words.modify (i / 64) (· &&& ~~~(mask i)) }, s.bit i)
  else
    .error (.indexOutOfBounds i s.capacity)

def clear (s : BitSet) : BitSet :=
  { s with words := s.words.map fun _ => 0#64 }

def combine (f : BitVec 64 → BitVec 64 → BitVec 64) (s t : BitSet) : Except Error (BitSet × Bool) :=
  if s.capacity = t.capacity then
    let words := List.zipWith f s.words t.words
    .ok ({ s with words }, words != s.words)
  else
    .error (.capacityMismatch s.capacity t.capacity)

def union (s t : BitSet) : Except Error (BitSet × Bool) := combine (· ||| ·) s t

def difference (s t : BitSet) : Except Error (BitSet × Bool) := combine (· &&& ~~~ ·) s t

/-- Every member of `s` is one of `t`, whatever their capacities. -/
def isSubset (s t : BitSet) : Bool :=
  s.words.zipIdx.all fun (w, k) => w &&& ~~~(t.words[k]?.getD 0#64) == 0#64

def isEmpty (s : BitSet) : Bool := s.words.all (· == 0#64)

def count (s : BitSet) : Nat := s.words.foldr (fun w n => w.cpop.toNat + n) 0

def toList (s : BitSet) : List Nat :=
  s.words.zipIdx.flatMap fun (w, k) => ((List.range 64).filter w.getLsbD).map (64 * k + ·)

def ofList (capacity : Nat) (members : List Nat) : Except Error BitSet :=
  members.foldlM (fun s i => return (← s.insert i).1) (empty capacity)

def text (s : BitSet) : String :=
  "\x7b" ++ ", ".intercalate (s.toList.map Nat.repr) ++ "\x7d"

end BitSet

end Dependence
