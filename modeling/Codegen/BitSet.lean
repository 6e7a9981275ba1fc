import Codegen.Bytes
import Codegen.Wire

/-!
# Sets of numbers as bits of words

Position `i` is bit `i % 64` of word `i / 64`. The list of words grows on demand and may
end in words without members. Positions come from outside as integers: below zero they
denote no bit, and the operations refuse them once a word for them is there.
-/

namespace Codegen

/-- `made` tells a set made on purpose from one that never got a word. -/
structure BitSet where
  words : List UInt64
  made : Bool
  deriving DecidableEq, Repr

namespace BitSet

instance : EmptyCollection BitSet := ⟨⟨[], true⟩⟩

def unmade : BitSet :=
  ⟨[], false⟩

def bit (n : Nat) : UInt64 :=
  1 <<< n.toUInt64

def padded (count : Nat) (words : List UInt64) : List UInt64 :=
  words ++ List.replicate (count - words.length) 0

def insert (s : BitSet) (n : Nat) : BitSet :=
  { s with words := (padded (n / 64 + 1) s.words).modify (n / 64) (· ||| bit (n % 64)) }

def erase (s : BitSet) (n : Nat) : BitSet :=
  { s with words := s.words.modify (n / 64) (· &&& ~~~(bit (n % 64))) }

def contains (s : BitSet) (n : Nat) : Bool :=
  s.words.getD (n / 64) 0 &&& bit (n % 64) != 0

def union (s t : BitSet) : BitSet :=
  let own := padded t.words.length s.words
  let other := padded s.words.length t.words
  { s with words := own.zipWith (· ||| ·) other }

def diff (s t : BitSet) : BitSet :=
  { s with words := s.words.zipWith (fun a b => a &&& ~~~b) (padded s.words.length t.words) }

def sameMembers (s t : BitSet) : Bool :=
  padded t.words.length s.words == padded s.words.length t.words

def bitsOf (word : UInt64) : List Nat :=
  (List.range 64).filter fun j => word &&& bit j != 0

def size (s : BitSet) : Nat :=
  (s.words.flatMap bitsOf).length

def lowest? (word : UInt64) : Option Nat :=
  (List.range 64).find? fun j => word &&& bit j != 0

theorem toNat_clear_lt {word : UInt64} {j : Nat} (found : lowest? word = some j) :
    (word &&& ~~~(bit j)).toNat < word.toNat := by
  have there := List.find?_some found
  refine Nat.lt_of_le_of_ne (UInt64.toNat_and .. ▸ Nat.and_le_left) fun same => ?_
  have cleared : word &&& bit j = 0 := by
    rw [← UInt64.toNat_inj.mp same, UInt64.and_assoc, UInt64.not_and_self, UInt64.and_zero]
  simp [cleared] at there

/-- Visits the bits of a word from the lowest on, each of which is cleared before the next one
is looked for, up to and including the first that is not accepted. A bit is asked for as a
position after `offset`, with the number of members visited so far, and the answer also
tells whether all were accepted. -/
def visitWord (goOn : Nat → Nat → Bool) (offset visited : Nat) (word : UInt64) :
    Bool × List Nat :=
  match _h : lowest? word with
  | none => (true, [])
  | some j =>
    if goOn (visited + 1) (offset + j) then
      let (all, rest) := visitWord goOn offset (visited + 1) (word &&& ~~~(bit j))
      (all, (offset + j) :: rest)
    else (false, [offset + j])
termination_by word.toNat
decreasing_by exact toNat_clear_lt _h

def visitWords (goOn : Nat → Nat → Bool) : Nat → Nat → List UInt64 → List Nat
  | _, _, [] => []
  | index, visited, word :: words =>
    match visitWord goOn (index * 64) visited word with
    | (true, members) =>
      members ++ visitWords goOn (index + 1) (visited + members.length) words
    | (false, members) => members

/-- The members up to and including the first that is not accepted, when asked in
ascending order with the number of members visited so far. -/
def visited (s : BitSet) (goOn : Nat → Nat → Bool) : List Nat :=
  visitWords goOn 0 0 s.words

def toList (s : BitSet) : List Nat :=
  s.visited fun _ _ => true

/-- No block of memory holds more words than this. -/
def maxWords : Int := 0x200000000000

def withLength? (length : Int) : Option BitSet :=
  let count := (length + 63).tdiv 64
  if 0 ≤ count ∧ count ≤ maxWords then some ⟨List.replicate count.toNat 0, true⟩ else none

/-- A position below zero is refused; if it falls into the first word, that word is
there afterwards. -/
def insertAt (s : BitSet) (i : Int) : Bool × BitSet :=
  if 0 ≤ i then (true, s.insert i.toNat)
  else if -64 < i then (false, { s with words := padded 1 s.words })
  else (false, s)

/-- The word of a position below zero is not there if it is the first and the set has
none; only then can the position be answered for. -/
def lacksWord (s : BitSet) (i : Int) : Bool :=
  decide (-64 < i) && s.words.isEmpty

def eraseAt? (s : BitSet) (i : Int) : Option BitSet :=
  if 0 ≤ i then some (s.erase i.toNat)
  else if s.lacksWord i then some s
  else none

def containsAt? (s : BitSet) (i : Int) : Option Bool :=
  if 0 ≤ i then some (s.contains i.toNat)
  else if s.lacksWord i then some false
  else none

/-- The set of the given positions, none of which may be below zero. -/
def ofList? (positions : List Int) : Option BitSet :=
  positions.foldlM (fun s i => if 0 ≤ i then some (s.insert i.toNat) else none) ∅

def isMade (s : BitSet) : Bool :=
  s.made || !s.words.isEmpty

def appendWire (buffer : Bytes) (s : BitSet) : Bytes :=
  if s.isMade then
    s.toList.foldl (fun buffer i => buffer ++ Wire.int (i : Nat)) (buffer ++ Wire.openArray) ++
      Wire.close
  else buffer ++ Wire.absent

def wire (s : BitSet) : Bytes :=
  s.appendWire []

end BitSet

end Codegen
