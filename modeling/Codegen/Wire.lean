import Codegen.Bytes

/-!
# Binary encoding of logged values

A head byte holds a major type and either a small argument or the number of big endian
bytes that hold it. Negative integers have an argument of their own: one more than their
absolute value.
-/

namespace Codegen.Wire

inductive Major
  | int | negative | text | array | map
  deriving DecidableEq, Repr

def Major.code : Major → Nat
  | .int => 0
  | .negative => 1
  | .text => 3
  | .array => 4
  | .map => 5

/-- The last `width` bytes of a number, the most significant first. -/
def bigEndian : Nat → Nat → Bytes
  | 0, _ => []
  | width + 1, n => bigEndian width (n / 256) ++ [(n % 256).toUInt8]

def head (major : Major) (n : Nat) : Bytes :=
  let tag (detail : Nat) := (major.code * 32 + detail).toUInt8
  if n < 24 then [tag n]
  else if n < 0x100 then tag 24 :: bigEndian 1 n
  else if n < 0x10000 then tag 25 :: bigEndian 2 n
  else if n < 0x100000000 then tag 26 :: bigEndian 4 n
  else tag 27 :: bigEndian 8 n

def absent : Bytes := [0xF6]

def int (i : Int) : Bytes :=
  if i < 0 then head .negative (i.natAbs + 1) else head .int i.natAbs

def text (bytes : Bytes) : Bytes :=
  head .text bytes.length ++ bytes

/-- Starts an array of unstated length, which goes on up to the closing mark. -/
def openArray : Bytes := [0x9F]

def close : Bytes := [0xFF]

def map (fields : List (Bytes × Bytes)) : Bytes :=
  head .map fields.length ++ fields.flatMap fun (key, value) => text key ++ value

end Codegen.Wire
