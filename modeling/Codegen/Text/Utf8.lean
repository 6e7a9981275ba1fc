import Codegen.Bytes

/-!
# UTF-8 in byte strings that may be malformed

`units` splits any byte string: a well formed sequence is one scalar value, and each
byte that starts none stands alone.
-/

namespace Codegen.Utf8

/-- A scalar value, or a byte that starts no well formed sequence. -/
inductive Unit
  | scalar (c : Char)
  | stray (b : UInt8)
  deriving DecidableEq, Repr

def encode (c : Char) : Bytes :=
  let n := c.toNat
  if n < 0x80 then [n.toUInt8]
  else if n < 0x800 then [(0xC0 + n / 64).toUInt8, (0x80 + n % 64).toUInt8]
  else if n < 0x10000 then
    [(0xE0 + n / 4096).toUInt8, (0x80 + n / 64 % 64).toUInt8, (0x80 + n % 64).toUInt8]
  else
    [(0xF0 + n / 262144).toUInt8, (0x80 + n / 4096 % 64).toUInt8,
      (0x80 + n / 64 % 64).toUInt8, (0x80 + n % 64).toUInt8]

def tail? (b : UInt8) : Option Nat :=
  if 0x80 ≤ b ∧ b < 0xC0 then some (b.toNat - 0x80) else none

/-- A scalar value that needs at least `least`, so that no shorter form was possible. -/
def scalar? (least n : Nat) : Option Char :=
  if h : n.isValidChar then
    if least ≤ n then some (Char.ofNatAux n h) else none
  else none

/-- The scalar value that a well formed sequence encodes, with the number of bytes
after the first. -/
def lead? (b : UInt8) (rest : Bytes) : Option (Char × Nat) := do
  if b < 0x80 then
    return (← scalar? 0 b.toNat, 0)
  else if 0xC0 ≤ b ∧ b < 0xE0 then
    let c1 ← rest[0]? >>= tail?
    return (← scalar? 0x80 ((b.toNat - 0xC0) * 64 + c1), 1)
  else if 0xE0 ≤ b ∧ b < 0xF0 then
    let c1 ← rest[0]? >>= tail?
    let c2 ← rest[1]? >>= tail?
    return (← scalar? 0x800 (((b.toNat - 0xE0) * 64 + c1) * 64 + c2), 2)
  else if 0xF0 ≤ b ∧ b < 0xF8 then
    let c1 ← rest[0]? >>= tail?
    let c2 ← rest[1]? >>= tail?
    let c3 ← rest[2]? >>= tail?
    return (← scalar? 0x10000 ((((b.toNat - 0xF0) * 64 + c1) * 64 + c2) * 64 + c3), 3)
  else
    none

/-- The units after `skip` bytes, which belong to the sequence before them. -/
def unitsAfter : Nat → Bytes → List Unit
  | _, [] => []
  | skip + 1, _ :: rest => unitsAfter skip rest
  | 0, b :: rest =>
    match lead? b rest with
    | some (c, skip) => .scalar c :: unitsAfter skip rest
    | none => .stray b :: unitsAfter 0 rest

def units (bytes : Bytes) : List Unit :=
  unitsAfter 0 bytes

end Codegen.Utf8
