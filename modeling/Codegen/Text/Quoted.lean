import Codegen.Text.Printable
import Codegen.Text.Utf8

/-!
# Quoted text

`encode` writes any byte string between double quotes, on one line and readable:
printable text stands for itself and all else is escaped. `decode` reads what stands
between the quotes. A byte that is no text is escaped by its value when written; read
unescaped, it becomes the replacement character.
-/

namespace Codegen.Quoted

def letterEscapes : List (Char × UInt8) :=
  [('a', 7), ('b', 8), ('f', 12), ('n', 10), ('r', 13), ('t', 9), ('v', 11), ('\\', 92), ('"', 34)]

def escapeByte (b : UInt8) : Bytes :=
  ascii "\\x" ++ hexPadded 2 b.toNat

def escapeScalar (c : Char) : Bytes :=
  match letterEscapes.find? fun (_, b) => b.toNat == c.toNat with
  | some (letter, _) => 92 :: Utf8.encode letter
  | none =>
    if Printable.contains c then Utf8.encode c
    else if c.toNat < 0x80 then escapeByte c.toNat.toUInt8
    else if c.toNat < 0x10000 then ascii "\\u" ++ hexPadded 4 c.toNat
    else ascii "\\U" ++ hexPadded 8 c.toNat

def escape : Utf8.Unit → Bytes
  | .scalar c => escapeScalar c
  | .stray b => escapeByte b

def encode (bytes : Bytes) : Bytes :=
  34 :: ((Utf8.units bytes).flatMap escape ++ [34])

/-- The number written by digits of one base, all of which must be there. -/
def number? (base : Nat) (digits : List Utf8.Unit) : Option Nat :=
  digits.foldlM (fun n unit => do
    let .scalar c := unit | none
    let d ← if c.toNat < 0x80 then hexValue? c.toNat.toUInt8 else none
    if d < base then some (n * base + d) else none) 0

def byte? (n : Nat) : Option Bytes :=
  if n < 256 then some [n.toUInt8] else none

def scalarBytes? (n : Nat) : Option Bytes :=
  (Utf8.scalar? 0 n).map Utf8.encode

def decodeUnits : List Utf8.Unit → Option Bytes
  | [] => some []
  | .stray _ :: rest => (decodeUnits rest).map (Utf8.encode '�' ++ ·)
  | .scalar '\\' :: .scalar 'x' :: a :: b :: rest => do
    let n ← number? 16 [a, b]
    return (← byte? n) ++ (← decodeUnits rest)
  | .scalar '\\' :: .scalar 'u' :: a :: b :: c :: d :: rest => do
    let n ← number? 16 [a, b, c, d]
    return (← scalarBytes? n) ++ (← decodeUnits rest)
  | .scalar '\\' :: .scalar 'U' :: a :: b :: c :: d :: e :: f :: g :: h :: rest => do
    let n ← number? 16 [a, b, c, d, e, f, g, h]
    return (← scalarBytes? n) ++ (← decodeUnits rest)
  | .scalar '\\' :: .scalar letter :: rest =>
    match letterEscapes.lookup letter, rest with
    | some b, rest => (decodeUnits rest).map (b :: ·)
    | none, a :: b :: rest => do
      let n ← number? 8 [.scalar letter, a, b]
      return (← byte? n) ++ (← decodeUnits rest)
    | none, _ => none
  | .scalar '\\' :: _ => none
  | .scalar '\n' :: _ => none
  | .scalar '"' :: _ => none
  | .scalar c :: rest => (decodeUnits rest).map (Utf8.encode c ++ ·)

def decode (body : Bytes) : Option Bytes :=
  decodeUnits (Utf8.units body)

end Codegen.Quoted
