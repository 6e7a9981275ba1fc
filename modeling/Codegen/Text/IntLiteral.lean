import Codegen.Bytes

/-!
# Integer literals

An optional sign, then digits. The digits are hexadecimal, binary or octal after `0x`,
`0b` or `0o`, octal after another leading `0`, and decimal otherwise. An underscore may
stand between two digits and between the mark of the base and a digit. The number has to
be a 64 bit signed integer.
-/

namespace Codegen.IntLiteral

/-- Splits off the sign; true stands for minus. -/
def sign : Bytes → Bool × Bytes
  | 43 :: rest => (false, rest)
  | 45 :: rest => (true, rest)
  | rest => (false, rest)

/-- The base, whether it was marked, and the digits after its mark. The leading zero of
an octal number is both mark and digit. -/
def base : Bytes → Nat × Bool × Bytes
  | [48] => (8, true, [])
  | 48 :: mark :: rest =>
    if rest ≠ [] ∧ (mark = 120 ∨ mark = 88) then (16, true, rest)
    else if rest ≠ [] ∧ (mark = 98 ∨ mark = 66) then (2, true, rest)
    else if rest ≠ [] ∧ (mark = 111 ∨ mark = 79) then (8, true, rest)
    else (8, true, mark :: rest)
  | rest => (10, false, rest)

/-- Digits and underscores. `joined` says that an underscore may come next, and
`complete` that the number may end here. -/
def digits (base : Nat) : Bool → Bool → Nat → Bytes → Option Nat
  | _, complete, n, [] => if complete then some n else none
  | joined, _, n, b :: rest =>
    if b = 95 then
      if joined then digits base false false n rest else none
    else do
      let d ← hexValue? b
      if d < base then digits base true true (n * base + d) rest else none

def magnitude (text : Bytes) : Option Nat :=
  match base text with
  | (8, true, []) => some 0
  | (b, marked, rest) => digits b marked false 0 rest

def parse (text : Bytes) : Option Int64 := do
  let (negative, rest) := sign text
  let n ← magnitude rest
  if negative then
    if n ≤ 0x8000000000000000 then some (Int64.ofInt (-n)) else none
  else
    if n < 0x8000000000000000 then some (Int64.ofInt n) else none

end Codegen.IntLiteral
