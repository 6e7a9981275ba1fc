import Codegen.Bytes

/-!
# Version numbers

One to three numbers divided by points, then a pre-release after `-` and build metadata
after `+`, each a list of parts divided by points. A leading `v` is dropped, and missing
numbers are zero.
-/

namespace Codegen

structure Version where
  major : Nat
  minor : Nat
  patch : Nat
  pre : List Bytes
  build : List Bytes
  deriving DecidableEq, Repr

namespace Version

inductive Fault
  /-- The text is no version number at all. -/
  | malformed
  /-- A number does not fit in 64 bits. -/
  | outOfRange (digits : Bytes)
  /-- A number of the pre-release has a leading zero. -/
  | leadingZero
  deriving DecidableEq, Repr

def Fault.message : Fault → Bytes
  | .malformed => ascii "Invalid Semantic Version"
  | .outOfRange digits =>
    ascii "Error parsing version segment: strconv.ParseUint: parsing \"" ++ digits ++
      ascii "\": value out of range"
  | .leadingZero => ascii "Version segment starts with 0"

def isPartByte (b : UInt8) : Bool :=
  isDigit b || decide (65 ≤ b ∧ b ≤ 90) || decide (97 ≤ b ∧ b ≤ 122) || b == 45

def number (text : Bytes) : Bytes × Bytes :=
  (text.takeWhile isDigit, text.dropWhile isDigit)

/-- A point and digits, if the text starts with a point. -/
def pointNumber : Bytes → Option (Bytes × Bytes)
  | 46 :: rest =>
    match number rest with
    | ([], _) => none
    | found => some found
  | rest => some ([], rest)

/-- Parts divided by points, none of them empty. -/
def parts? (text : Bytes) : Option (List Bytes) :=
  let parts := text.splitOn 46
  if parts.all fun p => !p.isEmpty && p.all isPartByte then some parts else none

def suffix? (text : Bytes) : Option (List Bytes × List Bytes) :=
  let front := text.takeWhile (· != 43)
  let pre := match front with
    | [] => some []
    | 45 :: rest => parts? rest
    | _ => none
  let build := match text.dropWhile (· != 43) with
    | [] => some []
    | _ :: rest => parts? rest
  return (← pre, ← build)

def word (digits : Bytes) : Except Fault Nat :=
  let n := digits.foldl (fun n b => n * 10 + (b.toNat - 48)) 0
  if n < 0x10000000000000000 then .ok n else .error (.outOfRange digits)

def hasLeadingZero (part : Bytes) : Bool :=
  part.all isDigit && decide (1 < part.length) && part.head? == some 48

def withoutMark : Bytes → Bytes
  | 118 :: rest => rest
  | rest => rest

def shape? (text : Bytes) : Option (Bytes × Bytes × Bytes × List Bytes × List Bytes) := do
  let (major, rest) := number (withoutMark text)
  if major.isEmpty then none
  let (minor, rest) ← pointNumber rest
  let (patch, rest) ← pointNumber rest
  let (pre, build) ← suffix? rest
  return (major, minor, patch, pre, build)

def parse (text : Bytes) : Except Fault Version := do
  let some (major, minor, patch, pre, build) := shape? text | throw .malformed
  let version : Version :=
    ⟨← word major, ← word minor, ← word patch, pre, build⟩
  if pre.any hasLeadingZero then throw .leadingZero
  return version

def joinParts (parts : List Bytes) : Bytes :=
  (parts.intersperse [46]).flatten

def text (v : Version) : Bytes :=
  decimal v.major ++ 46 :: decimal v.minor ++ 46 :: decimal v.patch ++
    (if v.pre.isEmpty then [] else 45 :: joinParts v.pre) ++
    (if v.build.isEmpty then [] else 43 :: joinParts v.build)

/-- The versions of the source language that can be read: releases of major version one. -/
def supported (v : Version) : Bool :=
  v.major == 1 && v.pre.isEmpty

def supportedRange : Bytes :=
  ascii "^1.0"

end Version

end Codegen
