import Codegen.Program.Basic
import Codegen.Register

/-!
# Operands of instructions

An operand is a number, a virtual register or a memory address. Registers and addresses
are objects: two registers may share a number and still differ, and one address may stand
in several places. `key` and `object` tell them apart.
-/

namespace Codegen

inductive Home
  | unassigned
  | machine (number : Int)
  | stack
  | global
  | other (code : Int)
  deriving DecidableEq, Repr

namespace Home

/-- From the code of a home and a register number, which only a machine register has. -/
def ofCode (code number : Int) : Home :=
  if code = 0 then unassigned else if code = 1 then machine number
  else if code = 2 then stack else if code = 3 then global else other code

end Home

structure Temp where
  key : Nat
  id : Int
  home : Home
  deriving DecidableEq, Repr

namespace Temp

def numbered (n : Nat) : Temp :=
  ⟨n, n, .unassigned⟩

def text (t : Temp) : Bytes :=
  match t.home with
  | .machine number => Register.numberText number
  | .stack => 115 :: signedDecimal t.id
  | .global => 103 :: signedDecimal t.id
  | .unassigned => 116 :: signedDecimal t.id
  | .other _ => 116 :: signedDecimal t.id

end Temp

/-- An address is the place of a symbol, or else `base + index * scale + offset`. -/
inductive Operand
  | absent
  | imm (value : Int64)
  | temp (t : Temp)
  | addr (object : Nat) (symbol : Option Symbol) (base index : Operand) (scale : Int)
      (offset : Int64)
  deriving DecidableEq, Repr, Inhabited

namespace Operand

def isAbsent : Operand → Bool
  | absent => true
  | _ => false

def cell (object : Nat) (symbol : Symbol) : Operand :=
  addr object (some symbol) absent absent 1 0

def isScale (scale : Int) : Bool :=
  scale ∈ [1, 2, 4, 8]

structure BadScale where
  scale : Int
  deriving DecidableEq, Repr

def BadScale.message (fault : BadScale) : Bytes :=
  ascii "bad address scale: " ++ signedDecimal fault.scale

def badScale? (scale : Int) : Option BadScale :=
  if isScale scale then none else some ⟨scale⟩

/-- An address without a symbol, if the scale is valid. -/
def based (object : Nat) (base index : Operand) (scale : Int) (offset : Int64) :
    Except BadScale Operand :=
  match badScale? scale with
  | some bad => .error bad
  | none => .ok (addr object none base index scale offset)

/-- What is added to a base: the absolute value after a sign. The least number has no
absolute value and is written as it is. -/
def offsetText (offset : Int64) : Bytes :=
  if 0 < offset then ascii " + " ++ signedDecimal offset.toInt
  else if offset < 0 then ascii " - " ++ signedDecimal (-offset).toInt
  else []

def text : Operand → Bytes
  | absent => ascii "<nil>"
  | imm value => signedDecimal value.toInt
  | temp t => t.text
  | addr _ (some symbol) _ _ _ _ => 91 :: symbol.name ++ [93]
  | addr _ none base index scale offset =>
    91 :: (if base.isAbsent then [] else base.text) ++
      (if index.isAbsent then []
        else ascii " + " ++ index.text ++
          (if scale = 1 then [] else 42 :: signedDecimal scale)) ++
      offsetText offset ++ [93]

/-- A number has no encoding. -/
def wire? : Operand → Option Bytes
  | temp t => some (Wire.text t.text)
  | addr object symbol base index scale offset =>
    some (Wire.text (addr object symbol base index scale offset).text)
  | _ => none

def isCell? : Operand → Option Bool
  | addr _ symbol _ _ _ _ => some symbol.isSome
  | _ => none

def temps : Operand → List Temp
  | absent => []
  | imm _ => []
  | temp t => [t]
  | addr _ _ base index _ _ => base.temps ++ index.temps

def objects : Operand → List Nat
  | absent => []
  | imm _ => []
  | temp _ => []
  | addr object _ base index _ _ => object :: (base.objects ++ index.objects)

def mapTemps (f : Temp → Temp) : Operand → Operand
  | absent => absent
  | imm value => imm value
  | temp t => temp (f t)
  | addr object symbol base index scale offset =>
    addr object symbol (base.mapTemps f) (index.mapTemps f) scale offset

/-- Maps the registers inside the addresses that are among the given objects. -/
def mapShared (objects : List Nat) (f : Temp → Temp) : Operand → Operand
  | addr object symbol base index scale offset =>
    if object ∈ objects then
      addr object symbol (base.mapTemps f) (index.mapTemps f) scale offset
    else
      addr object symbol (base.mapShared objects f) (index.mapShared objects f) scale offset
  | x => x

end Operand

end Codegen
