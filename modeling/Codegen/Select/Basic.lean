import Codegen.Fault
import Codegen.Instr.Basic

/-!
# Selection of instructions

Expressions are evaluated on a stack of registers: `top` is the first register that holds
nothing, and a new value goes there. A selection that fails leaves nothing behind. What it
stops with is left open, so that the same selection can be made with and without checks.
-/

namespace Codegen.Select

/-- `temps` counts the registers used so far and `objects` the addresses made. -/
structure Selection where
  code : Array Instr := #[]
  temps : Nat := 0
  top : Nat := 0
  objects : Nat := 0
  deriving Repr

/-- What a selection stops with. Every one stops at a fault. One that is checked also stops where a
table of `temps` registers lacks the one to be taken, and at a scale that the machine lacks. -/
class Halting (ε : Type) where
  fault : Fault → ε
  inside : Inside → ε → ε
  noRegister? (temps n : Nat) : Option ε := none
  badScale? (scale : Int) : Option ε := none

@[default_instance]
instance : Halting Fault where
  fault f := f
  inside := Fault.inside

abbrev Generation (ε : Type) := StateT Selection (Except ε)

abbrev Gen := Generation Fault

/-- The value of an expression, where the code leaves it. A cell is the place of a
symbol, and `deref` the memory at the address in a register. -/
inductive Value
  | imm (value : Int64)
  | temp (n : Nat)
  | cell (object : Nat) (symbol : Symbol)
  | deref (object : Nat) (base : Nat)
  deriving DecidableEq, Repr

def register (n : Nat) : Operand :=
  .temp (.numbered n)

def Value.operand : Value → Operand
  | .imm value => .imm value
  | .temp n => register n
  | .cell object symbol => .cell object symbol
  | .deref object base => .addr object none (register base) .absent 1 0

/-- The operand of a node, which a statement leaves absent. -/
def operand : Option Value → Operand
  | some v => v.operand
  | none => .absent

variable {ε : Type} [Halting ε]

def fault {α : Type} (cause : Cause) : Generation ε α :=
  throw (Halting.fault ⟨[], cause⟩)

def within {α : Type} (place : Inside) (part : Generation ε α) : Generation ε α := fun s =>
  (part s).mapError (Halting.inside place)

def push (x : Instr) : Generation ε Unit :=
  modify fun s => { s with code := s.code.push x }

def fresh : Generation ε Nat := fun s =>
  match Halting.noRegister? s.temps s.top with
  | some stop => .error stop
  | none => .ok (s.top, { s with temps := max s.temps (s.top + 1), top := s.top + 1 })

/-- Makes an object, for an address with the given scale. -/
def newObject (scale : Int := 1) : Generation ε Nat := fun s =>
  match Halting.badScale? scale with
  | some stop => .error stop
  | none => .ok (s.objects, { s with objects := s.objects + 1 })

def mark : Generation ε Nat :=
  return (← get).top

/-- Frees the registers from `top` on. -/
def release (top : Nat) : Generation ε Unit :=
  modify fun s => { s with top }

def newCell (symbol : Symbol) : Generation ε Value :=
  return .cell (← newObject) symbol

def newDeref (base : Nat) : Generation ε Value :=
  return .deref (← newObject) base

def intoFresh (source : Operand) : Generation ε Nat := do
  let n ← fresh
  push (.move (register n) source)
  return n

/-- Brings a value into a register. What is read through a register replaces the address
in it. -/
def inRegister : Option Value → Generation ε Nat
  | some (.temp n) => pure n
  | some (.imm value) => intoFresh (.imm value)
  | some (.cell object symbol) => intoFresh (.cell object symbol)
  | some (.deref object base) => do
    push (.move (register base) (Value.deref object base).operand)
    return base
  | none => fault .missingOperand

/-- The instruction of an operator. Truth values are combined bit by bit. -/
def binaryInstr? (op : BinaryOp) (target source : Operand) : Option Instr :=
  match op with
  | .add => some (.arith .add target source)
  | .sub => some (.arith .sub target source)
  | .mul => some (.arith .mul target source)
  | .div => some (.arith .div target source)
  | .mod => some (.arith .mod target source)
  | .bitAnd | .logicAnd => some (.arith .and target source)
  | .bitOr | .logicOr => some (.arith .or target source)
  | .bitXor => some (.arith .xor target source)
  | .shl => some (.arith .sal target source)
  | .shr => some (.arith .sar target source)
  | .eq => some (.cmp .eq target source)
  | .ne => some (.cmp .ne target source)
  | .lt => some (.cmp .lt target source)
  | .le => some (.cmp .le target source)
  | .gt => some (.cmp .gt target source)
  | .ge => some (.cmp .ge target source)
  | .unknown _ => none

def unaryInstr? (op : UnaryOp) (target : Operand) : Option Instr :=
  match op with
  | .neg => some (.neg target)
  | .bitNot => some (.not target)
  | .logicNot => some (.cmp .eq target (.imm 0))
  | .unknown _ => none

def operate (n : Nat) (cause : Cause) : Option Instr → Generation ε (Option Value)
  | some x => do
    push x
    return some (.temp n)
  | none => fault cause

/-- Combines a value with an operand in the register of the value. The place of a symbol
is no number. -/
def combine (op : BinaryOp) (left : Option Value) (right : Operand) :
    Generation ε (Option Value) := do
  if let some (.cell _ symbol) := left then
    fault (.addressInBinary op symbol)
  let n ← within (.binary op) (inRegister left)
  operate n (.unknownBinary op.code) (binaryInstr? op (register n) right)

def applyUnary (op : UnaryOp) (value : Option Value) : Generation ε (Option Value) := do
  let n ← within (.unary op) (inRegister value)
  operate n (.unknownUnary op.code) (unaryInstr? op (register n))

/-- The left value of two, which has to stay in a register. -/
def settle : Option Value → Generation ε (Option Value)
  | some (.imm c) => (some ∘ Value.temp) <$> intoFresh (.imm c)
  | v => pure v

def indexOperand : Option Value → Generation ε Operand
  | none => pure .absent
  | some v => register <$> within .addressIndex (inRegister (some v))

/-- Computes the address of base and index, or loads from it if `loads`, in the register
of the base. Afterwards only that register is taken, of those above `top`. -/
def computeAddress (loads : Bool) (scale : Nat) (offset : Int64) (top : Nat)
    (base index : Option Value) : Generation ε (Option Value) := do
  let n ← within .addressBase (inRegister base)
  let index ← indexOperand index
  let source : Operand := .addr (← newObject scale) none (register n) index scale offset
  push (if loads then .move (register n) source else .lea (register n) source)
  if top ≤ n then
    release (n + 1)
  return some (.temp n)

end Codegen.Select
