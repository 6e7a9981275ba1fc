import Codegen.BitSet
import Codegen.Instr.Operand

/-!
# Instructions

Two-address instructions over virtual registers and memory. The operands of an
instruction stand in slots, and the access of a slot says whether the instruction reads
it, writes it or both. A register inside an address is read, whatever the slot.
-/

namespace Codegen

inductive ArithOp
  | add | sub | mul | div | mod | and | or | xor | sal | sar
  | unknown (code : Int)
  deriving DecidableEq, Repr

namespace ArithOp

def known : List ArithOp :=
  [add, sub, mul, div, mod, and, or, xor, sal, sar]

def ofCode (code : Int) : ArithOp :=
  if code < 0 then unknown code else known[code.toNat]?.getD (unknown code)

def text : ArithOp → Bytes
  | add => ascii "add" | sub => ascii "sub" | mul => ascii "mul" | div => ascii "div"
  | mod => ascii "mod" | and => ascii "and" | or => ascii "or" | xor => ascii "xor"
  | sal => ascii "sal" | sar => ascii "sar"
  | unknown code => ascii "ArithOp(" ++ signedDecimal code ++ ascii ")"

end ArithOp

inductive CmpOp
  | eq | ne | lt | le | gt | ge
  | unknown (code : Int)
  deriving DecidableEq, Repr

namespace CmpOp

def known : List CmpOp :=
  [eq, ne, lt, le, gt, ge]

def ofCode (code : Int) : CmpOp :=
  if code < 0 then unknown code else known[code.toNat]?.getD (unknown code)

def text : CmpOp → Bytes
  | eq => ascii "eq" | ne => ascii "ne" | lt => ascii "lt" | le => ascii "le"
  | gt => ascii "gt" | ge => ascii "ge"
  | unknown code => ascii "CmpOp(" ++ signedDecimal code ++ ascii ")"

end CmpOp

/-- `arith` and `cmp` leave their result in the first operand. -/
inductive Instr
  | move (target source : Operand)
  | arith (op : ArithOp) (target source : Operand)
  | cmp (op : CmpOp) (target source : Operand)
  | lea (target source : Operand)
  | neg (target : Operand)
  | not (target : Operand)
  | call (callee : Option Symbol) (args : List Operand) (result : Operand)
  | jump (target : Bytes)
  /-- `next` is the label placed right after the branch, or empty. -/
  | branch (condition : Operand) (ifTrue ifFalse next : Bytes)
  | label (name : Bytes)
  | ret (value : Operand)
  deriving DecidableEq, Repr, Inhabited

inductive Access
  | read | write | update
  deriving DecidableEq, Repr

namespace Instr

def operands : Instr → List (Access × Operand)
  | move target source => [(.write, target), (.read, source)]
  | arith _ target source => [(.update, target), (.read, source)]
  | cmp _ target source => [(.update, target), (.read, source)]
  | lea target source => [(.write, target), (.read, source)]
  | neg target => [(.update, target)]
  | not target => [(.update, target)]
  | call _ args result => args.map (.read, ·) ++ [(.write, result)]
  | jump _ => []
  | branch condition _ _ _ => [(.read, condition)]
  | label _ => []
  | ret value => [(.read, value)]

def mapOperands (f : Access → Operand → Operand) : Instr → Instr
  | move target source => move (f .write target) (f .read source)
  | arith op target source => arith op (f .update target) (f .read source)
  | cmp op target source => cmp op (f .update target) (f .read source)
  | lea target source => lea (f .write target) (f .read source)
  | neg target => neg (f .update target)
  | not target => not (f .update target)
  | call callee args result => call callee (args.map (f .read)) (f .write result)
  | jump target => jump target
  | branch condition ifTrue ifFalse next => branch (f .read condition) ifTrue ifFalse next
  | label name => label name
  | ret value => ret (f .read value)

def targets : Instr → List Bytes
  | jump target => [target]
  | branch _ ifTrue ifFalse _ => [ifTrue, ifFalse]
  | _ => []

def endsBlock : Instr → Bool
  | jump _ => true
  | branch _ _ _ _ => true
  | _ => false

/-- A move between registers that have no home yet. -/
def isTempMove : Instr → Bool
  | move (.temp target) (.temp source) =>
    target.home == .unassigned && source.home == .unassigned
  | _ => false

def written : Access × Operand → List Temp
  | (.read, _) => []
  | (_, .temp t) => [t]
  | _ => []

def consulted : Access × Operand → List Temp
  | (.write, .temp _) => []
  | (_, x) => x.temps

def defs (x : Instr) : List Temp :=
  x.operands.flatMap written

def uses (x : Instr) : List Temp :=
  x.operands.flatMap consulted

/-- All registers of an instruction in the order of its operands. -/
def temps (x : Instr) : List Temp :=
  x.operands.flatMap fun (_, operand) => operand.temps

/-- The numbers of the registers written, unless one of them is below zero. -/
def defSet? (x : Instr) : Option BitSet :=
  BitSet.ofList? (x.defs.map Temp.id)

def useSet? (x : Instr) : Option BitSet :=
  BitSet.ofList? (x.uses.map Temp.id)

def joined (parts : List Bytes) : Bytes :=
  (parts.intersperse (ascii ", ")).flatten

/-- A call that lacks an argument has no text. -/
def text? : Instr → Option Bytes
  | move target source => some (ascii "mov " ++ joined [target.text, source.text])
  | arith op target source => some (op.text ++ 32 :: joined [target.text, source.text])
  | cmp op target source =>
    some (ascii "cmp." ++ op.text ++ 32 :: joined [target.text, source.text])
  | lea target source => some (ascii "lea " ++ joined [target.text, source.text])
  | neg target => some (ascii "neg " ++ target.text)
  | not target => some (ascii "not " ++ target.text)
  | call callee args result =>
    if args.any Operand.isAbsent then none
    else some (ascii "call " ++ Symbol.text callee ++ 40 :: joined (args.map Operand.text) ++
      41 :: (if result.isAbsent then [] else ascii " -> " ++ result.text))
  | jump target => some (ascii "jmp " ++ target)
  | branch condition ifTrue ifFalse next =>
    some (ascii "cjump " ++ joined [condition.text, ifTrue, ifFalse] ++
      (if next.isEmpty then [] else ascii " fallthrough " ++ next))
  | label name => some (name ++ [58])
  | ret value => some (if value.isAbsent then ascii "ret" else ascii "ret " ++ value.text)

end Instr

end Codegen
