import Codegen.Program.Basic

/-!
# Faults of code generation

A fault is a shape that a stage has no rule for, with the path of constructs that led to
it. One that no rule describes at all, a reference to nothing, has no text.
-/

namespace Codegen

inductive Cause
  | missingNode
  | missingOperand
  | textWithoutSymbol
  | varWithoutSymbol
  | addrWithoutSymbol
  | assignToVarWithoutSymbol
  | assignToAddrWithoutSymbol
  | callWithoutSymbol
  | assignToConst
  | assignToText
  | assignToNothing
  | addressInBinary (op : BinaryOp) (symbol : Symbol)
  | memOfAddr (symbol : Option Symbol)
  | unknownBinary (code : Int)
  | unknownUnary (code : Int)
  | duplicateLabel (label : Bytes)
  | undefinedLabel (label : Bytes)
  | emptyBlock (label : Bytes)
  deriving DecidableEq, Repr

inductive Inside
  | emission
  | analysis
  | blocks
  | layout
  | func (name : Bytes)
  | statement (i : Nat)
  | branchCondition
  | returnValue
  | assignTarget
  | assignValue
  | binary (op : BinaryOp)
  | unary (op : UnaryOp)
  | argument (callee : Symbol) (i : Nat)
  | memAddress
  | addressBase
  | addressIndex
  deriving DecidableEq, Repr

/-- The outermost construct comes first. -/
structure Fault where
  path : List Inside := []
  cause : Cause
  deriving DecidableEq, Repr

def Cause.message : Cause → Bytes
  | .missingNode => ascii "unsupported ir node: <nil>"
  | .missingOperand => ascii "unhandled operand: <nil>"
  | .textWithoutSymbol => ascii "string constant without entity"
  | .varWithoutSymbol => ascii "var without entity"
  | .addrWithoutSymbol => ascii "addr without entity"
  | .assignToVarWithoutSymbol => ascii "assign to var without entity"
  | .assignToAddrWithoutSymbol => ascii "assign to addr without entity"
  | .callWithoutSymbol => ascii "call without function entity"
  | .assignToConst => ascii "unsupported assign target: ir.IntConst"
  | .assignToText => ascii "unsupported assign target: ir.StrConst"
  | .assignToNothing => ascii "unsupported assign target: <nil>"
  | .addressInBinary op symbol =>
    ascii "unhandled entity address in binary " ++ op.text ++ ascii ": [" ++ symbol.name ++ [93]
  | .memOfAddr symbol =>
    ascii "unhandled mem of addr: \x7b" ++ Symbol.text symbol ++ ascii "\x7d"
  | .unknownBinary code => ascii "invalid operator: " ++ (BinaryOp.unknown code).text
  | .unknownUnary code => ascii "invalid unary operator: " ++ (UnaryOp.unknown code).text
  | .duplicateLabel label => ascii "duplicate label: " ++ label
  | .undefinedLabel label => ascii "jump to undefined label: " ++ label
  | .emptyBlock label => ascii "empty basic block: " ++ label

def Inside.message : Inside → Bytes
  | .emission => ascii "emit"
  | .analysis => ascii "analyze"
  | .blocks => ascii "build blocks"
  | .layout => ascii "layout"
  | .func name => ascii "func " ++ name
  | .statement i => ascii "stmt " ++ decimal i
  | .branchCondition => ascii "cjump cond"
  | .returnValue => ascii "return"
  | .assignTarget => ascii "assign target"
  | .assignValue => ascii "assign value"
  | .binary op => ascii "binary " ++ op.text
  | .unary op => ascii "unary " ++ op.text
  | .argument callee i => ascii "call " ++ callee.name ++ ascii ": arg " ++ decimal i
  | .memAddress => ascii "mem"
  | .addressBase => ascii "address base"
  | .addressIndex => ascii "address index"

namespace Fault

def inside (place : Inside) (fault : Fault) : Fault :=
  { fault with path := place :: fault.path }

def message (fault : Fault) : Bytes :=
  fault.path.flatMap (fun place => place.message ++ ascii ": ") ++ fault.cause.message ++
    ascii ": internal compiler error"

end Fault

/-- How a stage can end without a result: by a fault, or by following a reference to an
instruction or block that is not there. -/
inductive Failure
  | fault (f : Fault)
  | dangling
  deriving DecidableEq, Repr

namespace Failure

def inside (place : Inside) : Failure → Failure
  | fault f => fault (f.inside place)
  | dangling => dangling

end Failure

end Codegen
