import Codegen.Routine
import Codegen.Select.Address
import Codegen.Select.Basic

/-!
# Instructions for functions

`value` gives the code of a node whose value is used and `node` that of any node. Where
`addressing` is on, sums that one memory operand can compute become one instruction.
-/

namespace Codegen.Select

/-- `addressing` computes whole addresses in one instruction; `inline` leaves out the
functions that are expanded at their calls. -/
structure Options where
  addressing : Bool := true
  inline : Bool := true
  deriving DecidableEq, Repr

/-- Which operand of a binary operator is an immediate one. The left one can only be
where the operands can be exchanged. -/
inductive Immediate
  | left (value : Int64)
  | right (value : Int64)
  | neither
  deriving DecidableEq, Repr

def immediate (op : BinaryOp) : Node → Node → Immediate
  | .const l, .const r => if op.commutative then .left l else .right r
  | .const l, _ => if op.commutative then .left l else .neither
  | _, .const r => .right r
  | _, _ => .neither

def selected? (addressing plain : Bool) (x : Node) : Option Address :=
  if addressing then address? plain x else none

theorem selected?_size {addressing plain : Bool} {x : Node} {a : Address}
    (h : selected? addressing plain x = some a) :
    sizeOf a.base < sizeOf x ∧ sizeOf a.index < sizeOf x := by
  unfold selected? at h
  split at h
  · exact address?_size h
  · contradiction

variable {ε : Type} [Halting ε]

mutual

/-- The code of a node whose value is used. -/
def value (addressing : Bool) (x : Node) : Generation ε (Option Value) :=
  match h : selected? addressing false x with
  | some a => do
    have := selected?_size h
    let top ← mark
    let base ← within .addressBase (value addressing a.base)
    let index ← within .addressIndex (indexValue addressing a.index)
    computeAddress false a.scale a.offset top base index
  | none => node addressing true x
termination_by (sizeOf x, 2)

def indexValue (addressing : Bool) (x : Node) : Generation ε (Option Value) :=
  match x with
  | .missing => pure none
  | x => value addressing x
termination_by (sizeOf x, 3)

/-- The code of a node. Only a call asks whether its value is used. -/
def node (addressing used : Bool) (x : Node) : Generation ε (Option Value) :=
  match x with
  | .missing => fault .missingNode
  | .const c => pure (some (.imm c))
  | .text none => fault .textWithoutSymbol
  | .text (some symbol) => do
    let n ← fresh
    push (.lea (register n) (← newCell symbol).operand)
    return some (.temp n)
  | .var none => fault .varWithoutSymbol
  | .var (some symbol) => do
    let n ← intoFresh (← newCell symbol).operand
    return some (.temp n)
  | .addr none => fault .addrWithoutSymbol
  | .addr (some symbol) => some <$> newCell symbol
  | .mem (.addr symbol) => fault (.memOfAddr symbol)
  | .mem address =>
    match h : selected? addressing true address with
    | some a => do
      have := selected?_size h
      let top ← mark
      let base ← within .addressBase (value addressing a.base)
      let index ← within .addressIndex (indexValue addressing a.index)
      computeAddress true a.scale a.offset top base index
    | none => do
      let v ← within .memAddress (value addressing address)
      let n ← within .memAddress (inRegister v)
      some <$> newDeref n
  | .binary op left right =>
    match immediate op left right with
    | .left c => do
      let v ← value addressing right
      combine op v (.imm c)
    | .right c => do
      let v ← value addressing left
      combine op v (.imm c)
    | .neither => do
      let l ← settle (← value addressing left)
      let top ← mark
      let r ← value addressing right
      let result ← combine op l (operand r)
      release top
      return result
  | .unary op x => do
    let v ← value addressing x
    applyUnary op v
  | .call none _ => fault .callWithoutSymbol
  | .call (some callee) args => do
    let top ← mark
    let vs ← arguments addressing callee 0 args
    release top
    if used then
      let n ← fresh
      push (.call callee (vs.map operand) (register n))
      return some (.temp n)
    else
      push (.call callee (vs.map operand) .absent)
      return none
  | .assign target source => do
    let place ← assignTarget addressing target
    let v ← within .assignValue (value addressing source)
    push (.move place.operand (operand v))
    return none
  | .label name => do
    push (.label name)
    return none
  | .jump target => do
    push (.jump target)
    return none
  | .branch condition ifTrue ifFalse => do
    let v ← within .branchCondition (value addressing condition)
    push (.branch (operand v) ifTrue ifFalse [])
    return none
  | .ret .missing => do
    push (.ret .absent)
    return none
  | .ret x => do
    let v ← within .returnValue (value addressing x)
    push (.ret (operand v))
    return none
termination_by (sizeOf x, 1)

/-- The place that an assignment writes: a variable, or the memory at an address. -/
def assignTarget (addressing : Bool) (x : Node) : Generation ε Value :=
  match x with
  | .var none => fault .assignToVarWithoutSymbol
  | .var (some symbol) => newCell symbol
  | .addr none => fault .assignToAddrWithoutSymbol
  | .addr (some symbol) => newCell symbol
  | .const _ => fault .assignToConst
  | .text _ => fault .assignToText
  | .missing => fault .assignToNothing
  | x => do
    let v ← within .assignTarget (value addressing x)
    let n ← within .assignTarget (inRegister v)
    newDeref n
termination_by (sizeOf x, 3)

def arguments (addressing : Bool) (callee : Symbol) (i : Nat) (xs : List Node) :
    Generation ε (List (Option Value)) :=
  match xs with
  | [] => pure []
  | x :: xs => do
    let v ← within (.argument callee i) (value addressing x)
    let vs ← arguments addressing callee (i + 1) xs
    return v :: vs
termination_by (sizeOf xs, 0)

end

/-- The statements of a body, each with all registers free. -/
def statements (addressing : Bool) : Nat → List Node → Generation ε Unit
  | _, [] => pure ()
  | i, x :: xs => do
    release 0
    let _ ← within (.statement i) (node addressing false x)
    statements addressing (i + 1) xs

def routine (f : Func) (s : Selection) : Routine :=
  { name := f.name
    endLabel := f.name ++ ascii "_end"
    temps := (List.range s.temps).map Temp.numbered
    entries := s.code.map fun instr => ⟨instr, [], []⟩
    code := List.range s.code.size }

/-- The routine of a function, without code if it is expanded at its calls. -/
def generateFunc (options : Options) (f : Func) : Except ε Routine :=
  if options.inline && f.inlined then
    .ok { routine f {} with inlined := true }
  else do
    let (_, s) ← statements options.addressing 0 f.body {}
    return routine f s

def generateFuncs (options : Options) : List Func → Except ε (List Routine)
  | [] => .ok []
  | f :: fs => do
    let r ← (generateFunc options f).mapError (Halting.inside (.func f.name))
    let rs ← generateFuncs options fs
    return r :: rs

end Codegen.Select
