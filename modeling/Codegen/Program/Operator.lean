import Codegen.Bytes

/-!
# Operators of expressions

Programs built by other tools may hold an operator code that denotes no operator. Such a
code is kept and can be printed.
-/

namespace Codegen

inductive BinaryOp
  | add | sub | mul | div | mod
  | bitAnd | bitOr | bitXor
  | logicAnd | logicOr
  | shl | shr
  | eq | ne | lt | le | gt | ge
  | unknown (code : Int)
  deriving DecidableEq, Repr

namespace BinaryOp

def known : List BinaryOp :=
  [add, sub, mul, div, mod, bitAnd, bitOr, bitXor, logicAnd, logicOr, shl, shr,
    eq, ne, lt, le, gt, ge]

def ofCode (code : Int) : BinaryOp :=
  if code < 0 then unknown code else known[code.toNat]?.getD (unknown code)

def code : BinaryOp → Int
  | unknown code => code
  | op => known.idxOf op

def text : BinaryOp → Bytes
  | add => ascii "+" | sub => ascii "-" | mul => ascii "*" | div => ascii "/" | mod => ascii "%"
  | bitAnd => ascii "&" | bitOr => ascii "|" | bitXor => ascii "^"
  | logicAnd => ascii "&&" | logicOr => ascii "||"
  | shl => ascii "<<" | shr => ascii ">>"
  | eq => ascii "==" | ne => ascii "!="
  | lt => ascii "<" | le => ascii "<=" | gt => ascii ">" | ge => ascii ">="
  | unknown code => ascii "Op(" ++ signedDecimal code ++ ascii ")"

def ofText? (s : Bytes) : Option BinaryOp :=
  known.find? (·.text == s)

def commutative : BinaryOp → Bool
  | add | mul | bitAnd | bitOr | bitXor | eq | ne => true
  | _ => false

def relational : BinaryOp → Bool
  | eq | ne | lt | le | gt | ge => true
  | _ => false

end BinaryOp

inductive UnaryOp
  | neg | bitNot | logicNot
  | unknown (code : Int)
  deriving DecidableEq, Repr

namespace UnaryOp

def known : List UnaryOp :=
  [neg, bitNot, logicNot]

def ofCode (code : Int) : UnaryOp :=
  if code < 0 then unknown code else known[code.toNat]?.getD (unknown code)

def code : UnaryOp → Int
  | unknown code => code
  | op => known.idxOf op

def text : UnaryOp → Bytes
  | neg => ascii "neg" | bitNot => ascii "not" | logicNot => ascii "lnot"
  | unknown code => ascii "UnaryOp(" ++ signedDecimal code ++ ascii ")"

def ofText? (s : Bytes) : Option UnaryOp :=
  known.find? (·.text == s)

end UnaryOp

end Codegen
