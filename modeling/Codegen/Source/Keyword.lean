import Codegen.Program.Operator

/-!
# Keywords

The word after an opening parenthesis says what a list is: a node of a function body, or
a declaration.
-/

namespace Codegen.Source

inductive Keyword
  | var | addr | text | mem | assign | call | label | jump | branch | ret
  | unary (op : UnaryOp)
  | binary (op : BinaryOp)
  deriving DecidableEq, Repr

namespace Keyword

def spelling : Keyword → Bytes
  | var => ascii "var"
  | addr => ascii "addr"
  | text => ascii "str"
  | mem => ascii "mem"
  | assign => ascii "assign"
  | call => ascii "call"
  | label => ascii "label"
  | jump => ascii "jump"
  | branch => ascii "cjump"
  | ret => ascii "return"
  | unary op => op.text
  | binary op => op.text

def all : List Keyword :=
  [var, addr, text, mem, assign, call, label, jump, branch, ret] ++
    UnaryOp.known.map unary ++ BinaryOp.known.map binary

def ofSpelling? (s : Bytes) : Option Keyword :=
  all.find? (·.spelling == s)

end Keyword

inductive DeclKeyword
  | var | text | func | init | version
  deriving DecidableEq, Repr

namespace DeclKeyword

def spelling : DeclKeyword → Bytes
  | var => ascii "var"
  | text => ascii "string"
  | func => ascii "func"
  | init => ascii "init"
  | version => ascii "version"

def all : List DeclKeyword :=
  [var, text, func, init, version]

def ofSpelling? (s : Bytes) : Option DeclKeyword :=
  all.find? (·.spelling == s)

end DeclKeyword

def inlineMark : Bytes :=
  ascii "inline"

def paramsMark : Bytes :=
  ascii "params"

end Codegen.Source
