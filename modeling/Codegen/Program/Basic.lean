import Codegen.Program.Operator
import Codegen.Wire

/-!
# Programs

A program is a list of functions over one scope of named entities. Its trees need not be
complete: another tool may leave out a node or the entity behind a name, and `missing`
and `none` stand for what is not there.
-/

namespace Codegen

inductive Place
  | global (index : Nat)
  | param (index : Nat)
  deriving DecidableEq, Repr

structure Symbol where
  place : Place
  name : Bytes
  deriving DecidableEq, Repr

namespace Symbol

def text : Option Symbol → Bytes
  | some s => s.name
  | none => ascii "<nil>"

def wire : Option Symbol → Bytes
  | some s => Wire.text s.name
  | none => Wire.absent

end Symbol

inductive EntityKind
  | var | param | text | func
  | other (code : Int)
  deriving DecidableEq, Repr

namespace EntityKind

def ofCode (code : Int) : EntityKind :=
  if code = 0 then var else if code = 1 then param else if code = 2 then text
  else if code = 3 then func else other code

def code : EntityKind → Int
  | var => 0
  | param => 1
  | text => 2
  | func => 3
  | other code => code

end EntityKind

/-- A named thing of a program. Only a string constant has a value. -/
structure Entity where
  name : Bytes
  kind : EntityKind
  value : Bytes := []
  deriving DecidableEq, Repr

/-- The entities of a program in the order of their first mention. -/
structure Scope where
  entities : List Entity := []
  deriving DecidableEq, Repr

namespace Scope

def add (scope : Scope) (e : Entity) : Scope :=
  ⟨scope.entities ++ [e]⟩

def lookup? (scope : Scope) (name : Bytes) : Option (Nat × Entity) := do
  let i ← scope.entities.findIdx? (·.name == name)
  return (i, ← scope.entities[i]?)

def modify (scope : Scope) (i : Nat) (f : Entity → Entity) : Scope :=
  ⟨scope.entities.modify i f⟩

/-- The position of the first entity of a name, which is added if there is none. -/
def resolve (scope : Scope) (name : Bytes) (kind : EntityKind) : Nat × Scope :=
  match scope.lookup? name with
  | some (i, _) => (i, scope)
  | none => (scope.entities.length, scope.add ⟨name, kind, []⟩)

end Scope

inductive Node
  | missing
  | const (value : Int64)
  /-- The address of a string constant. -/
  | text (symbol : Option Symbol)
  /-- The contents of a variable. -/
  | var (symbol : Option Symbol)
  /-- The address of a variable. -/
  | addr (symbol : Option Symbol)
  | mem (address : Node)
  | binary (op : BinaryOp) (left right : Node)
  | unary (op : UnaryOp) (operand : Node)
  | call (callee : Option Symbol) (args : List Node)
  | assign (target value : Node)
  | label (name : Bytes)
  | jump (target : Bytes)
  | branch (condition : Node) (ifTrue ifFalse : Bytes)
  /-- A return without a value has `missing` in its place. -/
  | ret (value : Node)
  deriving Inhabited

/-- `inlined` marks a function that is expanded at its calls. -/
structure Func where
  name : Bytes
  symbol : Option Symbol := none
  params : List Bytes := []
  inlined : Bool := false
  body : List Node := []

structure Program where
  funcs : List Func := []
  scope : Scope := {}
  init : List Node := []

end Codegen
