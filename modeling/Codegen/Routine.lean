import Codegen.Instr.Rename

/-!
# Functions under code generation

A routine owns its instructions, which are referred to by position. Its code lists them
in execution order and its blocks group them. Blocks refer to each other by key.
-/

namespace Codegen

/-- An instruction, with the positions of those that run before and after it. -/
structure Entry where
  instr : Instr
  pred : List Nat := []
  succ : List Nat := []
  deriving DecidableEq, Repr

inductive BlockState
  | unvisited | queued | placed
  deriving DecidableEq, Repr

structure Block where
  key : Nat
  id : Int
  label : Bytes
  code : List Nat
  jumpTo : List Bytes
  pred : List Nat := []
  succ : List Nat := []
  state : BlockState := .unvisited
  deriving DecidableEq, Repr

structure Routine where
  name : Bytes
  /-- A jump to this label leaves the function. -/
  endLabel : Bytes
  /-- The function is expanded at its calls and has no code. -/
  inlined : Bool := false
  temps : List Temp := []
  entries : Array Entry := #[]
  code : List Nat := []
  blocks : List Block := []
  /-- The number of the next block that is made of this routine's code. -/
  nextBlock : Nat := 0
  deriving Repr

namespace Block

def last? (b : Block) : Option Nat :=
  b.code.getLast?

def wire (b : Block) : Bytes :=
  Wire.map [(ascii "id", Wire.int b.id), (ascii "label", Wire.text b.label),
    (ascii "ins", Wire.int b.code.length), (ascii "succ", Wire.int b.succ.length)]

end Block

namespace Routine

def instr? (r : Routine) (i : Nat) : Option Instr :=
  r.entries[i]?.map Entry.instr

/-- The instructions in execution order, if all of them are there. -/
def instrs? (r : Routine) : Option (List Instr) :=
  r.code.mapM r.instr?

def block? (r : Routine) (key : Nat) : Option Block :=
  r.blocks.find? (·.key == key)

def rename (r : Routine) (which : Coverage) (i : Nat) (old new : Temp) : Routine :=
  let pool : Pool := { instrs := r.entries.toList.map Entry.instr }
  let renamed := (pool.rename which i old new).instrs
  { r with entries := r.entries.mapIdx fun j e => { e with instr := renamed[j]?.getD e.instr } }

/-- Appends a block with a key of its own. Its successors are given by their positions
among the blocks, itself included; the first position without a block ends them, and the
answer says whether there was none. -/
def addBlock (r : Routine) (id : Int) (label : Bytes) (code : List Nat) (jumpTo : List Bytes)
    (succ : List Nat) : Bool × Routine :=
  let key := 1 + (r.blocks.map Block.key).foldl max 0
  let blocks := r.blocks ++ [{ key := key, id, label, code, jumpTo }]
  let keys := (succ.takeWhile (· < blocks.length)).filterMap fun i => blocks[i]?.map Block.key
  let linked := blocks.map fun b =>
    { b with
      pred := b.pred ++ List.replicate (keys.count b.key) key
      succ := if b.key = key then keys else b.succ }
  (decide (keys.length = succ.length), { r with blocks := linked })

end Routine

end Codegen
