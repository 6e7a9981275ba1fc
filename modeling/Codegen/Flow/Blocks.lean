import Codegen.Flow.Basic

/-!
# Basic blocks

The code is cut before every label and after every jump. Each block starts with a label,
one made up if the code has none there, and a block that runs into a label gets a jump
to it.
-/

namespace Codegen.Flow

/-- The label that is made up when `n` have been before. -/
def madeUpLabel (n : Nat) : Bytes :=
  ascii "cfg_added_" ++ decimal n

/-- A routine's code while it is cut: the blocks so far, the last one first, and the
block that is open. -/
structure Cut where
  labels : Nat
  nextBlock : Nat
  entries : Array Entry
  done : List Block := []
  current : Option Block := none
  deriving Repr

namespace Cut

def alloc (c : Cut) (instr : Instr) : Nat × Cut :=
  (c.entries.size, { c with entries := c.entries.push ⟨instr, [], []⟩ })

def newBlock (c : Cut) (label : Bytes) (i : Nat) : Block × Cut :=
  ({ key := c.done.length, id := c.nextBlock, label, code := [i], jumpTo := [] },
    { c with nextBlock := c.nextBlock + 1 })

def finish (c : Cut) (b : Block) (jumpTo : List Bytes) : Cut :=
  { c with done := { b with jumpTo } :: c.done, current := none }

/-- Closes the open block before a label, by a jump to it. -/
def runInto (c : Cut) (label : Bytes) : Cut :=
  match c.current with
  | none => c
  | some b =>
    let (i, c) := c.alloc (.jump label)
    c.finish { b with code := b.code ++ [i] } [label]

/-- The open block, or a new one with a label of its own. -/
def opened (c : Cut) : Block × Cut :=
  match c.current with
  | some b => (b, c)
  | none =>
    let label := madeUpLabel c.labels
    let (i, c) := c.alloc (.label label)
    { c with labels := c.labels + 1 }.newBlock label i

def place (c : Cut) (i : Nat) (x : Instr) : Cut :=
  match x with
  | .label name =>
    let (b, c) := (c.runInto name).newBlock name i
    { c with current := some b }
  | x =>
    let (b, c) := c.opened
    let b := { b with code := b.code ++ [i] }
    if x.endsBlock then c.finish b x.targets else { c with current := some b }

def placeAll (c : Cut) : List Nat → Bool × Cut
  | [] => (true, c)
  | i :: rest =>
    match c.entries[i]? with
    | none => (false, c)
    | some e => (c.place i e.instr).placeAll rest

/-- The blocks in code order. One that is still open leaves the function. -/
def blocks (c : Cut) (endLabel : Bytes) : List Block :=
  match c.current with
  | none => c.done.reverse
  | some b => (c.finish b [endLabel]).done.reverse

end Cut

def duplicate? (seen : List Bytes) : List Bytes → Option Bytes
  | [] => none
  | label :: rest => if label ∈ seen then some label else duplicate? (label :: seen) rest

/-- The blocks that a block goes to. The end label leaves the function. -/
def successors (endLabel : Bytes) (blocks : List Block) (b : Block) : Except Cause (List Nat) :=
  (b.jumpTo.filter (· != endLabel)).mapM fun label =>
    match blocks.find? (·.label == label) with
    | some target => .ok target.key
    | none => .error (.undefinedLabel label)

/-- The blocks that go to the block of the given key, once for each way. -/
def predecessors (blocks : List Block) (key : Nat) : List Nat :=
  blocks.flatMap fun b => List.replicate (b.succ.count key) b.key

def linked (endLabel : Bytes) (blocks : List Block) : Except Cause (List Block) := do
  if let some label := duplicate? [] (blocks.map Block.label) then
    throw (.duplicateLabel label)
  let blocks ← blocks.mapM fun b => return { b with succ := ← successors endLabel blocks b }
  return blocks.map fun b => { b with pred := predecessors blocks b.key }

/-- Cuts the code of the routine into linked blocks. A failure keeps the instructions and
numbers that were used. -/
def formBlocks : Pass Unit := do
  let s ← get
  let r := s.routine
  let (complete, c) :=
    Cut.placeAll { labels := s.labels, nextBlock := r.nextBlock, entries := r.entries } r.code
  set { labels := c.labels
        routine := { r with entries := c.entries, nextBlock := c.nextBlock } : State }
  unless complete do
    throw .dangling
  match linked r.endLabel (c.blocks r.endLabel) with
  | .ok blocks => modifyRoutine ({ · with blocks })
  | .error cause => fault cause

end Codegen.Flow
