import Codegen.Flow.Basic

/-!
# The graph of instructions

An edge leads from each instruction of a block to the next, and from the last one of a
block to the first one of each successor.
-/

namespace Codegen.Flow

def innerEdges (b : Block) : List (Option (Nat × Nat)) :=
  (b.code.zip b.code.tail).map some

/-- The edges out of a block. An end that is not there is `none`; a block without
instructions has no end even if nothing follows it. -/
def outerEdges (r : Routine) (b : Block) : List (Option (Nat × Nat)) :=
  match b.last? with
  | none => [none]
  | some last => b.succ.map fun key => do
    let first ← (← r.block? key).code.head?
    return (last, first)

def edges (r : Routine) : List (Option (Nat × Nat)) :=
  r.blocks.flatMap innerEdges ++ r.blocks.flatMap (outerEdges r)

def addEdge? (entries : Array Entry) (i j : Nat) : Option (Array Entry) :=
  if i < entries.size ∧ j < entries.size then
    some ((entries.modify i fun e => { e with succ := e.succ ++ [j] }).modify j
      fun e => { e with pred := e.pred ++ [i] })
  else none

/-- Adds edges up to the first that has no ends, and tells whether there was none. -/
def addEdges (entries : Array Entry) : List (Option (Nat × Nat)) → Bool × Array Entry
  | [] => (true, entries)
  | none :: _ => (false, entries)
  | some (i, j) :: rest =>
    match addEdge? entries i j with
    | none => (false, entries)
    | some entries => addEdges entries rest

def linkInstrs : Pass Unit := do
  let r := (← get).routine
  let (complete, entries) := addEdges r.entries (edges r)
  modifyRoutine ({ · with entries })
  unless complete do
    throw .dangling

end Codegen.Flow
