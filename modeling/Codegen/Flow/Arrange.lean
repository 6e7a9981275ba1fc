import Codegen.Flow.Blocks
import Codegen.Flow.Graph
import Codegen.Flow.Merge
import Codegen.Flow.Placement

/-!
# Arranging code

Blocks, the graph of their instructions, merges and layout, for one routine and for all.
-/

namespace Codegen.Flow

def arrange : Pass Unit := do
  within .blocks formBlocks
  linkInstrs
  let _ ← mergeBlocks
  within .layout placeBlocks

def run {α : Type} (pass : Pass α) (s : State) : Except Failure α × State :=
  StateT.run (ExceptT.run pass) s

/-- Arranges routines in order up to the first failure. Those that are expanded at their
calls are passed over. -/
def arrangeAll (labels : Nat) : List Routine → Except Failure Unit × Nat × List Routine
  | [] => (.ok (), labels, [])
  | r :: rest =>
    if r.inlined then
      let (result, labels, rest) := arrangeAll labels rest
      (result, labels, r :: rest)
    else
      match run arrange { labels, routine := r } with
      | (.ok (), s) =>
        let (result, labels, rest) := arrangeAll s.labels rest
        (result, labels, s.routine :: rest)
      | (.error failure, s) =>
        (.error (failure.inside (.func r.name)), s.labels, s.routine :: rest)

end Codegen.Flow
