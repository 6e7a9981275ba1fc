import Codegen.Flow.Basic

/-!
# Merging blocks

A block that another one leads to alone, and that is reached from nowhere else, is
appended to that one, unless it leads out of the function.
-/

namespace Codegen.Flow

def find? (blocks : List Block) (key : Nat) : Option Block :=
  blocks.find? (·.key == key)

/-- The block that can be appended to `b`. -/
def mergeable? (blocks : List Block) (b : Block) : Option Block :=
  match b.succ with
  | [key] =>
    (find? blocks key).filter fun next =>
      next.key != b.key && next.pred.length == 1 && !next.succ.isEmpty
  | _ => none

/-- The first block that another one can be appended to, and that other one. -/
def mergePair? (blocks : List Block) : Option (Block × Block) :=
  blocks.findSome? fun b => (mergeable? blocks b).map (b, ·)

/-- Appends `next` to `b`, which takes its place as predecessor. -/
def absorb (blocks : List Block) (b next : Block) : List Block :=
  (blocks.filter (·.key != next.key)).map fun x =>
    let pred := x.pred.map fun key => if key = next.key then b.key else key
    if x.key = b.key then
      { x with pred, code := x.code ++ next.code, jumpTo := next.jumpTo, succ := next.succ }
    else
      { x with pred }

theorem mergePair?_mem {blocks : List Block} {b next : Block}
    (h : mergePair? blocks = some (b, next)) : next ∈ blocks := by
  obtain ⟨c, _, hc⟩ := List.exists_of_findSome?_eq_some h
  obtain ⟨n, hn, heq⟩ := Option.map_eq_some_iff.mp hc
  cases heq
  unfold mergeable? at hn
  split at hn
  · exact List.mem_of_find?_eq_some (Option.filter_eq_some_iff.mp hn).1
  · contradiction

theorem length_absorb_lt {blocks : List Block} {b next : Block} (h : next ∈ blocks) :
    (absorb blocks b next).length < blocks.length := by
  simp only [absorb, List.length_map]
  exact List.length_filter_lt_length_iff_exists.mpr ⟨next, h, by simp⟩

/-- Merges as long as there is a pair, and counts the merges. -/
def mergeAll (blocks : List Block) : Nat × List Block :=
  match h : mergePair? blocks with
  | none => (0, blocks)
  | some (b, next) =>
    have : (absorb blocks b next).length < blocks.length := length_absorb_lt (mergePair?_mem h)
    let (count, blocks) := mergeAll (absorb blocks b next)
    (count + 1, blocks)
termination_by blocks.length

def mergeBlocks : Pass Nat := do
  let (count, blocks) := mergeAll (← get).routine.blocks
  modifyRoutine ({ · with blocks })
  return count

end Codegen.Flow
