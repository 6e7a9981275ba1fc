import Codegen.Flow.Basic
import Codegen.Heap

/-!
# Code layout

Blocks are placed one after the other. After a block comes its first successor that is
not placed yet, so that the jump to it can be left out; where there is none, the
remaining block with the least number comes next.
-/

namespace Codegen.Flow

structure Placement where
  block : Block
  next : Option Block
  deriving Repr

def follower? (b : Block) (rest : List Block) : Option Block :=
  b.succ.findSome? fun key => rest.find? (·.key == key)

def without (rest : List Block) (b : Block) : List Block :=
  rest.filter (·.key != b.key)

theorem follower?_mem {b next : Block} {rest : List Block} (h : follower? b rest = some next) :
    next ∈ rest := by
  obtain ⟨_, _, hk⟩ := List.exists_of_findSome?_eq_some h
  exact List.mem_of_find?_eq_some hk

theorem length_without_lt {b : Block} {rest : List Block} (h : b ∈ rest) :
    (without rest b).length < rest.length :=
  List.length_filter_lt_length_iff_exists.mpr ⟨b, h, by simp⟩

/-- Places `b` and then the remaining blocks, which are in the order of their numbers. -/
def placements (b : Block) (rest : List Block) : List Placement :=
  match h : follower? b rest with
  | some next =>
    have : (without rest next).length < rest.length := length_without_lt (follower?_mem h)
    ⟨b, some next⟩ :: placements next (without rest next)
  | none =>
    match rest with
    | [] => [⟨b, none⟩]
    | next :: rest => ⟨b, none⟩ :: placements next rest
termination_by rest.length

/-- The order of placement. The blocks wait in a heap, which also orders those of one
number. -/
def placementOrder (blocks : List Block) : List Placement :=
  match Heap.sort Block.id blocks with
  | [] => []
  | b :: rest => placements b rest

/-- What the layout has so far: the instructions, with what falls through to what, the
keys of the blocks placed and the code. -/
structure Placed where
  entries : Array Entry
  keys : List Nat := []
  code : List Nat := []
  deriving Repr

namespace Placed

/-- Adds the code of one block. Before the block that it runs into, a last jump to that
block is left out and a last branch notes its label. -/
def add (p : Placed) (block : Block) (next : Option Block) : Except Failure Unit × Placed :=
  match block.last? with
  | none => (.error (.fault { cause := .emptyBlock block.label }), p)
  | some last =>
    let marked := { p with keys := block.key :: p.keys }
    let whole := { marked with code := p.code ++ block.code }
    match next with
    | none => (.ok (), whole)
    | some next =>
      match p.entries[last]?.map Entry.instr with
      | none => (.error .dangling, marked)
      | some (.jump target) =>
        if target = next.label then
          (.ok (), { marked with code := p.code ++ block.code.dropLast })
        else (.ok (), whole)
      | some (.branch condition ifTrue ifFalse _) =>
        let instr : Instr := .branch condition ifTrue ifFalse next.label
        (.ok (), { whole with entries := p.entries.modify last ({ · with instr }) })
      | some _ => (.ok (), whole)

def addAll (p : Placed) : List Placement → Except Failure Unit × Placed
  | [] => (.ok (), p)
  | ⟨block, next⟩ :: rest =>
    match p.add block next with
    | (.ok (), p) => p.addAll rest
    | (.error failure, p) => (.error failure, p)

end Placed

/-- Lays the routine's blocks out as its new code. A failure keeps the old code. -/
def placeBlocks : Pass Unit := do
  let r := (← get).routine
  let (result, p) := Placed.addAll { entries := r.entries } (placementOrder r.blocks)
  let blocks := r.blocks.map fun b =>
    { b with state := if b.key ∈ p.keys then .placed else .queued }
  modifyRoutine ({ · with entries := p.entries, blocks })
  match result with
  | .ok () => modifyRoutine ({ · with code := p.code })
  | .error failure => throw failure

end Codegen.Flow
