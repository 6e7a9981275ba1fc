import Codegen.Proofs.Flow.References

/-! Merging comes to an end. Every merge takes one block away, so that the merges are as many as the
blocks that are gone. The blocks that are left consist of those that there were, each in one place,
and none of them can take another one. -/
namespace Codegen.Flow

variable {blocks merged : List Block} {b next : Block}

/-- A block that consists of a chain of blocks, each of which is the only one that the one before
leads to. -/
structure MadeOf (chain : List Block) (b : Block) : Prop where
  only : chain.IsChain fun x y => x.succ = [y.key]
  first : chain.head?.map (fun x => (x.key, x.label)) = some (b.key, b.label)
  code : b.code = chain.flatMap Block.code

/-- Where a block leads to one block alone, that is the block itself, or it is not reached in just
one way, or it leads nowhere. -/
def Unmergeable (blocks : List Block) : Prop :=
  ∀ b ∈ blocks, ∀ key, b.succ = [key] →
    ∃ next ∈ blocks, next.key = key ∧ (next = b ∨ next.pred.length ≠ 1 ∨ next.succ = [])

theorem Wired.length_absorb (wired : Wired blocks) (member : next ∈ blocks) (b : Block) :
    (absorb blocks b next).length + 1 = blocks.length := by
  have keys := congrArg List.length (absorb_keys blocks b next)
  have listed : next.key ∈ blocks.map Block.key := List.mem_map_of_mem member
  rw [← wired.keys.erase_eq_filter, List.length_erase_of_mem listed] at keys
  simp only [List.length_map] at keys
  have some := List.length_pos_of_mem member
  omega

theorem Wired.mergeAll_count (wired : Wired blocks) :
    (mergeAll blocks).1 + (mergeAll blocks).2.length = blocks.length := by
  induction blocks using mergeAll.induct with
  | case1 blocks none =>
    rw [mergeAll_eq_none none]
    exact Nat.zero_add _
  | case2 blocks b next found _ _ _ _ ih =>
    have pair := pair_of_mergePair? found
    have fewer := wired.length_absorb pair.second b
    have rest := ih (wired.after_absorb pair)
    rw [mergeAll_eq_some found]
    dsimp only
    omega

theorem Chains.madeOf {parts : Nat → List Block} (chains : Chains blocks merged parts)
    (member : b ∈ merged) : MadeOf (parts b.key) b where
  only := (chains.chain b member).imp fun _ _ pair => pair.succ
  first := by
    obtain ⟨x, head, label⟩ := Option.map_eq_some_iff.mp (chains.label b member)
    rw [head, Option.map_some, (chains.head b member x head).1, label]
  code := chains.code b member

theorem Chains.madeOf_all {parts : Nat → List Block} (chains : Chains blocks merged parts) :
    ∃ parts : List (List Block), parts.flatten.Perm blocks ∧ List.Forall₂ MadeOf parts merged := by
  refine ⟨merged.map fun b => parts b.key, ?_, ?_⟩
  · have perm := chains.perm
    rwa [List.flatMap_map] at perm
  · rw [List.forall₂_map_left_iff, List.forall₂_same]
    exact fun b member => chains.madeOf member

theorem FlowGraph.unmergeable {endLabel : Bytes} {entries : Array Entry}
    (graph : FlowGraph endLabel entries blocks) (none : mergePair? blocks = none) :
    Unmergeable blocks := by
  intro b member key succ
  obtain ⟨next, inside, rfl⟩ := List.mem_map.mp (graph.succ b member key (by simp [succ]))
  refine ⟨next, inside, rfl, ?_⟩
  by_contra able
  simp only [not_or, not_not] at able
  obtain ⟨apart, pred, goesOn⟩ := able
  refine graph.wired.no_pair none ⟨member, inside, succ, ?_, pred, goesOn⟩
  exact fun same => apart (graph.wired.eq_of_key inside member same)

/-- Merging of blocks that have been formed ends with blocks that cannot be merged further. It
counts the blocks that are gone, keeps all instructions and puts together only what follows each
other. -/
theorem mergeBlocks_fixpoint {s t v : State} (made : run formBlocks s = (.ok (), t))
    (same : v.routine.blocks = t.routine.blocks) :
    ∃ count u, run mergeBlocks v = (.ok count, u) ∧
      u = { v with routine := { v.routine with blocks := u.routine.blocks } } ∧
      count + u.routine.blocks.length = t.routine.blocks.length ∧
      (u.routine.blocks.flatMap Block.code).Perm (t.routine.blocks.flatMap Block.code) ∧
      (∃ chains : List (List Block), chains.flatten.Perm t.routine.blocks ∧
        List.Forall₂ MadeOf chains u.routine.blocks) ∧
      Unmergeable u.routine.blocks ∧ run mergeBlocks u = (.ok 0, u) := by
  have graph := flowGraph_of_run made
  obtain ⟨parts, chains⟩ := graph.wired.mergeUpTo_chains (mergeAll t.routine.blocks).1
  rw [mergeUpTo_count] at chains
  have final := mergePair?_mergeAll t.routine.blocks
  refine ⟨_, _, run_mergeBlocks v, rfl, ?_⟩
  rw [same]
  refine ⟨graph.wired.mergeAll_count, chains.code_perm, chains.madeOf_all,
    graph.after_mergeAll.unmergeable final, ?_⟩
  rw [run_mergeBlocks, mergeAll_eq_none final]

def revolving : Func :=
  { name := ascii "f"
    body := [.label (ascii "A"), .label (ascii "B"), .jump (ascii "C"), .label (ascii "C"),
      .branch (.const 1) (ascii "A") (ascii "A")] }

def revolvingRoutine : Routine :=
  Select.routine revolving { code :=
    #[.label (ascii "A"), .label (ascii "B"), .jump (ascii "C"), .label (ascii "C"),
      .branch (.imm 1) (ascii "A") (ascii "A") []] }

def revolvingMerged : Block :=
  { key := 0, id := 0, label := ascii "A", code := [0, 5, 1, 2, 3, 4],
    jumpTo := [ascii "A", ascii "A"], pred := [0, 0], succ := [0, 0] }

theorem mergeBlocks_fixpoint_revolving :
    Select.generateFunc {} revolving = .ok revolvingRoutine ∧
    ∃ t u, run formBlocks ⟨0, revolvingRoutine⟩ = (.ok (), t) ∧
      t.routine.blocks.map Block.code = [[0, 5], [1, 2], [3, 4]] ∧
      run mergeBlocks t = (.ok 2, u) ∧ u.routine.blocks = [revolvingMerged] ∧
      Unmergeable u.routine.blocks ∧ run mergeBlocks u = (.ok 0, u) := by
  have generated : Select.generateFunc {} revolving = .ok revolvingRoutine := by cbv
  have made : run formBlocks ⟨0, revolvingRoutine⟩ =
    (.ok (), (run formBlocks ⟨0, revolvingRoutine⟩).2) := Prod.ext (by cbv) rfl
  have merged : mergeAll (run formBlocks ⟨0, revolvingRoutine⟩).2.routine.blocks =
    (2, [revolvingMerged]) := by cbv
  obtain ⟨count, u, merges, _, _, _, _, final, again⟩ := mergeBlocks_fixpoint made rfl
  rw [run_mergeBlocks, merged] at merges
  cases merges
  refine ⟨generated, _, _, made, by cbv, ?_, rfl, final, again⟩
  rw [run_mergeBlocks, merged]

end Codegen.Flow
