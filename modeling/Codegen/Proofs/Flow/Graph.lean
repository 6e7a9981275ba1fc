import Codegen.Proofs.Flow.Branches

/-! The graph of a routine's blocks. What can be told of it right after the blocks are formed
stays true with every merge: how blocks are named and numbered, how they start and end, and that
both ends of a link agree. -/
namespace Codegen

/-- Where control goes after the last instruction of a block. -/
def Instr.exits (endLabel : Bytes) : Instr → List Bytes
  | .jump target => [target]
  | .branch _ ifTrue ifFalse _ => [ifTrue, ifFalse]
  | _ => [endLabel]

theorem Instr.exits_of_last {x : Instr} (last : x.endsBlock = true) (endLabel : Bytes) :
    x.exits endLabel = x.targets := by
  cases x <;> first | rfl | contradiction

theorem Instr.exits_of_inner {x : Instr} (inner : x.endsBlock = false) (endLabel : Bytes) :
    x.exits endLabel = [endLabel] := by
  cases x <;> first | rfl | contradiction

@[simp] theorem Instr.exits_unmarked (x : Instr) (endLabel : Bytes) :
    x.unmarked.exits endLabel = x.exits endLabel := by
  cases x <;> rfl

namespace Flow

/-- Blocks that are named and numbered apart, start with their labels, go where their last
instructions go, and are linked accordingly. -/
structure FlowGraph (endLabel : Bytes) (entries : Array Entry) (blocks : List Block) : Prop where
  keys : (blocks.map Block.key).Nodup
  labels : (blocks.map Block.label).Nodup
  ids : blocks.Pairwise fun x y => x.id < y.id
  first : ∀ b ∈ blocks, ∃ i ∈ b.code.head?, entries[i]?.map Entry.instr = some (.label b.label)
  succ : ∀ b ∈ blocks, ∀ key ∈ b.succ, key ∈ blocks.map Block.key
  pred : ∀ b ∈ blocks, ∀ key ∈ b.pred, key ∈ blocks.map Block.key
  ways : ∀ b ∈ blocks, ∀ c ∈ blocks, b.succ.count c.key = c.pred.count b.key
  names : ∀ b ∈ blocks, b.succ.map (fun key => (find? blocks key).map Block.label) =
    (b.jumpTo.filter (· != endLabel)).map some
  last : ∀ b ∈ blocks, ∃ i ∈ b.code.getLast?, ∃ e ∈ entries[i]?,
    b.jumpTo = e.instr.exits endLabel

section Merging

variable {endLabel : Bytes} {entries : Array Entry} {blocks : List Block} {b next x : Block}
  {key : Nat}

theorem FlowGraph.wired (graph : FlowGraph endLabel entries blocks) : Wired blocks :=
  ⟨graph.keys, fun b first c second => (graph.ways b first c second).symm⟩

/-- What is found under a key is the block that was there, merged. -/
theorem find?_absorb (kept : key ≠ next.key) :
    find? (absorb blocks b next) key = (find? blocks key).map (merged b next) := by
  unfold find?
  rw [absorb_eq, List.find?_map, List.find?_filter]
  congr 2
  funext x
  by_cases found : x.key = key
  · simp [found, kept]
  · simp [found]

/-- A merge leaves no link to the block that it takes away. -/
theorem Wired.succ_absorb (wired : Wired blocks) (pair : Pair blocks b next) (member : x ∈ blocks)
    (leads : key ∈ (merged b next x).succ) : key ≠ next.key := by
  rintro rfl
  rw [merged_succ] at leads
  split at leads
  next => exact pair.apart (congrArg Block.key (wired.only_way pair pair.second leads))
  next other => exact other (congrArg Block.key (wired.only_way pair member leads))

theorem FlowGraph.succ_absorb (graph : FlowGraph endLabel entries blocks)
    (pair : Pair blocks b next) (member : x ∈ absorb blocks b next) (leads : key ∈ x.succ) :
    key ∈ (absorb blocks b next).map Block.key := by
  obtain ⟨x, inside, _, rfl⟩ := mem_absorb.mp member
  rw [absorb_keys, List.mem_filter]
  refine ⟨?_, by simpa using graph.wired.succ_absorb pair inside leads⟩
  rw [merged_succ] at leads
  split at leads
  · exact graph.succ next pair.second key leads
  · exact graph.succ x inside key leads

theorem FlowGraph.pred_absorb (graph : FlowGraph endLabel entries blocks)
    (pair : Pair blocks b next) (member : x ∈ absorb blocks b next) (leads : key ∈ x.pred) :
    key ∈ (absorb blocks b next).map Block.key := by
  obtain ⟨x, inside, _, rfl⟩ := mem_absorb.mp member
  rw [merged_pred] at leads
  obtain ⟨before, listed, rfl⟩ := List.mem_map.mp leads
  rw [absorb_keys, List.mem_filter]
  by_cases taken : before = next.key
  · simp only [taken, if_true]
    exact ⟨List.mem_map_of_mem pair.first, by simpa using pair.apart.symm⟩
  · simp only [taken, if_false]
    exact ⟨graph.pred x inside before listed, by simpa using taken⟩

theorem FlowGraph.names_absorb (graph : FlowGraph endLabel entries blocks)
    (pair : Pair blocks b next) (member : x ∈ absorb blocks b next) :
    x.succ.map (fun key => (find? (absorb blocks b next) key).map Block.label) =
      (x.jumpTo.filter (· != endLabel)).map some := by
  obtain ⟨x, inside, _, rfl⟩ := mem_absorb.mp member
  have same : ∀ key ∈ (merged b next x).succ,
      (find? (absorb blocks b next) key).map Block.label = (find? blocks key).map Block.label := by
    intro key leads
    rw [find?_absorb (graph.wired.succ_absorb pair inside leads), Option.map_map]
    congr 1
    exact funext (merged_label b next)
  rw [List.map_congr_left same, merged_succ, merged_jumpTo]
  split
  · exact graph.names next pair.second
  · exact graph.names x inside

theorem FlowGraph.first_absorb (graph : FlowGraph endLabel entries blocks)
    (member : x ∈ absorb blocks b next) :
    ∃ i ∈ x.code.head?, entries[i]?.map Entry.instr = some (.label x.label) := by
  obtain ⟨x, inside, _, rfl⟩ := mem_absorb.mp member
  obtain ⟨i, head, label⟩ := graph.first x inside
  refine ⟨i, ?_, by rwa [merged_label]⟩
  rw [merged_code]
  split
  · exact List.mem_head?_append_of_mem_head? head
  · exact head

theorem FlowGraph.last_absorb (graph : FlowGraph endLabel entries blocks)
    (pair : Pair blocks b next) (member : x ∈ absorb blocks b next) :
    ∃ i ∈ x.code.getLast?, ∃ e ∈ entries[i]?, x.jumpTo = e.instr.exits endLabel := by
  obtain ⟨x, inside, _, rfl⟩ := mem_absorb.mp member
  rw [merged_code, merged_jumpTo]
  split
  · obtain ⟨i, last, ends⟩ := graph.last next pair.second
    exact ⟨i, List.mem_getLast?_append_of_mem_getLast? last, ends⟩
  · exact graph.last x inside

theorem absorb_sublist {α : Type} {f : Block → α} (free : ∀ x, f (merged b next x) = f x) :
    ((absorb blocks b next).map f).Sublist (blocks.map f) := by
  have same : f ∘ merged b next = f := funext free
  rw [absorb_eq, List.map_map, same]
  exact List.filter_sublist.map f

theorem FlowGraph.after_absorb (graph : FlowGraph endLabel entries blocks)
    (pair : Pair blocks b next) : FlowGraph endLabel entries (absorb blocks b next) where
  keys := (graph.wired.after_absorb pair).keys
  labels := graph.labels.sublist (absorb_sublist (merged_label b next))
  ids := List.pairwise_map.mp
    ((List.pairwise_map.mpr graph.ids).sublist (absorb_sublist (merged_id b next)))
  first _ member := graph.first_absorb member
  succ _ member _ leads := graph.succ_absorb pair member leads
  pred _ member _ leads := graph.pred_absorb pair member leads
  ways x first y second := ((graph.wired.after_absorb pair).ways x first y second).symm
  names _ member := graph.names_absorb pair member
  last _ member := graph.last_absorb pair member

theorem FlowGraph.after_mergeUpTo (graph : FlowGraph endLabel entries blocks) (n : Nat) :
    FlowGraph endLabel entries (mergeUpTo n blocks) := by
  refine graph.wired.mergeUpTo_induction graph (fun _ _ _ _ found graph => ?_) n
  exact graph.after_absorb (pair_of_mergePair? found)

end Merging

section Forming

variable {s t : State} {b : Block}

theorem Shaped.exits {endLabel : Bytes} {lines : List Line} {jumpTo : List Bytes} {last : Line}
    (shaped : Shaped endLabel lines jumpTo) (atEnd : last ∈ lines.getLast?) :
    jumpTo = last.instr.exits endLabel := by
  cases shaped with
  | ends init _ ends =>
    obtain rfl : _ = last := by simpa using atEnd
    exact (Instr.exits_of_last ends endLabel).symm
  | leaves inner =>
    exact (Instr.exits_of_inner (inner last (List.mem_of_getLast? atEnd)) endLabel).symm

theorem Formed.first_label (formed : Formed s t) (member : b ∈ t.routine.blocks) :
    ∃ i ∈ b.code.head?, t.routine.entries[i]?.map Entry.instr = some (.label b.label) := by
  obtain ⟨i, rest, line, code, found, label⟩ := formed.starts member
  obtain ⟨e, there, rfl⟩ := Option.map_eq_some_iff.mp found
  refine ⟨i, by simp [code], ?_⟩
  rw [there, Option.map_some, Option.some.injEq]
  cases instr : e.instr <;> simp_all [Instr.unmarked, Instr.control]

theorem Formed.last_exits (formed : Formed s t) (member : b ∈ t.routine.blocks) :
    ∃ i ∈ b.code.getLast?, ∃ e ∈ t.routine.entries[i]?,
      b.jumpTo = e.instr.exits s.routine.endLabel := by
  obtain ⟨_, _, _, code, _⟩ := formed.starts member
  obtain ⟨init, i, split⟩ := (List.eq_nil_or_concat' b.code).resolve_left (by simp [code])
  obtain ⟨line, found⟩ := formed.present member i (by simp [split])
  obtain ⟨e, there, rfl⟩ := Option.map_eq_some_iff.mp found
  have lines : linesOf t.routine.entries b.code =
      linesOf t.routine.entries init ++ [⟨i, e.instr.unmarked⟩] := by
    rw [split, linesOf_append, linesOf_cons [] found, linesOf_nil]
  have atEnd : ⟨i, e.instr.unmarked⟩ ∈ (linesOf t.routine.entries b.code).getLast? := by
    simp [lines]
  have exits := (formed.shaped member).exits atEnd
  exact ⟨i, by simp [split], e, there, by simpa using exits⟩

theorem names_of_run (made : run formBlocks s = (.ok (), t)) (member : b ∈ t.routine.blocks) :
    b.succ.map (fun key => (find? t.routine.blocks key).map Block.label) =
      (b.jumpTo.filter (· != s.routine.endLabel)).map some := by
  have wired := (formed_of_run made).wired
  symm
  rw [← List.forall₂_eq_eq_eq, List.forall₂_map_left_iff, List.forall₂_map_right_iff]
  refine (leads_of_run made member).imp ?_
  rintro label key ⟨c, inside, rfl, rfl⟩
  rw [wired.find?_key inside, Option.map_some]

/-- Blocks that have been formed are linked among themselves. -/
theorem linked_of_run (made : run formBlocks s = (.ok (), t)) (member : b ∈ t.routine.blocks) :
    (∀ key ∈ b.succ, key ∈ t.routine.blocks.map Block.key) ∧
      ∀ key ∈ b.pred, key ∈ t.routine.blocks.map Block.key := by
  constructor
  · intro key leads
    obtain ⟨i, bound, rfl⟩ := List.getElem_of_mem leads
    have links := leads_of_run made member
    obtain ⟨c, inside, _, same⟩ := links.get (links.length_eq ▸ bound) bound
    rw [List.get_eq_getElem] at same
    exact same ▸ List.mem_map_of_mem inside
  · obtain ⟨_, blocks, _, joined, rfl⟩ := formBlocks_ok made
    obtain ⟨_, _, link⟩ := linked_mem joined member
    intro key leads
    rw [link.pred, predecessors, List.mem_flatMap] at leads
    obtain ⟨c, inside, listed⟩ := leads
    exact (List.eq_of_mem_replicate listed) ▸ List.mem_map_of_mem inside

theorem flowGraph_of_run (made : run formBlocks s = (.ok (), t)) :
    FlowGraph s.routine.endLabel t.routine.entries t.routine.blocks := by
  have formed := formed_of_run made
  have ids := congrArg (List.map Prod.snd) formed.numbers
  simp only [List.map_map, Function.comp_def] at ids
  exact {
    keys := formed.wired.keys
    labels := formed.labels
    ids := by
      rw [← List.pairwise_map, ids, List.pairwise_map]
      exact List.pairwise_lt_range.imp fun below => by omega
    first := fun b member => formed.first_label member
    succ := fun b member => (linked_of_run made member).1
    pred := fun b member => (linked_of_run made member).2
    ways := fun b first c second => (formed.wired.ways b first c second).symm
    names := fun b member => names_of_run made member
    last := fun b member => formed.last_exits member }

/-- Blocks that have been formed are a flow graph, and stay one with every merge, up to those
that the routine is left with. -/
theorem flowGraph_mergeUpTo (made : run formBlocks s = (.ok (), t)) :
    (∀ n, FlowGraph s.routine.endLabel t.routine.entries (mergeUpTo n t.routine.blocks)) ∧
      mergeUpTo (mergeAll t.routine.blocks).1 t.routine.blocks =
        (mergeAll t.routine.blocks).2 := by
  have graph := flowGraph_of_run made
  exact ⟨fun n => graph.after_mergeUpTo n, mergeUpTo_count t.routine.blocks⟩

end Forming

def circling : Routine :=
  Select.routine { name := ascii "f" } { code :=
    #[.label (ascii "A"), .branch (.imm 1) (ascii "B") (ascii "B") [], .label (ascii "B"),
      .jump (ascii "C"), .label (ascii "C"), .jump (ascii "A")] }

def circlingMerged : Block :=
  { key := 1, id := 1, label := ascii "B", code := [2, 3, 4, 5, 0, 1],
    jumpTo := [ascii "B", ascii "B"], pred := [1, 1], succ := [1, 1] }

theorem flowGraph_mergeUpTo_circling : ∃ t, run formBlocks ⟨0, circling⟩ = (.ok (), t) ∧
    mergeUpTo 2 t.routine.blocks = [circlingMerged] ∧
    FlowGraph circling.endLabel t.routine.entries [circlingMerged] := by
  have formed : run formBlocks ⟨0, circling⟩ =
      (.ok (), (run formBlocks ⟨0, circling⟩).2) := Prod.ext (by cbv) rfl
  have merged : mergeUpTo 2 (run formBlocks ⟨0, circling⟩).2.routine.blocks = [circlingMerged] := by
    cbv
  refine ⟨_, formed, merged, ?_⟩
  rw [← merged]
  exact (flowGraph_mergeUpTo formed).1 2

end Flow

end Codegen
