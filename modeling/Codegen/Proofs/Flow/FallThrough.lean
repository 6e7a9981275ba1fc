import Codegen.Proofs.Flow.Edges
import Codegen.Proofs.Flow.Exit
import Codegen.Proofs.Flow.Partition
import Codegen.Proofs.Select.Labels

/-! The layout of an emitted function, from block to block. All blocks are laid out, each one once,
and whole but for a jump at the end to the label that comes next. A branch that notes a label has
that label right behind it, and it is one of the two that the branch goes to. -/
namespace Codegen.Flow

/-- Blocks one after the other as code. A block is shortened only by a jump at its end, and only
before the label that the jump goes to. -/
inductive LaidOut (r : Routine) : List Block → List Nat → Prop
  | nil : LaidOut r [] []
  | whole (b : Block) {blocks : List Block} {code : List Nat} : LaidOut r blocks code →
      LaidOut r (b :: blocks) (b.code ++ code)
  | shortened (b : Block) {blocks : List Block} {init code : List Nat} {last first : Nat}
      {name : Bytes} : b.code = init ++ [last] → r.instr? last = some (.jump name) →
      r.instr? first = some (.label name) → LaidOut r blocks (first :: code) →
      LaidOut r (b :: blocks) (init ++ first :: code)

section Marks

variable {placed : List Placement} {entries : Array Entry} {p : Placed} {q : Placement}
  {s t : State}

/-- A branch that notes a label is the last instruction of a block that runs into the block of that
label. -/
def Marked (placed : List Placement) (entries : Array Entry) : Prop :=
  ∀ (i : Nat) (condition : Operand) (ifTrue ifFalse mark : Bytes),
    entries[i]?.map Entry.instr = some (.branch condition ifTrue ifFalse mark) → mark ≠ [] →
      ∃ q ∈ placed, q.block.last? = some i ∧ ∃ next, q.next = some next ∧ next.label = mark

theorem marked_of_unmarked (unmarked : ∀ e ∈ entries, e.instr.unmarked = e.instr) :
    Marked placed entries := by
  intro i condition ifTrue ifFalse mark branch noted
  obtain ⟨e, found, instr⟩ := Option.map_eq_some_iff.mp branch
  have same := unmarked e (Array.mem_of_getElem? found)
  simp only [instr, Instr.unmarked, Instr.branch.injEq, true_and] at same
  exact absurd same.symm noted

theorem Marked.add (marked : Marked placed p.entries) (member : q ∈ placed) :
    Marked placed (p.add q.block q.next).2.entries := by
  rcases add_entries p q.block q.next with same | ⟨last, _, _, _, _, next, ends, into, _, same⟩
  · rwa [same]
  · rw [same]
    intro i condition ifTrue ifFalse mark branch noted
    rw [Array.getElem?_modify] at branch
    split at branch
    next here =>
      rw [Option.map_map] at branch
      obtain ⟨e, _, instr⟩ := Option.map_eq_some_iff.mp branch
      cases instr
      exact ⟨q, member, here ▸ ends, next, into, rfl⟩
    next => exact marked i condition ifTrue ifFalse mark branch noted

theorem Marked.addAll (marked : Marked placed p.entries) :
    Marked placed (p.addAll placed).2.entries :=
  addAll_entries (fun _ member _ marked => marked.add member) marked

/-- The labels and jumps that blocks are completed by have no marks. -/
theorem unmarked_of_run (made : run formBlocks s = (.ok (), t))
    (unmarked : ∀ e ∈ s.routine.entries, e.instr.unmarked = e.instr) :
    ∀ e ∈ t.routine.entries, e.instr.unmarked = e.instr := by
  obtain ⟨c, blocks, placed, _, rfl⟩ := formBlocks_ok made
  have push {entries : Array Entry} {x : Instr} (plain : x.unmarked = x)
      (before : ∀ e ∈ entries, e.instr.unmarked = e.instr) :
      ∀ e ∈ entries.push ⟨x, [], []⟩, e.instr.unmarked = e.instr := by
    intro e member
    rcases Array.mem_push.mp member with old | rfl
    · exact before e old
    · exact plain
  exact Cut.entries_placeAll (P := fun entries => ∀ e ∈ entries, e.instr.unmarked = e.instr)
    (fun _ _ => push rfl) (fun _ _ => push rfl) unmarked placed

end Marks

section Layout

variable {endLabel : Bytes} {entries more : Array Entry} {blocks : List Block} {b next : Block}
  {placed : List Placement} {r : Routine} {name : Bytes} {i : Nat}

/-- Edges are no part of a flow graph of blocks. -/
theorem FlowGraph.of_instrs (graph : FlowGraph endLabel entries blocks)
    (same : ∀ i : Nat, more[i]?.map Entry.instr = entries[i]?.map Entry.instr) :
    FlowGraph endLabel more blocks :=
  { graph with
    first := by
      intro b member
      obtain ⟨i, head, label⟩ := graph.first b member
      exact ⟨i, head, (same i).trans label⟩
    last := by
      intro b member
      obtain ⟨i, final, e, there, exits⟩ := graph.last b member
      rw [Option.mem_def] at there
      have instr := same i
      rw [there] at instr
      obtain ⟨e', there', instr⟩ := Option.map_eq_some_iff.mp instr
      exact ⟨i, final, e', there', instr ▸ exits⟩ }

/-- A block keeps its label where it is placed, as the first instruction. -/
theorem FlowGraph.trimmed_first (graph : FlowGraph endLabel entries blocks) (member : b ∈ blocks)
    (into : Option Block) : ∃ first code, trimmed entries ⟨b, into⟩ = first :: code ∧
      lineAt? entries first = some ⟨first, .label b.label⟩ := by
  obtain ⟨first, head, label⟩ := graph.first b member
  obtain ⟨rest, starts⟩ := List.head?_eq_some_iff.mp head
  obtain ⟨e, there, instr⟩ := Option.map_eq_some_iff.mp label
  have found : lineAt? entries first = some ⟨first, .label b.label⟩ := by
    rw [lineAt?, there, Option.map_some, instr]
    rfl
  obtain ⟨code, kept⟩ := trimmed_label starts found rfl into
  exact ⟨first, code, kept, found⟩

theorem last_of_lastControl? (jump : lastControl? entries b = some (.jump name)) :
    ∃ last, b.code = b.code.dropLast ++ [last] ∧
      lineAt? entries last = some ⟨last, .jump name⟩ := by
  obtain ⟨line, found, control⟩ := Option.map_eq_some_iff.mp jump
  obtain ⟨last, ends, found⟩ := Option.bind_eq_some_iff.mp found
  refine ⟨last, (List.dropLast_append_getLast? last ends).symm, ?_⟩
  obtain ⟨e, there, rfl⟩ := Option.map_eq_some_iff.mp found
  have instr : e.instr.unmarked = .jump name := by
    cases x : e.instr <;> simp_all [Instr.unmarked, Instr.control]
  rw [found, instr]

/-- Blocks of a flow graph are laid out as they are placed. -/
theorem FlowGraph.laidOut (graph : FlowGraph endLabel entries blocks)
    (same : SameLines entries r.entries) (chained : Chained placed)
    (inside : ∀ q ∈ placed, q.block ∈ blocks) :
    LaidOut r (placed.map fun q => { q.block with state := .placed })
      (placed.flatMap (trimmed entries)) := by
  induction chained with
  | nil => exact .nil
  | waits b chained ih => exact .whole _ (ih (List.forall_mem_cons.mp inside).2)
  | @runsInto b next further placed chained ih =>
    obtain ⟨_, inside⟩ := List.forall_mem_cons.mp inside
    have later := ih inside
    rw [List.map_cons, List.flatMap_cons]
    by_cases jump : lastControl? entries b = some (.jump next.label)
    · obtain ⟨last, ends, final⟩ := last_of_lastControl? jump
      obtain ⟨first, code, starts, label⟩ :=
        graph.trimmed_first (inside _ (List.mem_cons_self ..)) further
      have jumps : r.instr? last = some (.jump next.label) :=
        instr?_of_line rfl ((same last).trans final)
      have there : r.instr? first = some (.label next.label) :=
        instr?_of_line rfl ((same first).trans label)
      rw [List.flatMap_cons, starts, List.cons_append] at later ⊢
      rw [trimmed, if_pos jump]
      exact .shortened _ ends jumps there later
    · rw [trimmed, if_neg jump]
      exact .whole _ later

/-- Behind a branch at the end of a block comes the label of the block that it runs into. -/
theorem FlowGraph.followed (graph : FlowGraph endLabel entries blocks)
    (distinct : (placed.flatMap (trimmed entries)).Nodup) (chained : Chained placed)
    (inside : ∀ q ∈ placed, q.block ∈ blocks) {q : Placement} (member : q ∈ placed)
    (ends : q.block.last? = some i) (into : q.next = some next)
    (other : lastControl? entries q.block ≠ some (.jump next.label)) {before after : List Nat}
    (split : placed.flatMap (trimmed entries) = before ++ i :: after) :
    ∃ first, after.head? = some first ∧
      lineAt? entries first = some ⟨first, .label next.label⟩ := by
  obtain ⟨b, _⟩ := q
  cases into
  obtain ⟨front, back, rfl⟩ := List.append_of_mem member
  obtain ⟨further, tail, rfl⟩ := chained.followed
  obtain ⟨first, code, starts, label⟩ := graph.trimmed_first (b := next)
    (inside ⟨next, further⟩ (by simp)) further
  have own : b.code = b.code.dropLast ++ [i] := (List.dropLast_append_getLast? i ends).symm
  have whole : (front ++ ⟨b, some next⟩ :: ⟨next, further⟩ :: tail).flatMap (trimmed entries) =
      (front.flatMap (trimmed entries) ++ b.code.dropLast) ++
        i :: first :: (code ++ tail.flatMap (trimmed entries)) := by
    rw [List.flatMap_append, List.flatMap_cons, List.flatMap_cons, starts, trimmed, if_neg other]
    nth_rewrite 1 [own]
    simp
  -- No instruction is laid out twice, so that this is the only place of the branch.
  rw [whole] at split distinct
  obtain ⟨fresh, _⟩ := List.nodup_cons.mp (List.nodup_middle.mp distinct)
  rw [List.mem_append, not_or] at fresh
  obtain ⟨_, _, rfl⟩ := (List.append_cons_inj_of_notMem fresh.1 fresh.2).mp split
  exact ⟨first, rfl, label⟩

/-- A block that ends with a branch leads to blocks of the two labels of the branch only. -/
theorem FlowGraph.branch_label (graph : FlowGraph endLabel entries blocks) (first : b ∈ blocks)
    (second : next ∈ blocks) (leads : next.key ∈ b.succ) (ends : b.last? = some i)
    {condition : Operand} {ifTrue ifFalse : Bytes}
    (branch : lineAt? entries i = some ⟨i, .branch condition ifTrue ifFalse []⟩) :
    next.label = ifTrue ∨ next.label = ifFalse := by
  obtain ⟨last, final, e, there, exits⟩ := graph.last b first
  cases ends.symm.trans final
  rw [Option.mem_def] at there
  have goes := ((graph.succ_iff first second).mp leads).1
  rw [lineAt?, there, Option.map_some, Option.some.injEq, Line.mk.injEq] at branch
  rw [exits] at goes
  cases x : e.instr <;> simp_all [Instr.unmarked, Instr.exits]

/-- The blocks of a flow graph are all placed. -/
theorem FlowGraph.placed_all (graph : FlowGraph endLabel entries blocks) :
    ∃ p, Placed.addAll { entries } (placementOrder blocks) = (.ok (), p) ∧
      markPlaced p.keys blocks = blocks.map ({ · with state := .placed }) := by
  have ends : ∀ q ∈ placementOrder blocks, ∃ last ∈ q.block.last?, last < entries.size :=
    fun q waiting => graph.last_inside (mem_of_mem_placementOrder graph.keys waiting)
  obtain ⟨p, placed, keys⟩ := addAll_done (p := { entries }) ends
  refine ⟨p, placed, List.map_congr_left fun b member => ?_⟩
  obtain ⟨q, waiting, rfl⟩ :=
    List.mem_map.mp ((placementOrder_perm graph.keys).mem_iff.mpr member)
  have listed : q.block.key ∈ p.keys := by
    rw [keys]
    simpa using ⟨q, waiting, rfl⟩
  rw [if_pos listed]

/-- In a layout, a branch that notes a label has it right behind it. -/
theorem FlowGraph.noted_label (graph : FlowGraph endLabel entries blocks)
    (distinct : (blocks.flatMap Block.code).Nodup)
    (start : Marked (placementOrder blocks) entries) {p : Placed}
    (placed : Placed.addAll { entries } (placementOrder blocks) = (.ok (), p))
    {before after : List Nat} {condition : Operand} {ifTrue ifFalse : Bytes}
    (split : p.code = before ++ i :: after)
    (branch : p.entries[i]?.map Entry.instr = some (.branch condition ifTrue ifFalse name))
    (noted : name ≠ []) : (name = ifTrue ∨ name = ifFalse) ∧
      ∃ first, after.head? = some first ∧
        lineAt? p.entries first = some ⟨first, .label name⟩ := by
  obtain ⟨lines, code⟩ := addAll_ok placed
  rw [List.nil_append] at code
  have marked := start.addAll (p := { entries })
  rw [placed] at marked
  obtain ⟨q, waiting, ends, next, into, rfl⟩ :=
    marked i condition ifTrue ifFalse name branch noted
  obtain ⟨second, leads⟩ := mem_placementOrder_next waiting into
  have inside : ∀ q ∈ placementOrder blocks, q.block ∈ blocks :=
    fun q waiting => mem_of_mem_placementOrder graph.keys waiting
  have line : lineAt? entries i = some ⟨i, .branch condition ifTrue ifFalse []⟩ := by
    obtain ⟨e, there, instr⟩ := Option.map_eq_some_iff.mp branch
    rw [← lines i, lineAt?, there, Option.map_some, instr]
    rfl
  have other : lastControl? entries q.block ≠ some (.jump next.label) := by
    simp [lastControl?, ends, line, Instr.control]
  obtain ⟨first, head, label⟩ := graph.followed (nodup_flatMap_trimmed graph.keys distinct _)
    (chained_placementOrder blocks) inside waiting ends into other (code.symm.trans split)
  exact ⟨graph.branch_label (inside q waiting) second leads ends line, first, head,
    (lines first).trans label⟩

end Layout

/-- The blocks of an emitted function, after any number of merges, are all laid out, each one once
and shortened by nothing but a jump to what comes next, and a branch that notes a label runs into
it. -/
theorem placeBlocks_complete {options : Select.Options} {f : Func} {r : Routine} {labels : Nat}
    {t v : State} (generated : Select.generateFunc options f = .ok r)
    (made : run formBlocks ⟨labels, r⟩ = (.ok (), t))
    (same : ∀ i, v.routine.instr? i = t.routine.instr? i) (n : Nat)
    (merged : v.routine.blocks = mergeUpTo n t.routine.blocks) :
    ∃ u, run placeBlocks v = (.ok (), u) ∧ SameLines v.routine.entries u.routine.entries ∧
      u.routine.blocks = v.routine.blocks.map ({ · with state := .placed }) ∧
      (∃ order, order.Perm u.routine.blocks ∧ LaidOut u.routine order u.routine.code) ∧
      ∀ before i after condition ifTrue ifFalse name, u.routine.code = before ++ i :: after →
        u.routine.instr? i = some (.branch condition ifTrue ifFalse name) → name ≠ [] →
          (name = ifTrue ∨ name = ifFalse) ∧
            ∃ first, after.head? = some first ∧ u.routine.instr? first = some (.label name) := by
  have graph : FlowGraph r.endLabel v.routine.entries v.routine.blocks :=
    merged ▸ ((flowGraph_of_run made).after_mergeUpTo n).of_instrs same
  obtain ⟨parts, chains⟩ := (flowGraph_of_run made).wired.mergeUpTo_chains n
  have distinct : (v.routine.blocks.flatMap Block.code).Nodup := by
    rw [merged, chains.code_perm.nodup_iff]
    exact (formed_of_run made).nodup_positions (Select.generateFunc_code generated)
  have start : Marked (placementOrder v.routine.blocks) v.routine.entries := by
    have unmarked := unmarked_of_run made (Select.generateFunc_unmarked generated)
    exact fun i _ _ _ _ branch =>
      marked_of_unmarked unmarked i _ _ _ _ ((same i).symm.trans branch)
  obtain ⟨p, placed, marks⟩ := graph.placed_all
  obtain ⟨lines, code⟩ := addAll_ok placed
  refine ⟨_, run_placeBlocks placed, lines, marks,
    ⟨(placementOrder v.routine.blocks).map fun q => { q.block with state := .placed }, ?_, ?_⟩, ?_⟩
  · have laid := (placementOrder_perm graph.keys).map ({ · with state := .placed })
    rw [List.map_map] at laid
    exact marks ▸ laid
  · dsimp only
    rw [code, List.nil_append]
    exact graph.laidOut lines (chained_placementOrder _)
      fun q waiting => mem_of_mem_placementOrder graph.keys waiting
  · intro before i after condition ifTrue ifFalse name split branch noted
    obtain ⟨goes, first, head, label⟩ :=
      graph.noted_label distinct start placed split branch noted
    exact ⟨goes, first, head, instr?_of_line rfl label⟩

/-- A branch whose first way leads past a block that its other way and a later jump lead to, and
that runs into the one that was skipped to. -/
def detouring : Func :=
  { name := ascii "f"
    body := [.branch (.const 1) (ascii "C") (ascii "B"), .label (ascii "B"), .ret .missing,
      .label (ascii "C"), .jump (ascii "D"), .label (ascii "D"), .jump (ascii "B")] }

def detouringRoutine : Routine :=
  Select.routine detouring { code :=
    #[.branch (.imm 1) (ascii "C") (ascii "B") [], .label (ascii "B"), .ret .absent,
      .label (ascii "C"), .jump (ascii "D"), .label (ascii "D"), .jump (ascii "B")] }

def detouringMerged : State :=
  let t := (run formBlocks ⟨0, detouringRoutine⟩).2
  { t with routine := { t.routine with blocks := mergeUpTo 1 t.routine.blocks } }

theorem placeBlocks_complete_detouring :
    Select.generateFunc {} detouring = .ok detouringRoutine ∧
    detouringMerged.routine.blocks.map Block.code = [[7, 0], [1, 2, 8], [3, 4, 5, 6]] ∧
    ∃ u, run placeBlocks detouringMerged = (.ok (), u) ∧ u.routine.code = [7, 0, 3, 4, 5, 1, 2, 8] ∧
      (∃ order, order.Perm u.routine.blocks ∧ LaidOut u.routine order u.routine.code) ∧
      u.routine.instr? 0 = some (.branch (.imm 1) (ascii "C") (ascii "B") (ascii "C")) ∧
      u.routine.instr? 3 = some (.label (ascii "C")) := by
  have generated : Select.generateFunc {} detouring = .ok detouringRoutine := by cbv
  have made : run formBlocks ⟨0, detouringRoutine⟩ =
    (.ok (), (run formBlocks ⟨0, detouringRoutine⟩).2) := Prod.ext (by cbv) rfl
  have code : (run placeBlocks detouringMerged).2.routine.code = [7, 0, 3, 4, 5, 1, 2, 8] := by cbv
  have branch : (run placeBlocks detouringMerged).2.routine.instr? 0 =
    some (.branch (.imm 1) (ascii "C") (ascii "B") (ascii "C")) := by cbv
  obtain ⟨u, placing, _, _, laidOut, runsInto⟩ :=
    placeBlocks_complete (v := detouringMerged) generated made (fun _ => rfl) 1 rfl
  rw [placing] at code branch
  obtain ⟨_, first, head, label⟩ :=
    runsInto [7] 0 [3, 4, 5, 1, 2, 8] _ _ _ _ code branch (by decide)
  cases head
  exact ⟨generated, by cbv, u, placing, code, laidOut, branch, label⟩

end Codegen.Flow
