import Codegen.Proofs.Flow.Graph
import Codegen.Proofs.Flow.Layout

/-! Every reference of a routine leads to something, from the code that is selected up to the code
that is laid out. So no pass comes to an instruction or a block that is not there, and the only
faults that are left are those of labels. -/
namespace Codegen

def EdgesInside (entries : Array Entry) : Prop :=
  ∀ (k : Nat) (e : Entry), entries[k]? = some e → ∀ i ∈ e.pred ++ e.succ, i < entries.size

/-- A routine whose instructions and blocks refer to none but its own, and whose blocks are not
empty. -/
structure Routine.SelfContained (r : Routine) : Prop where
  code : ∀ i ∈ r.code, i < r.entries.size
  edges : EdgesInside r.entries
  blocks : ∀ b ∈ r.blocks, b.code ≠ [] ∧ ∀ i ∈ b.code, i < r.entries.size
  links : ∀ b ∈ r.blocks, ∀ key ∈ b.pred ++ b.succ, key ∈ r.blocks.map Block.key

theorem Routine.SelfContained.present {r : Routine} (contained : r.SelfContained) :
    ∀ i ∈ r.code, ∃ e, r.entries[i]? = some e :=
  fun i member => ⟨_, Array.getElem?_eq_getElem (contained.code i member)⟩

inductive LabelCause : Cause → Prop
  | duplicate (label : Bytes) : LabelCause (.duplicateLabel label)
  | undefined (label : Bytes) : LabelCause (.undefinedLabel label)

theorem LabelCause.ne_emptyBlock {cause : Cause} (known : LabelCause cause) (label : Bytes) :
    cause ≠ .emptyBlock label := by
  cases known <;> simp

namespace Flow

section Forming

variable {c : Cut} {code : List Nat} {s t : State}

theorem edgesInside_push {entries : Array Entry} (inside : EdgesInside entries) (x : Instr) :
    EdgesInside (entries.push ⟨x, [], []⟩) := by
  intro k e found i leads
  rw [Array.size_push]
  rw [Array.getElem?_push] at found
  split at found
  · cases found
    contradiction
  · exact (inside k e found i leads).trans (Nat.lt_succ_self _)

theorem edgesInside_place (i : Nat) (x : Instr) (inside : EdgesInside c.entries) :
    EdgesInside (c.place i x).entries :=
  Cut.entries_place (fun _ _ inside => edgesInside_push inside _)
    (fun _ _ inside => edgesInside_push inside _) inside

/-- Code whose instructions are there is cut to its end. -/
theorem placeAll_complete (found : ∀ i ∈ code, ∃ e, c.entries[i]? = some e)
    (inside : EdgesInside c.entries) :
    ∃ c', c.placeAll code = (true, c') ∧ EdgesInside c'.entries := by
  induction code generalizing c with
  | nil => exact ⟨c, rfl, inside⟩
  | cons i code ih =>
    obtain ⟨⟨e, first⟩, others⟩ := List.forall_mem_cons.mp found
    have later : ∀ j ∈ code, ∃ e', (c.place i e.instr).entries[j]? = some e' := by
      intro j member
      obtain ⟨e', there⟩ := others j member
      exact ⟨e', c.keeps_place i e.instr j e' there⟩
    obtain ⟨c', placed, inside'⟩ := ih later (edgesInside_place i e.instr inside)
    exact ⟨c', by simpa only [Cut.placeAll, first] using placed, inside'⟩

theorem successors_error {endLabel : Bytes} {blocks : List Block} {b : Block} {cause : Cause}
    (failed : successors endLabel blocks b = .error cause) : LabelCause cause := by
  obtain ⟨label, _, fails⟩ := mapM_error failed
  split at fails
  · contradiction
  · cases fails
    exact .undefined label

/-- Blocks can be linked unless there is a fault of labels. -/
theorem linked_error {endLabel : Bytes} {blocks : List Block} {cause : Cause}
    (failed : linked endLabel blocks = .error cause) : LabelCause cause := by
  unfold linked at failed
  cases repeated : duplicate? [] (blocks.map Block.label) with
  | some label =>
    simp only [repeated] at failed
    cases failed
    exact .duplicate label
  | none =>
    simp only [repeated] at failed
    rcases bind_error failed with mapped | ⟨linked, _, failed⟩
    · obtain ⟨b, _, fails⟩ := mapM_error mapped
      rcases bind_error fails with fails | ⟨succ, _, fails⟩
      · exact successors_error fails
      · contradiction
    · contradiction

/-- Blocks are formed of code whose instructions are there, unless there is a fault of labels. -/
theorem formBlocks_outcome (contained : s.routine.SelfContained) :
    (∃ t, run formBlocks s = (.ok (), t) ∧ EdgesInside t.routine.entries) ∨
      ∃ cause t, run formBlocks s = (.error (.fault ⟨[], cause⟩), t) ∧ LabelCause cause := by
  have found : ∀ i ∈ s.routine.code, ∃ e, s.uncut.entries[i]? = some e := contained.present
  obtain ⟨c, placed, inside⟩ := placeAll_complete found contained.edges
  have formed := run_formBlocks s
  cases joined : linked s.routine.endLabel (c.blocks s.routine.endLabel) with
  | ok blocks =>
    simp only [placed, joined, if_true] at formed
    exact .inl ⟨_, formed, inside⟩
  | error cause =>
    simp only [placed, joined, if_true] at formed
    exact .inr ⟨cause, _, formed, linked_error joined⟩

end Forming

section Linking

variable {endLabel : Bytes} {entries : Array Entry} {r : Routine} {i j : Nat}

theorem edgesInside_modify {f : Entry → Entry} (inside : EdgesInside entries)
    (leads : ∀ e, ∀ k ∈ (f e).pred ++ (f e).succ, k ∈ e.pred ++ e.succ ∨ k < entries.size) :
    EdgesInside (entries.modify i f) := by
  intro k e found l member
  rw [Array.size_modify]
  rw [Array.getElem?_modify] at found
  split at found
  · obtain ⟨old, there, rfl⟩ := Option.map_eq_some_iff.mp found
    exact (leads old l member).elim (inside k old there l) id
  · exact inside k e found l member

theorem addEdge?_inside (inside : EdgesInside entries) (first : i < entries.size)
    (second : j < entries.size) : ∃ more, addEdge? entries i j = some more ∧
      more.size = entries.size ∧ EdgesInside more := by
  refine ⟨_, if_pos ⟨first, second⟩, by simp, ?_⟩
  apply edgesInside_modify
  · apply edgesInside_modify inside
    intro e k member
    simp only [List.mem_append, List.mem_singleton] at member ⊢
    grind
  · intro e k member
    rw [Array.size_modify]
    simp only [List.mem_append, List.mem_singleton] at member ⊢
    grind

theorem addEdges_inside {edges : List (Option (Nat × Nat))} (inside : EdgesInside entries)
    (ends : ∀ edge ∈ edges, ∃ i j, edge = some (i, j) ∧ i < entries.size ∧ j < entries.size) :
    ∃ more, addEdges entries edges = (true, more) ∧ more.size = entries.size ∧
      EdgesInside more := by
  induction edges generalizing entries with
  | nil => exact ⟨entries, rfl, rfl, inside⟩
  | cons edge edges ih =>
    obtain ⟨⟨i, j, rfl, first, second⟩, others⟩ := List.forall_mem_cons.mp ends
    obtain ⟨middle, added, size, inside'⟩ := addEdge?_inside inside first second
    obtain ⟨more, done, size', inside''⟩ := ih inside' (size ▸ others)
    exact ⟨more, by simpa only [addEdges, added] using done, size'.trans size, inside''⟩

/-- The ends of the edges of a flow graph are instructions of its blocks. -/
theorem FlowGraph.edges_inside (graph : FlowGraph endLabel r.entries r.blocks)
    (inside : ∀ b ∈ r.blocks, ∀ i ∈ b.code, i < r.entries.size) :
    ∀ edge ∈ edges r, ∃ i j, edge = some (i, j) ∧ i < r.entries.size ∧ j < r.entries.size := by
  intro edge listed
  -- An edge stays inside one block, or it leads from the end of a block to the start of another.
  rcases List.mem_append.mp listed with inner | outer
  · obtain ⟨b, member, inner⟩ := List.mem_flatMap.mp inner
    obtain ⟨⟨i, j⟩, pair, rfl⟩ := List.mem_map.mp inner
    obtain ⟨first, second⟩ := List.of_mem_zip pair
    exact ⟨i, j, rfl, inside b member i first, inside b member j (List.mem_of_mem_tail second)⟩
  · obtain ⟨b, member, outer⟩ := List.mem_flatMap.mp outer
    obtain ⟨last, ends, _⟩ := graph.last b member
    rw [Option.mem_def] at ends
    simp only [outerEdges, Block.last?, ends] at outer
    obtain ⟨key, leads, rfl⟩ := List.mem_map.mp outer
    obtain ⟨next, there, rfl⟩ := List.mem_map.mp (graph.succ b member key leads)
    obtain ⟨first, head, _⟩ := graph.first next there
    rw [Option.mem_def] at head
    have found : r.block? next.key = some next := graph.wired.find?_key there
    refine ⟨last, first, by simp [found, head], ?_, ?_⟩
    · exact inside b member last (List.mem_of_getLast? ends)
    · exact inside next there first (List.mem_of_head? head)

end Linking

section Merging

variable {endLabel : Bytes} {entries : Array Entry} {blocks : List Block}

theorem FlowGraph.after_mergeAll (graph : FlowGraph endLabel entries blocks) :
    FlowGraph endLabel entries (mergeAll blocks).2 :=
  mergeUpTo_count blocks ▸ graph.after_mergeUpTo _

/-- A merged block has no other instructions than the blocks that there were. -/
theorem Wired.mergeAll_inside {n : Nat} (wired : Wired blocks)
    (inside : ∀ b ∈ blocks, ∀ i ∈ b.code, i < n) :
    ∀ b ∈ (mergeAll blocks).2, ∀ i ∈ b.code, i < n := by
  refine (wired.mergeAll_induction
    (P := fun blocks => ∀ b ∈ blocks, ∀ i ∈ b.code, i < n) inside ?_).2
  intro blocks b next _ found inside x member i listed
  obtain ⟨x, before, _, rfl⟩ := mem_absorb.mp member
  rw [merged_code] at listed
  split at listed
  · rcases List.mem_append.mp listed with own | taken
    · exact inside x before i own
    · exact inside next (pair_of_mergePair? found).second i taken
  · exact inside x before i listed

end Merging

section Placing

variable {p : Placed} {b : Block}

theorem edgesInside_of_links {entries more : Array Entry} (same : links more = links entries)
    (inside : EdgesInside entries) : EdgesInside more := by
  intro k e found i leads
  have there := congrArg (·[k]?) same
  simp only [links, Array.getElem?_map, found, Option.map_some] at there
  obtain ⟨old, found, equal⟩ := Option.map_eq_some_iff.mp there.symm
  obtain ⟨pred, succ⟩ := Prod.mk.inj equal
  rw [← pred, ← succ] at leads
  exact size_of_links same ▸ inside k old found i leads

/-- A block whose last instruction is there can be placed. -/
theorem add_done {last : Nat} (ends : b.last? = some last) (there : last < p.entries.size)
    (next : Option Block) : ∃ p', p.add b next = (.ok (), p') ∧ p'.keys = b.key :: p.keys := by
  unfold Placed.add
  simp only [ends]
  cases next with
  | none => exact ⟨_, rfl, rfl⟩
  | some next =>
    simp only [Array.getElem?_eq_getElem there, Option.map_some]
    cases p.entries[last].instr with
    | jump target =>
      dsimp only
      split
      · exact ⟨_, rfl, rfl⟩
      · exact ⟨_, rfl, rfl⟩
    | _ => exact ⟨_, rfl, rfl⟩

theorem addAll_done {placed : List Placement}
    (ends : ∀ q ∈ placed, ∃ last ∈ q.block.last?, last < p.entries.size) :
    ∃ p', p.addAll placed = (.ok (), p') ∧
      p'.keys = (placed.map fun q => q.block.key).reverse ++ p.keys := by
  induction placed generalizing p with
  | nil => exact ⟨p, rfl, rfl⟩
  | cons placement placed ih =>
    obtain ⟨⟨last, first, there⟩, others⟩ := List.forall_mem_cons.mp ends
    obtain ⟨middle, added, keys⟩ := add_done first there placement.next
    have kept := links_add p placement.block placement.next
    rw [added] at kept
    obtain ⟨p', done, keys'⟩ := ih (size_of_links kept ▸ others)
    exact ⟨p', by simpa only [Placed.addAll, added] using done, by simp [keys', keys]⟩

theorem mem_trimmed {entries : Array Entry} {q : Placement} {i : Nat}
    (listed : i ∈ trimmed entries q) : i ∈ q.block.code := by
  obtain ⟨b, next⟩ := q
  cases next with
  | none => exact listed
  | some next =>
    simp only [trimmed] at listed
    split at listed
    · exact List.mem_of_mem_dropLast listed
    · exact listed

end Placing

section Arranging

variable {s t : State}

theorem Formed.code_inside (formed : Formed s t) {b : Block} (member : b ∈ t.routine.blocks) :
    ∀ i ∈ b.code, i < t.routine.entries.size := by
  intro i listed
  obtain ⟨line, found⟩ := formed.present member i listed
  obtain ⟨e, there, _⟩ := Option.map_eq_some_iff.mp found
  exact (Array.getElem?_eq_some_iff.mp there).1

theorem FlowGraph.last_inside {endLabel : Bytes} {entries : Array Entry} {blocks : List Block}
    (graph : FlowGraph endLabel entries blocks) {b : Block} (member : b ∈ blocks) :
    ∃ last ∈ b.last?, last < entries.size := by
  obtain ⟨last, ends, e, there, _⟩ := graph.last b member
  exact ⟨last, ends, (Array.getElem?_eq_some_iff.mp there).1⟩

theorem markPlaced_keys (keys : List Nat) (blocks : List Block) :
    (markPlaced keys blocks).map Block.key = blocks.map Block.key := by
  simp [markPlaced, Function.comp_def]

theorem find?_markPlaced_label (keys : List Nat) (blocks : List Block) (key : Nat) :
    (find? (markPlaced keys blocks) key).map Block.label = (find? blocks key).map Block.label := by
  simp [find?, markPlaced, List.find?_map, Function.comp_def]

/-- A flow graph does not see the state of its blocks. -/
theorem FlowGraph.after_markPlaced {endLabel : Bytes} {entries : Array Entry} {blocks : List Block}
    (graph : FlowGraph endLabel entries blocks) (keys : List Nat) :
    FlowGraph endLabel entries (markPlaced keys blocks) where
  keys := by simpa [markPlaced, Function.comp_def] using graph.keys
  labels := by simpa [markPlaced, Function.comp_def] using graph.labels
  ids := by simpa [markPlaced, List.pairwise_map] using graph.ids
  first := List.forall_mem_map.mpr graph.first
  succ := by
    rw [markPlaced_keys]
    exact List.forall_mem_map.mpr graph.succ
  pred := by
    rw [markPlaced_keys]
    exact List.forall_mem_map.mpr graph.pred
  ways := List.forall_mem_map.mpr fun b first => List.forall_mem_map.mpr (graph.ways b first)
  names := by
    refine List.forall_mem_map.mpr fun b member => ?_
    simpa only [find?_markPlaced_label] using graph.names b member
  last := List.forall_mem_map.mpr graph.last

/-- The blocks of a flow graph refer to each other. -/
theorem FlowGraph.selfContained {endLabel : Bytes} {entries : Array Entry} {r : Routine}
    (graph : FlowGraph endLabel entries r.blocks) (code : ∀ i ∈ r.code, i < r.entries.size)
    (edges : EdgesInside r.entries)
    (inside : ∀ b ∈ r.blocks, ∀ i ∈ b.code, i < r.entries.size) : r.SelfContained where
  code := code
  edges := edges
  blocks := by
    intro b member
    obtain ⟨i, head, _⟩ := graph.first b member
    refine ⟨?_, inside b member⟩
    intro empty
    simp [empty] at head
  links := by
    intro b member key listed
    rcases List.mem_append.mp listed with earlier | later
    · exact graph.pred b member key earlier
    · exact graph.succ b member key later

/-- A layout consists of instructions of its blocks. -/
theorem FlowGraph.laidOut_inside {endLabel : Bytes} {entries entries' : Array Entry} {p : Placed}
    {blocks : List Block} {n : Nat} (graph : FlowGraph endLabel entries blocks)
    (codes : ∀ b ∈ blocks, ∀ i ∈ b.code, i < n)
    (placed : Placed.addAll { entries := entries' } (placementOrder blocks) = (.ok (), p)) :
    ∀ i ∈ p.code, i < n := by
  intro i listed
  rw [(addAll_ok placed).2] at listed
  obtain ⟨q, waiting, kept⟩ := List.mem_flatMap.mp listed
  exact codes q.block (mem_of_mem_placementOrder graph.keys waiting) i (mem_trimmed kept)

/-- A layout refers to nothing but what its merged blocks do. -/
theorem selfContained_laidOut {entries : Array Entry} {p : Placed} {merged : List Block}
    (graph : FlowGraph s.routine.endLabel t.routine.entries merged)
    (codes : ∀ b ∈ merged, ∀ i ∈ b.code, i < p.entries.size) (inside : EdgesInside p.entries)
    (placed : Placed.addAll { entries } (placementOrder merged) = (.ok (), p)) :
    ({ t.routine with
      entries := p.entries, code := p.code, blocks := markPlaced p.keys merged } :
        Routine).SelfContained :=
  (graph.after_markPlaced p.keys).selfContained (graph.laidOut_inside codes placed) inside
    (List.forall_mem_map.mpr codes)

/-- Blocks that have been formed can be linked, merged and laid out. -/
theorem arrange_of_formed (made : run formBlocks s = (.ok (), t))
    (inside : EdgesInside t.routine.entries) :
    ∃ u, run arrange s = (.ok (), u) ∧ u.routine.SelfContained := by
  have formed := formed_of_run made
  have graph := flowGraph_of_run made
  have merged := graph.after_mergeAll
  have codes := formed.wired.mergeAll_inside fun b member => formed.code_inside member
  -- Edges and marks change no size, so that the positions of the blocks stay inside.
  obtain ⟨entries, added, size, inside⟩ := addEdges_inside inside
    (graph.edges_inside fun b member => formed.code_inside member)
  have ends : ∀ q ∈ placementOrder (mergeAll t.routine.blocks).2,
      ∃ last ∈ q.block.last?, last < entries.size :=
    fun q waiting => size ▸ merged.last_inside (mem_of_mem_placementOrder merged.keys waiting)
  obtain ⟨p, placed, _⟩ := addAll_done (p := { entries }) ends
  have kept := links_addAll { entries } (placementOrder (mergeAll t.routine.blocks).2)
  rw [placed] at kept
  refine ⟨_, run_arrange made added placed,
    selfContained_laidOut merged ?_ (edgesInside_of_links kept inside) placed⟩
  exact (size_of_links kept).trans size ▸ codes

/-- A routine whose references lead to something is arranged, and they still do, unless there is a
fault of its labels. -/
theorem arrange_outcome (contained : s.routine.SelfContained) :
    (∃ t, run arrange s = (.ok (), t) ∧ t.routine.SelfContained) ∨
      ∃ cause t, run arrange s = (.error (.fault ⟨[.blocks], cause⟩), t) ∧ LabelCause cause := by
  rcases formBlocks_outcome contained with ⟨t, made, inside⟩ | ⟨cause, t, fails, known⟩
  · exact .inl (arrange_of_formed made inside)
  · refine .inr ⟨cause, t, ?_, known⟩
    simp only [arrange, run_bind, run_within, fails, Except.mapError, Failure.inside, Fault.inside]

theorem arrangeAll_outcome (labels : Nat) {rs : List Routine}
    (contained : ∀ r ∈ rs, r.SelfContained) :
    ((arrangeAll labels rs).1 = .ok () ∧ ∀ r ∈ (arrangeAll labels rs).2.2, r.SelfContained) ∨
      ∃ f, (arrangeAll labels rs).1 = .error (.fault f) ∧ LabelCause f.cause := by
  induction rs generalizing labels with
  | nil => exact .inl ⟨rfl, by simp [arrangeAll]⟩
  | cons r rs ih =>
    obtain ⟨first, others⟩ := List.forall_mem_cons.mp contained
    unfold arrangeAll
    split
    · rcases ih labels others with ⟨done, arranged⟩ | faults
      · exact .inl ⟨done, List.forall_mem_cons.mpr ⟨first, arranged⟩⟩
      · exact .inr faults
    · rcases arrange_outcome (s := ⟨labels, r⟩) first with
        ⟨t, done, first'⟩ | ⟨cause, t, fails, known⟩
      · rw [done]
        rcases ih t.labels others with ⟨done', arranged⟩ | faults
        · exact .inl ⟨done', List.forall_mem_cons.mpr ⟨first', arranged⟩⟩
        · exact .inr faults
      · rw [fails]
        exact .inr ⟨_, rfl, known⟩

end Arranging

end Flow

end Codegen
