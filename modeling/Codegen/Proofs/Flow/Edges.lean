import Codegen.Proofs.Flow.References
import Codegen.Proofs.Select.Gen

/-! Edges between instructions. Once blocks are formed and their instructions linked, there is an
edge for two neighbours in a block, for a link between two blocks, and for nothing else. So a jump
has an edge to the label that it goes to, unless that label has the name that stands for the end of
the function. -/
namespace Codegen.Flow

def linksAt (side : Entry → List Nat) (entries : Array Entry) (i : Nat) : List Nat :=
  (entries[i]?.map side).getD []

section Adding

variable {entries more : Array Entry} {side : Entry → List Nat} {f : Entry → Entry} {i j : Nat}

theorem linksAt_modify_other (other : ∀ e, side (f e) = side e) (i k : Nat) :
    linksAt side (entries.modify i f) k = linksAt side entries k := by
  have same : side ∘ f = side := funext other
  simp only [linksAt, Array.getElem?_modify]
  split <;> simp [same]

theorem linksAt_modify_one (bound : i < entries.size) (one : ∀ e, side (f e) = side e ++ [j])
    (k : Nat) : linksAt side (entries.modify i f) k =
      linksAt side entries k ++ if i = k then [j] else [] := by
  simp only [linksAt, Array.getElem?_modify]
  split
  next here =>
    subst here
    simp [Array.getElem?_eq_getElem bound, one]
  next => simp

/-- An edge that is added is one more at both its ends. -/
theorem addEdge?_counts (added : addEdge? entries i j = some more) (k l : Nat) :
    (linksAt Entry.succ more k).count l =
        (linksAt Entry.succ entries k).count l + [(i, j)].count (k, l) ∧
      (linksAt Entry.pred more l).count k =
        (linksAt Entry.pred entries l).count k + [(i, j)].count (k, l) := by
  unfold addEdge? at added
  split at added
  next ends =>
    cases added
    have bound : j < (entries.modify i fun e => { e with succ := e.succ ++ [j] }).size := by
      simpa using ends.2
    constructor
    · rw [linksAt_modify_other, linksAt_modify_one ends.1 fun _ => rfl, List.count_append]
      · by_cases source : i = k <;> simp [source, List.count_singleton]
      · exact fun _ => rfl
    · rw [linksAt_modify_one bound fun _ => rfl, linksAt_modify_other, List.count_append]
      · by_cases target : j = l <;> simp [target, List.count_singleton]
      · exact fun _ => rfl
  next => contradiction

theorem addEdges_counts {edges : List (Option (Nat × Nat))}
    (added : addEdges entries edges = (true, more)) (k l : Nat) :
    (linksAt Entry.succ more k).count l =
        (linksAt Entry.succ entries k).count l + edges.count (some (k, l)) ∧
      (linksAt Entry.pred more l).count k =
        (linksAt Entry.pred entries l).count k + edges.count (some (k, l)) := by
  induction edges generalizing entries with
  | nil =>
    cases added
    simp
  | cons edge edges ih =>
    cases edge with
    | none => simp [addEdges] at added
    | some edge =>
      simp only [addEdges] at added
      split at added
      next => simp at added
      next middle first =>
        obtain ⟨succ, pred⟩ := addEdge?_counts first k l
        obtain ⟨succ', pred'⟩ := ih added
        have single : [edge].count (k, l) = [some edge].count (some (k, l)) := by
          simp [List.count_singleton]
        rw [← List.singleton_append, List.count_append, ← single]
        constructor
        · rw [succ', succ, Nat.add_assoc]
        · rw [pred', pred, Nat.add_assoc]

end Adding

section Forming

variable {s t : State}

def Unlinked (entries : Array Entry) : Prop :=
  ∀ (i : Nat) (e : Entry), entries[i]? = some e → e.pred = [] ∧ e.succ = []

theorem Unlinked.push {entries : Array Entry} (unlinked : Unlinked entries) (x : Instr) :
    Unlinked (entries.push ⟨x, [], []⟩) := by
  intro i e found
  rw [Array.getElem?_push] at found
  split at found
  · cases found
    exact ⟨rfl, rfl⟩
  · exact unlinked i e found

theorem unlinked_of_run (made : run formBlocks s = (.ok (), t))
    (unlinked : Unlinked s.routine.entries) : Unlinked t.routine.entries := by
  obtain ⟨c, blocks, placed, _, rfl⟩ := formBlocks_ok made
  exact Cut.entries_placeAll (fun _ _ unlinked => unlinked.push _)
    (fun _ _ unlinked => unlinked.push _) unlinked placed

theorem unlinked_generateFunc {options : Select.Options} {f : Func} {r : Routine}
    (generated : Select.generateFunc options f = .ok r) : Unlinked r.entries := by
  intro i e found
  rcases Select.generateFunc_ok generated with ⟨_, _, rfl⟩ | ⟨s, _, rfl⟩
  · simp [Select.routine] at found
  · simp only [Select.routine, Array.getElem?_map, Option.map_eq_some_iff] at found
    obtain ⟨x, _, rfl⟩ := found
    exact ⟨rfl, rfl⟩

theorem Unlinked.linksAt {entries : Array Entry} (unlinked : Unlinked entries) (i : Nat) :
    linksAt Entry.succ entries i = [] ∧ linksAt Entry.pred entries i = [] := by
  unfold Flow.linksAt
  cases found : entries[i]? with
  | none => exact ⟨rfl, rfl⟩
  | some e => exact (unlinked i e found).symm

end Forming

section Blocks

variable {endLabel : Bytes} {r : Routine} {b c : Block} {blocks : List Block} {last head i : Nat}

theorem eq_of_shared (distinct : (blocks.flatMap Block.code).Nodup) (first : b ∈ blocks)
    (second : c ∈ blocks) (inFirst : i ∈ b.code) (inSecond : i ∈ c.code) : b = c := by
  by_contra apart
  have disjoint := (List.nodup_flatMap.mp distinct).2
  have symmetric : Std.Symm (Function.onFun List.Disjoint Block.code) :=
    ⟨fun _ _ disjoint => disjoint.symm⟩
  exact disjoint.forall first second apart inFirst inSecond

/-- A block leads to the blocks of the labels that it goes to, other than the end label. -/
theorem FlowGraph.succ_iff {entries : Array Entry} (graph : FlowGraph endLabel entries blocks)
    (first : b ∈ blocks) (second : c ∈ blocks) :
    c.key ∈ b.succ ↔ c.label ∈ b.jumpTo ∧ c.label ≠ endLabel := by
  have names := graph.names b first
  have kept : c.label ∈ b.jumpTo.filter (· != endLabel) ↔
      c.label ∈ b.jumpTo ∧ c.label ≠ endLabel := by simp
  rw [← kept]
  constructor
  · intro leads
    have listed := List.mem_map_of_mem
      (f := fun key => (find? blocks key).map Block.label) leads
    rw [names, graph.wired.find?_key second] at listed
    simpa using listed
  · intro goes
    have listed := List.mem_map_of_mem (f := some) goes
    rw [← names, List.mem_map] at listed
    obtain ⟨key, leads, found⟩ := listed
    obtain ⟨d, found, same⟩ := Option.map_eq_some_iff.mp found
    have member := List.mem_of_find?_eq_some found
    have there : d.key = key := eq_of_beq (List.find?_some found :)
    obtain rfl := List.inj_on_of_nodup_map graph.labels member second same
    exact there ▸ leads

theorem FlowGraph.pred_iff {entries : Array Entry} (graph : FlowGraph endLabel entries blocks)
    (first : b ∈ blocks) (second : c ∈ blocks) : b.key ∈ c.pred ↔ c.key ∈ b.succ := by
  rw [← List.count_pos_iff, ← graph.ways b first c second, List.count_pos_iff]

/-- The last instruction of a block has an edge to the first one of a block exactly if the one
block leads to the other. -/
theorem FlowGraph.edge_iff (graph : FlowGraph endLabel r.entries r.blocks)
    (distinct : (r.blocks.flatMap Block.code).Nodup) (first : b ∈ r.blocks) (second : c ∈ r.blocks)
    (ends : b.last? = some last) (starts : c.code.head? = some head) :
    some (last, head) ∈ edges r ↔ c.key ∈ b.succ := by
  constructor
  · intro listed
    rcases List.mem_append.mp listed with inner | outer
    · -- An instruction that has another one of its block before it is no first one.
      obtain ⟨d, member, inner⟩ := List.mem_flatMap.mp inner
      obtain ⟨pair, zipped, same⟩ := List.mem_map.mp inner
      cases same
      have later := (List.of_mem_zip zipped).2
      obtain rfl := eq_of_shared distinct member second (List.mem_of_mem_tail later)
        (List.mem_of_head? starts)
      obtain ⟨rest, split⟩ := List.head?_eq_some_iff.mp starts
      have alone := (List.nodup_flatMap.mp distinct).1 d member
      rw [split] at later alone
      exact absurd later (List.nodup_cons.mp alone).1
    · obtain ⟨d, member, outer⟩ := List.mem_flatMap.mp outer
      obtain ⟨final, there, _⟩ := graph.last d member
      rw [Option.mem_def] at there
      simp only [outerEdges, Block.last?, there] at outer
      obtain ⟨key, leads, edge⟩ := List.mem_map.mp outer
      obtain ⟨next, inside, rfl⟩ := List.mem_map.mp (graph.succ d member key leads)
      obtain ⟨start, atStart, _⟩ := graph.first next inside
      have found : r.block? next.key = some next := graph.wired.find?_key inside
      rw [Option.mem_def] at atStart
      simp only [found, atStart, Option.bind_eq_bind, Option.bind_some, Option.pure_def,
        Option.some.injEq, Prod.mk.injEq] at edge
      obtain ⟨rfl, rfl⟩ := edge
      obtain rfl := eq_of_shared distinct member first (List.mem_of_getLast? there)
        (List.mem_of_getLast? ends)
      obtain rfl := eq_of_shared distinct inside second (List.mem_of_head? atStart)
        (List.mem_of_head? starts)
      exact leads
  · intro leads
    have found : r.block? c.key = some c := graph.wired.find?_key second
    refine List.mem_append_right _ (List.mem_flatMap.mpr ⟨b, first, ?_⟩)
    simp only [outerEdges, ends]
    exact List.mem_map.mpr ⟨c.key, leads, by simp [found, starts]⟩

end Blocks

section Jumps

variable {s t : State} {b c : Block} {last head : Nat} {x : Instr} {name : Bytes}

/-- A label of the code is the first instruction of the block of its name. -/
theorem Formed.block_of_label (formed : Formed s t) (listed : head ∈ s.routine.code)
    (label : s.routine.instr? head = some (.label name)) :
    ∃ c ∈ t.routine.blocks, c.code.head? = some head ∧ c.label = name := by
  obtain ⟨e, there, instr⟩ := Option.map_eq_some_iff.mp label
  have found : lineAt? t.routine.entries head = some ⟨head, .label name⟩ := by
    simpa [instr, Instr.unmarked] using formed.keeps.line there
  obtain ⟨k, _, perm⟩ := formed.positions
  obtain ⟨c, member, inside⟩ := List.mem_flatMap.mp
    (perm.mem_iff.mpr (List.mem_append_left _ listed))
  obtain ⟨i, rest, line, code, first, atHead⟩ := formed.starts member
  have lines : linesOf t.routine.entries c.code = line :: linesOf t.routine.entries rest := by
    rw [code, linesOf_cons rest first]
  obtain ⟨line', body, split, _, unlabelled⟩ :=
    formed.cutting.headed.2 _ (List.mem_map_of_mem member)
  simp only [pieceOf] at split
  cases lines.symm.trans split
  rw [code] at inside
  rcases List.mem_cons.mp inside with rfl | later
  · cases first.symm.trans found
    simp only [Instr.control, Control.label.injEq] at atHead
    exact ⟨c, member, by simp [code], atHead.symm⟩
  · have inBody : ⟨head, .label name⟩ ∈ linesOf t.routine.entries rest :=
      List.mem_filterMap.mpr ⟨head, later, found⟩
    exact absurd rfl (unlabelled _ inBody name)

/-- A block that ends with a jump leads to the block of each label that the jump can go to, other
than the end label. -/
theorem FlowGraph.jump_iff {r : Routine} {endLabel : Bytes}
    (graph : FlowGraph endLabel r.entries r.blocks) (first : b ∈ r.blocks) (second : c ∈ r.blocks)
    (ends : b.last? = some last) (instr : r.instr? last = some x) (goes : c.label ∈ x.targets) :
    c.key ∈ b.succ ↔ c.label ≠ endLabel := by
  obtain ⟨i, final, e, there, exits⟩ := graph.last b first
  cases ends.symm.trans final
  have same : x = e.instr := by
    rw [Option.mem_def] at there
    simpa [Routine.instr?, there] using instr.symm
  have jumps : x.endsBlock = true := by
    by_contra inner
    simp [Instr.targets_of_inner (by simpa using inner)] at goes
  rw [graph.succ_iff first second, exits, ← same, Instr.exits_of_last jumps]
  exact and_iff_right goes

/-- Instructions that are linked for the first time have the edges of their blocks. -/
theorem linkInstrs_of_formed (made : run formBlocks s = (.ok (), t))
    (unlinked : Unlinked s.routine.entries) :
    ∃ u, run linkInstrs t = (.ok (), u) ∧ ∀ i j,
      (linksAt Entry.succ u.routine.entries i).count j = (edges t.routine).count (some (i, j)) ∧
        (linksAt Entry.pred u.routine.entries j).count i =
          (edges t.routine).count (some (i, j)) := by
  have formed := formed_of_run made
  have unlinked := unlinked_of_run made unlinked
  have inside : EdgesInside t.routine.entries := by
    intro k e found i leads
    obtain ⟨pred, succ⟩ := unlinked k e found
    simp [pred, succ] at leads
  obtain ⟨entries, added, _⟩ := addEdges_inside inside
    ((flowGraph_of_run made).edges_inside fun b member => formed.code_inside member)
  refine ⟨_, by rw [run_linkInstrs, added]; rfl, fun i j => ?_⟩
  obtain ⟨succ, pred⟩ := addEdges_counts added i j
  rw [(unlinked.linksAt i).1, List.count_nil, Nat.zero_add] at succ
  rw [(unlinked.linksAt j).2, List.count_nil, Nat.zero_add] at pred
  exact ⟨succ, pred⟩

/-- A jump to a label of the code is a link between the two blocks and an edge between the two
instructions, at both ends of each, exactly if the label is not the end label. -/
theorem jump_linked_iff {options : Select.Options} {f : Func} {r : Routine} {labels : Nat}
    (generated : Select.generateFunc options f = .ok r)
    (made : run formBlocks ⟨labels, r⟩ = (.ok (), t)) (member : b ∈ t.routine.blocks)
    (ends : b.last? = some last) (instr : t.routine.instr? last = some x) (goes : name ∈ x.targets)
    (listed : head ∈ r.code) (label : r.instr? head = some (.label name)) :
    ∃ c ∈ t.routine.blocks, c.code.head? = some head ∧
      (c.key ∈ b.succ ↔ name ≠ r.endLabel) ∧ (b.key ∈ c.pred ↔ name ≠ r.endLabel) ∧
      ∃ u, run linkInstrs t = (.ok (), u) ∧
        (head ∈ linksAt Entry.succ u.routine.entries last ↔ name ≠ r.endLabel) ∧
        (last ∈ linksAt Entry.pred u.routine.entries head ↔ name ≠ r.endLabel) := by
  have formed := formed_of_run made
  have graph := flowGraph_of_run made
  have distinct := formed.nodup_positions (Select.generateFunc_code generated)
  obtain ⟨c, inside, starts, rfl⟩ := formed.block_of_label listed label
  have leads : c.key ∈ b.succ ↔ c.label ≠ r.endLabel :=
    graph.jump_iff member inside ends instr goes
  have edge : some (last, head) ∈ edges t.routine ↔ c.label ≠ r.endLabel :=
    (graph.edge_iff distinct member inside ends starts).trans leads
  obtain ⟨u, linking, counts⟩ := linkInstrs_of_formed made (unlinked_generateFunc generated)
  obtain ⟨succ, pred⟩ := counts last head
  refine ⟨c, inside, starts, leads, (graph.pred_iff member inside).trans leads, u, linking, ?_, ?_⟩
  · rw [← edge, ← List.count_pos_iff, succ, List.count_pos_iff]
  · rw [← edge, ← List.count_pos_iff, pred, List.count_pos_iff]

/-- A branch to two labels, one of which has the name that stands for the end of the function. -/
def parting : Func :=
  { name := ascii "f"
    body := [.branch (.const 1) (ascii "A") (ascii "f_end"), .label (ascii "f_end"),
      .jump (ascii "A"), .label (ascii "A"), .ret .missing] }

def partingRoutine : Routine :=
  Select.routine parting { code :=
    #[.branch (.imm 1) (ascii "A") (ascii "f_end") [], .label (ascii "f_end"),
      .jump (ascii "A"), .label (ascii "A"), .ret .absent] }

def partingFirst : Block :=
  { key := 0, id := 0, label := madeUpLabel 0, code := [5, 0],
    jumpTo := [ascii "A", ascii "f_end"], succ := [2] }

theorem jump_linked_parting : Select.generateFunc {} parting = .ok partingRoutine ∧
    ∃ t u, run formBlocks ⟨0, partingRoutine⟩ = (.ok (), t) ∧ partingFirst ∈ t.routine.blocks ∧
      run linkInstrs t = (.ok (), u) ∧ 3 ∈ linksAt Entry.succ u.routine.entries 0 ∧
      1 ∉ linksAt Entry.succ u.routine.entries 0 := by
  have generated : Select.generateFunc {} parting = .ok partingRoutine := by cbv
  have made : run formBlocks ⟨0, partingRoutine⟩ =
    (.ok (), (run formBlocks ⟨0, partingRoutine⟩).2) := Prod.ext (by cbv) rfl
  have member : partingFirst ∈ (run formBlocks ⟨0, partingRoutine⟩).2.routine.blocks :=
    List.mem_of_mem_head? (by cbv)
  have instr : (run formBlocks ⟨0, partingRoutine⟩).2.routine.instr? 0 =
    some (.branch (.imm 1) (ascii "A") (ascii "f_end") []) := by cbv
  have there : partingRoutine.instr? 3 = some (.label (ascii "A")) := by cbv
  have atEnd : partingRoutine.instr? 1 = some (.label (ascii "f_end")) := by cbv
  obtain ⟨c, _, _, _, _, u, linking, edge, _⟩ :=
    jump_linked_iff generated made member rfl instr (by decide) (by decide) there
  obtain ⟨c', _, _, _, _, u', linking', edge', _⟩ :=
    jump_linked_iff generated made member rfl instr (by decide) (by decide) atEnd
  cases linking.symm.trans linking'
  exact ⟨generated, _, u, made, member, linking, edge.mpr (by decide),
    mt edge'.mp (not_not_intro (by decide))⟩

def ending : Func :=
  { name := ascii "f"
    body := [.jump (ascii "f_end"), .label (ascii "f_end"), .ret .missing] }

def endingRoutine : Routine :=
  Select.routine ending { code := #[.jump (ascii "f_end"), .label (ascii "f_end"), .ret .absent] }

/-- The label is there, but the block of the jump is not linked to its block. -/
theorem jump_unlinked_ending : Select.generateFunc {} ending = .ok endingRoutine ∧
    endingRoutine.instr? 1 = some (.label (ascii "f_end")) ∧
    ∃ t u, run formBlocks ⟨0, endingRoutine⟩ = (.ok (), t) ∧
      t.routine.blocks.map Block.code = [[3, 0], [1, 2]] ∧
      t.routine.instr? 0 = some (.jump (ascii "f_end")) ∧
      t.routine.blocks.map Block.succ = [[], []] ∧ t.routine.blocks.map Block.pred = [[], []] ∧
      run linkInstrs t = (.ok (), u) ∧ linksAt Entry.succ u.routine.entries 0 = [] := by
  refine ⟨?_, ?_, _, _, Prod.ext ?_ rfl, ?_, ?_, ?_, ?_, Prod.ext ?_ rfl, ?_⟩ <;> cbv

end Jumps

end Codegen.Flow
