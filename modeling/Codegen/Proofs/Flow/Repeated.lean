import Codegen.Proofs.Lowering

/-! Passes over one routine, in any order and as often as one likes, by callers that have made up
any number of labels before. No instruction is ever rewritten, every reference keeps leading to
something, and blocks are numbered apart over all the calls. -/
namespace Codegen.Flow

inductive Step
  | form | link | merge | place
  deriving DecidableEq, Repr

def Step.pass : Step → Pass Unit
  | form => formBlocks
  | link => linkInstrs
  | merge => do
    let _ ← mergeBlocks
  | place => placeBlocks

structure Call where
  step : Step
  labels : Nat
  deriving DecidableEq, Repr

namespace Call

def run (c : Call) (r : Routine) : Except Failure Unit × State :=
  Flow.run c.step.pass ⟨c.labels, r⟩

/-- The routine that is left, also by a call that fails. -/
def result (c : Call) (r : Routine) : Routine :=
  (c.run r).2.routine

/-- The blocks that are made. A call that fails makes them as well, and drops them. -/
def made (c : Call) (r : Routine) : List Block :=
  match c.step with
  | .form => ((State.uncut ⟨c.labels, r⟩).placeAll r.code).2.all
  | _ => []

end Call

def after (r : Routine) (calls : List Call) : Routine :=
  calls.foldl (fun r c => c.result r) r

def madeBy (r : Routine) : List Call → List Block
  | [] => []
  | c :: calls => c.made r ++ madeBy (c.result r) calls

section Entries

variable {entries more : Array Entry}

/-- What stands in a place, up to marks and edges, still stands there. -/
def Lasting (entries more : Array Entry) : Prop :=
  ∀ i line, lineAt? entries i = some line → lineAt? more i = some line

def Additions (n : Nat) (entries : Array Entry) : Prop :=
  ∀ i line, n ≤ i → lineAt? entries i = some line →
    ∃ name, line.instr = .label name ∨ line.instr = .jump name

theorem SameLines.lasting (same : SameLines entries more) : Lasting entries more :=
  fun i _ found => (same i).trans found

theorem Keeps.lasting (keeps : Keeps entries more) : Lasting entries more := by
  intro i line found
  obtain ⟨e, there, rfl⟩ := Option.map_eq_some_iff.mp found
  exact keeps.line there

theorem additions_size (entries : Array Entry) : Additions entries.size entries := by
  intro i line beyond found
  simp [lineAt?, beyond] at found

theorem additions_push {n : Nat} {x : Instr} (added : Additions n entries)
    (plain : ∃ name, x.unmarked = .label name ∨ x.unmarked = .jump name) :
    Additions n (entries.push ⟨x, [], []⟩) := by
  intro i line beyond found
  simp only [lineAt?, Array.getElem?_push] at found
  split at found
  · cases found
    exact plain
  · exact added i line beyond found

theorem additions_placeAll {c c' : Cut} {code : List Nat} (placed : c.placeAll code = (true, c')) :
    Additions c.entries.size c'.entries :=
  Cut.entries_placeAll (fun _ name added => additions_push added ⟨name, .inl rfl⟩)
    (fun _ target added => additions_push added ⟨target, .inr rfl⟩)
    (additions_size c.entries) placed

/-- An addition stays one. -/
theorem Additions.lasting {n : Nat} (added : Additions n entries) (lasting : Lasting entries more)
    (later : Additions entries.size more) : Additions n more := by
  intro i line beyond found
  cases before : lineAt? entries i with
  | none =>
    refine later i line ?_ found
    simpa [lineAt?] using before
  | some line' =>
    obtain rfl : line' = line := by simpa [found] using (lasting i line' before).symm
    exact added i line' beyond before

theorem Lasting.entry {i : Nat} {e : Entry} (lasting : Lasting entries more)
    (found : entries[i]? = some e) :
    ∃ e', more[i]? = some e' ∧ e'.instr.unmarked = e.instr.unmarked := by
  have line : lineAt? entries i = some ⟨i, e.instr.unmarked⟩ := by
    rw [lineAt?, found, Option.map_some]
  obtain ⟨e', there, same⟩ := Option.map_eq_some_iff.mp (lasting i _ line)
  exact ⟨e', there, (Line.mk.inj same).2⟩

theorem Lasting.size_le (lasting : Lasting entries more) : entries.size ≤ more.size := by
  by_contra less
  obtain ⟨_, there, _⟩ := lasting.entry (Array.getElem?_eq_getElem (Nat.not_le.mp less))
  simp at there

/-- A flow graph does not see marks and edges, nor additions. -/
theorem FlowGraph.lasting {endLabel : Bytes} {blocks : List Block}
    (graph : FlowGraph endLabel entries blocks) (lasting : Lasting entries more) :
    FlowGraph endLabel more blocks := by
  refine { graph with first := ?_, last := ?_ }
  · intro b member
    obtain ⟨i, head, found⟩ := graph.first b member
    obtain ⟨e, there, label⟩ := Option.map_eq_some_iff.mp found
    obtain ⟨e', there', same⟩ := lasting.entry there
    refine ⟨i, head, ?_⟩
    rw [there', Option.map_some, Option.some.injEq]
    cases instr : e'.instr <;> simp_all [Instr.unmarked]
  · intro b member
    obtain ⟨i, ends, e, there, exits⟩ := graph.last b member
    obtain ⟨e', there', same⟩ := lasting.entry there
    refine ⟨i, ends, e', there', ?_⟩
    rw [exits, ← Instr.exits_unmarked e.instr, ← same, Instr.exits_unmarked]

end Entries

structure Extends (r r' : Routine) : Prop where
  name : r'.name = r.name
  endLabel : r'.endLabel = r.endLabel
  inlined : r'.inlined = r.inlined
  temps : r'.temps = r.temps
  kept : Lasting r.entries r'.entries
  added : Additions r.entries.size r'.entries

theorem Extends.refl (r : Routine) : Extends r r :=
  ⟨rfl, rfl, rfl, rfl, fun _ _ found => found, additions_size r.entries⟩

theorem Extends.trans {r r' r'' : Routine} (first : Extends r r') (second : Extends r' r'') :
    Extends r r'' where
  name := second.name.trans first.name
  endLabel := second.endLabel.trans first.endLabel
  inlined := second.inlined.trans first.inlined
  temps := second.temps.trans first.temps
  kept := fun i line found => second.kept i line (first.kept i line found)
  added := first.added.lasting second.kept second.added

structure Sound (r : Routine) : Prop where
  contained : r.SelfContained
  graph : FlowGraph r.endLabel r.entries r.blocks

theorem sound_of_graph {r : Routine} (code : ∀ i ∈ r.code, i < r.entries.size)
    (edges : EdgesInside r.entries) (graph : FlowGraph r.endLabel r.entries r.blocks)
    (inside : ∀ b ∈ r.blocks, ∀ i ∈ b.code, i < r.entries.size) : Sound r :=
  ⟨graph.selfContained code edges inside, graph⟩

theorem Sound.inside {r : Routine} (sound : Sound r) :
    ∀ b ∈ r.blocks, ∀ i ∈ b.code, i < r.entries.size :=
  fun b member => (sound.contained.blocks b member).2

/-- A call that fails for the labels of the routine, and leaves its code and its blocks. -/
structure Refused (c : Call) (r : Routine) : Prop where
  step : c.step = .form
  cause : ∃ cause, (c.run r).1 = .error (.fault ⟨[], cause⟩) ∧ LabelCause cause
  code : (c.result r).code = r.code
  blocks : (c.result r).blocks = r.blocks

structure Effect (c : Call) (r r' : Routine) : Prop where
  outcome : (c.run r).1 = .ok () ∨ Refused c r
  sound : Sound r'
  extended : Extends r r'
  ids : (c.made r).map Block.id =
    (List.range (c.made r).length).map fun k => ((r.nextBlock + k : Nat) : Int)
  next : r'.nextBlock = r.nextBlock + (c.made r).length
  origin : ∀ b ∈ r'.blocks,
    (b.id, b.label) ∈ (r.blocks ++ c.made r).map fun b => (b.id, b.label)

section Effects

variable {c : Call} {r : Routine}

theorem Effect.of_run {s : State} {outcome : Except Failure Unit} (ran : c.run r = (outcome, s))
    (effect : Effect c r s.routine) : Effect c r (c.result r) := by
  rwa [Call.result, ran]

/-- Forming blocks succeeds or is refused. Either way the blocks that are made have the next
numbers, and the instructions that there were are kept. -/
theorem effect_form (labels : Nat) (sound : Sound r) :
    Effect ⟨.form, labels⟩ r (Call.result ⟨.form, labels⟩ r) := by
  obtain ⟨cut, placed, edges⟩ := placeAll_complete (c := State.uncut ⟨labels, r⟩)
    sound.contained.present sound.contained.edges
  have lasting : Lasting r.entries cut.entries := (Cut.keeps_placeAll placed).lasting
  have added : Additions r.entries.size cut.entries := additions_placeAll placed
  have code : ∀ i ∈ r.code, i < cut.entries.size :=
    fun i listed => (sound.contained.code i listed).trans_le lasting.size_le
  have made : Call.made ⟨.form, labels⟩ r = cut.all := congrArg (fun p => p.2.all) placed
  have numbered : cut.Numbered r.nextBlock := Cut.numbered_placeAll ⟨rfl, rfl⟩ placed
  have ids := congrArg (List.map Prod.snd) numbered.numbers
  simp only [List.map_map, Function.comp_def] at ids
  have ran := run_formBlocks ⟨labels, r⟩
  cases joined : linked r.endLabel (cut.blocks r.endLabel) with
  | ok blocks =>
    simp only [placed, joined, if_true] at ran
    have graph := flowGraph_of_run ran
    have same : blocks.map (fun b => (b.id, b.label)) = cut.all.map fun b => (b.id, b.label) := by
      rw [linked_map joined fun _ _ _ => rfl, Cut.blocks_eq _ _ fun _ _ => rfl]
    refine .of_run ran ⟨.inl (congrArg Prod.fst ran), ?_, ⟨rfl, rfl, rfl, rfl, lasting, added⟩,
      made ▸ ids, made ▸ numbered.next, ?_⟩
    · exact sound_of_graph code edges graph fun b member => (formed_of_run ran).code_inside member
    · intro b member
      rw [made, List.map_append, ← same]
      exact List.mem_append_right _ (List.mem_map_of_mem member)
  | error cause =>
    simp only [placed, joined, if_true] at ran
    have refused : Refused ⟨.form, labels⟩ r :=
      ⟨rfl, ⟨cause, congrArg Prod.fst ran, linked_error joined⟩,
        congrArg (fun p => p.2.routine.code) ran, congrArg (fun p => p.2.routine.blocks) ran⟩
    refine .of_run ran ⟨.inr refused, ?_, ⟨rfl, rfl, rfl, rfl, lasting, added⟩, made ▸ ids,
      made ▸ numbered.next, ?_⟩
    · exact sound_of_graph code edges (sound.graph.lasting lasting) fun b member i listed =>
        (sound.inside b member i listed).trans_le lasting.size_le
    · exact fun b member => List.mem_map_of_mem (List.mem_append_left _ member)

/-- A pass that makes no blocks succeeds and hands on those that there are. -/
theorem effect_quiet {s : State} (none : c.made r = []) (ran : c.run r = (.ok (), s))
    (next : s.routine.nextBlock = r.nextBlock) (sound : Sound s.routine)
    (extended : Extends r s.routine)
    (origin : ∀ b ∈ s.routine.blocks, (b.id, b.label) ∈ r.blocks.map fun b => (b.id, b.label)) :
    Effect c r (c.result r) := by
  refine .of_run ran ⟨.inl (congrArg Prod.fst ran), sound, extended, by simp [none], ?_, ?_⟩
  · rw [none, next, List.length_nil, Nat.add_zero]
  · rwa [none, List.append_nil]

theorem effect_link (labels : Nat) (sound : Sound r) :
    Effect ⟨.link, labels⟩ r (Call.result ⟨.link, labels⟩ r) := by
  obtain ⟨entries, added, size, edges⟩ :=
    addEdges_inside sound.contained.edges (sound.graph.edges_inside sound.inside)
  have ran := run_linkInstrs ⟨labels, r⟩
  simp only [added, if_true] at ran
  have lasting : Lasting r.entries entries := (sameLines_addEdges added).lasting
  refine effect_quiet rfl ran rfl ?_ ?_ fun b member => List.mem_map_of_mem member
  · exact sound_of_graph (size ▸ sound.contained.code) edges (sound.graph.lasting lasting)
      (size ▸ sound.inside)
  · exact ⟨rfl, rfl, rfl, rfl, lasting, size ▸ additions_size entries⟩

theorem effect_merge (labels : Nat) (sound : Sound r) :
    Effect ⟨.merge, labels⟩ r (Call.result ⟨.merge, labels⟩ r) := by
  have wired := sound.graph.wired
  refine effect_quiet (s := ⟨labels, { r with blocks := (mergeAll r.blocks).2 }⟩) rfl rfl rfl
    ?_ ?_ ?_
  · exact sound_of_graph sound.contained.code sound.contained.edges sound.graph.after_mergeAll
      (wired.mergeAll_inside sound.inside)
  · exact ⟨rfl, rfl, rfl, rfl, fun _ _ found => found, additions_size r.entries⟩
  · intro b member
    have sublist := wired.mergeAll_sublist (f := fun b => (b.id, b.label)) (by simp)
    exact sublist.subset (List.mem_map_of_mem member)

theorem effect_place (labels : Nat) (sound : Sound r) :
    Effect ⟨.place, labels⟩ r (Call.result ⟨.place, labels⟩ r) := by
  have graph := sound.graph
  obtain ⟨p, placed, _⟩ := addAll_done (p := { entries := r.entries })
    fun q waiting => graph.last_inside (mem_of_mem_placementOrder graph.keys waiting)
  have same : SameLines r.entries p.entries := (addAll_ok placed).1
  have kept := links_addAll { entries := r.entries } (placementOrder r.blocks)
  rw [placed] at kept
  have size : p.entries.size = r.entries.size := size_of_links kept
  have inside : ∀ b ∈ r.blocks, ∀ i ∈ b.code, i < p.entries.size := size ▸ sound.inside
  refine effect_quiet rfl (run_placeBlocks (s := ⟨labels, r⟩) placed) rfl ?_ ?_ ?_
  · exact sound_of_graph (graph.laidOut_inside inside placed)
      (edgesInside_of_links kept sound.contained.edges)
      ((graph.lasting same.lasting).after_markPlaced p.keys) (List.forall_mem_map.mpr inside)
  · exact ⟨rfl, rfl, rfl, rfl, same.lasting, size ▸ additions_size p.entries⟩
  · exact List.forall_mem_map.mpr fun b member => List.mem_map.mpr ⟨b, member, rfl⟩

theorem Sound.effect (sound : Sound r) (c : Call) : Effect c r (c.result r) := by
  obtain ⟨step, labels⟩ := c
  cases step with
  | form => exact effect_form labels sound
  | link => exact effect_link labels sound
  | merge => exact effect_merge labels sound
  | place => exact effect_place labels sound

end Effects

section Runs

variable {r : Routine}

structure History (r : Routine) (calls : List Call) : Prop where
  sound : Sound (after r calls)
  extended : Extends r (after r calls)
  ids : (madeBy r calls).map Block.id =
    (List.range (madeBy r calls).length).map fun k => ((r.nextBlock + k : Nat) : Int)
  origin : ∀ b ∈ (after r calls).blocks,
    (b.id, b.label) ∈ (r.blocks ++ madeBy r calls).map fun b => (b.id, b.label)

theorem Sound.history (sound : Sound r) (calls : List Call) : History r calls := by
  induction calls generalizing r with
  | nil =>
    refine ⟨sound, .refl r, rfl, fun b member => ?_⟩
    exact List.mem_map_of_mem (List.mem_append_left _ member)
  | cons c calls ih =>
    have first := sound.effect c
    have rest := ih first.sound
    refine ⟨rest.sound, first.extended.trans rest.extended, ?_, ?_⟩
    · rw [madeBy, List.map_append, first.ids, rest.ids, first.next, List.length_append,
        List.range_add, List.map_append, List.map_map]
      simp [Function.comp_def, Nat.add_assoc]
    · intro b member
      have known := rest.origin b member
      rw [List.map_append, List.mem_append] at known
      simp only [madeBy, ← List.append_assoc]
      rw [List.map_append, List.mem_append]
      refine known.imp (fun old => ?_) id
      obtain ⟨b', before, same⟩ := List.mem_map.mp old
      exact same ▸ first.origin b' before

theorem History.nodup_ids {calls : List Call} (history : History r calls) :
    ((madeBy r calls).map Block.id).Nodup := by
  rw [history.ids]
  refine List.nodup_range.map fun i j same => ?_
  simpa using same

end Runs

section Selected

variable {options : Select.Options} {f : Func} {fs : List Func} {r : Routine} {rs : List Routine}

theorem flowGraph_nil (endLabel : Bytes) (entries : Array Entry) :
    FlowGraph endLabel entries [] := by
  constructor <;> simp

theorem blocks_generateFunc (done : Select.generateFunc options f = .ok r) : r.blocks = [] := by
  rcases Select.generateFunc_ok done with ⟨_, _, rfl⟩ | ⟨s, _, rfl⟩ <;> rfl

/-- Selected code can be given to any pass. -/
theorem sound_generateFunc (done : Select.generateFunc options f = .ok r) : Sound r := by
  refine ⟨selfContained_generateFunc done, ?_⟩
  rw [blocks_generateFunc done]
  exact flowGraph_nil r.endLabel r.entries

/-- Passes never rewrite an instruction that was selected or added before, and add labels and jumps
only. No call fails but for a fault of labels, which leaves code and blocks alone, and the blocks of
all calls have numbers of their own. -/
theorem calls_extend (emitted : Select.generateFuncs options fs = .ok rs) (member : r ∈ rs)
    (calls later : List Call) :
    (after r calls).SelfContained ∧
      Extends (after r calls) (after r (calls ++ later)) ∧
      (∀ c : Call, (c.run (after r calls)).1 = .ok () ∨ Refused c (after r calls)) ∧
      ((madeBy r calls).map Block.id).Nodup ∧
      ∀ b ∈ (after r calls).blocks, ∃ x ∈ madeBy r calls, x.id = b.id ∧ x.label = b.label := by
  obtain ⟨i, found⟩ := List.mem_iff_getElem?.mp member
  obtain ⟨f, _, selected⟩ := forall₂_getElem? (generateFuncs_ok_iff.mp emitted).flip found
  have history := (sound_generateFunc selected).history calls
  refine ⟨history.sound.contained, ?_, fun c => (history.sound.effect c).outcome,
    history.nodup_ids, ?_⟩
  · have extended := (history.sound.history later).extended
    rwa [after, after, ← List.foldl_append] at extended
  · intro b inside
    have known := history.origin b inside
    rw [blocks_generateFunc selected, List.nil_append] at known
    obtain ⟨x, made, same⟩ := List.mem_map.mp known
    exact ⟨x, made, (Prod.mk.inj same).1, (Prod.mk.inj same).2⟩

end Selected

def retracing : Func :=
  { name := ascii "f"
    body := [.assign (.var (some ⟨.global 0, ascii "x"⟩)) (.const 1), .label (ascii "cfg_added_1"),
      .branch (.const 1) (ascii "cfg_added_1") (ascii "B"), .label (ascii "B"), .ret .missing] }

def retracingRoutine : Routine :=
  Select.routine retracing { code :=
    #[.move (.addr 0 (some ⟨.global 0, ascii "x"⟩) .absent .absent 1 0) (.imm 1),
      .label (ascii "cfg_added_1"), .branch (.imm 1) (ascii "cfg_added_1") (ascii "B") [],
      .label (ascii "B"), .ret .absent] }

/-- The second caller makes up the label of the program, the last one goes over the layout again. -/
def retracingCalls : List Call :=
  [⟨.form, 0⟩, ⟨.form, 1⟩, ⟨.link, 1⟩, ⟨.merge, 0⟩, ⟨.place, 0⟩, ⟨.form, 1⟩]

theorem calls_extend_retracing :
    Select.generateFuncs {} [retracing] = .ok [retracingRoutine] ∧
      Refused ⟨.form, 1⟩ (after retracingRoutine [⟨.form, 0⟩]) ∧
      (madeBy retracingRoutine retracingCalls).map Block.id = [0, 1, 2, 3, 4, 5, 6, 7, 8] ∧
      Extends (after retracingRoutine [⟨.form, 0⟩]) (after retracingRoutine retracingCalls) ∧
      (after retracingRoutine retracingCalls).SelfContained := by
  have emitted : Select.generateFuncs {} [retracing] = .ok [retracingRoutine] := by cbv
  have member : retracingRoutine ∈ [retracingRoutine] := List.mem_singleton_self _
  have first := calls_extend emitted member [⟨.form, 0⟩] retracingCalls.tail
  have fails : (Call.run ⟨.form, 1⟩ (after retracingRoutine [⟨.form, 0⟩])).1 =
      .error (.fault ⟨[], .duplicateLabel (ascii "cfg_added_1")⟩) := by cbv
  refine ⟨emitted, (first.2.2.1 ⟨.form, 1⟩).resolve_left (by simp [fails]), by cbv, first.2.1, ?_⟩
  exact (calls_extend emitted member retracingCalls []).1

end Codegen.Flow
