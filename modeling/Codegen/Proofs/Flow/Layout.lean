import Codegen.Proofs.Flow.Cutting
import Codegen.Proofs.Flow.Passes
import Codegen.Proofs.Heap

/-! What the layout is made of. Every block is placed once, a block that runs into another
stands right before it, and the code of the blocks comes in that order, without the jumps
that are left out. Marks and edges change no instruction. -/
namespace Codegen.Flow

variable {entries entries' : Array Entry} {b next : Block} {rest : List Block}

/-- The same instructions stand at the same positions, up to marks. -/
def SameLines (entries entries' : Array Entry) : Prop :=
  ∀ i, lineAt? entries' i = lineAt? entries i

theorem SameLines.trans {middle : Array Entry} (first : SameLines entries middle)
    (second : SameLines middle entries') : SameLines entries entries' :=
  fun i => (second i).trans (first i)

theorem SameLines.linesOf (same : SameLines entries entries') (code : List Nat) :
    linesOf entries' code = linesOf entries code := by
  unfold Flow.linesOf
  rw [funext same]

theorem sameLines_modify (i : Nat) {f : Entry → Entry}
    (same : ∀ e, entries[i]? = some e → (f e).instr.unmarked = e.instr.unmarked) :
    SameLines entries (entries.modify i f) := by
  intro j
  unfold lineAt?
  rw [Array.getElem?_modify]
  split
  next there =>
    subst there
    cases found : entries[i]? with
    | none => rfl
    | some e => simp [same e found]
  next => rfl

theorem sameLines_addEdge? {i j : Nat} (added : addEdge? entries i j = some entries') :
    SameLines entries entries' := by
  unfold addEdge? at added
  split at added
  next =>
    cases added
    refine .trans ?_ (sameLines_modify j fun _ _ => rfl)
    exact sameLines_modify i fun _ _ => rfl
  next => contradiction

theorem sameLines_addEdges {edges : List (Option (Nat × Nat))}
    (added : addEdges entries edges = (true, entries')) : SameLines entries entries' := by
  induction edges generalizing entries with
  | nil =>
    cases added
    exact fun _ => rfl
  | cons edge edges ih =>
    cases edge with
    | none => simp [addEdges] at added
    | some edge =>
      simp only [addEdges] at added
      split at added
      next => simp at added
      next middle first =>
        exact (sameLines_addEdge? first).trans (ih added)

def lastControl? (entries : Array Entry) (b : Block) : Option Control :=
  (b.last?.bind (lineAt? entries)).map fun line => line.instr.control

/-- The code of a block where it is placed. -/
def trimmed (entries : Array Entry) : Placement → List Nat
  | ⟨b, none⟩ => b.code
  | ⟨b, some next⟩ =>
    if lastControl? entries b = some (.jump next.label) then b.code.dropLast else b.code

theorem SameLines.trimmed (same : SameLines entries entries') :
    trimmed entries' = trimmed entries := by
  funext ⟨b, next⟩
  cases next with
  | none => rfl
  | some next =>
    have control : lastControl? entries' b = lastControl? entries b := by
      rw [lastControl?, lastControl?, funext same]
    simp only [Flow.trimmed, control]

/-- A block that is placed changes no entry, but for the mark of a branch at its end. -/
theorem add_entries (p : Placed) (b : Block) (next : Option Block) :
    (p.add b next).2.entries = p.entries ∨
      ∃ last condition ifTrue ifFalse mark follower, b.last? = some last ∧ next = some follower ∧
        p.entries[last]?.map Entry.instr = some (.branch condition ifTrue ifFalse mark) ∧
        (p.add b next).2.entries = p.entries.modify last fun e =>
          { e with instr := .branch condition ifTrue ifFalse follower.label } := by
  unfold Placed.add
  cases ends : b.last? with
  | none => exact .inl rfl
  | some last =>
    cases next with
    | none => exact .inl rfl
    | some follower =>
      dsimp only
      cases found : p.entries[last]?.map Entry.instr with
      | none => exact .inl rfl
      | some x =>
        cases x with
        | branch condition ifTrue ifFalse mark =>
          exact .inr ⟨_, _, _, _, _, _, rfl, rfl, found, rfl⟩
        | jump target =>
          left
          dsimp only
          split <;> rfl
        | _ => exact .inl rfl

def links (entries : Array Entry) : Array (List Nat × List Nat) :=
  entries.map fun e => (e.pred, e.succ)

theorem size_of_links (same : links entries' = links entries) : entries'.size = entries.size := by
  simpa [links] using congrArg Array.size same

theorem links_modify (i : Nat) {f : Entry → Entry}
    (same : ∀ e, (f e).pred = e.pred ∧ (f e).succ = e.succ) :
    links (entries.modify i f) = links entries := by
  refine Array.ext_getElem? fun k => ?_
  simp only [links, Array.getElem?_map, Array.getElem?_modify]
  split <;> simp [Function.comp_def, same]

theorem links_add (p : Placed) (b : Block) (next : Option Block) :
    links (p.add b next).2.entries = links p.entries := by
  rcases add_entries p b next with same | ⟨last, _, _, _, _, _, _, _, _, marked⟩
  · rw [same]
  · rw [marked]
    exact links_modify last fun _ => ⟨rfl, rfl⟩

/-- What each block that is placed keeps of the instructions holds in the end, and also where a
block cannot be placed. -/
theorem addAll_entries {P : Array Entry → Prop} {p : Placed} {placed : List Placement}
    (step : ∀ q ∈ placed, ∀ p : Placed, P p.entries → P (p.add q.block q.next).2.entries)
    (start : P p.entries) : P (p.addAll placed).2.entries := by
  induction placed generalizing p with
  | nil => exact start
  | cons q placed ih =>
    obtain ⟨first, step⟩ := List.forall_mem_cons.mp step
    have first := first p start
    simp only [Placed.addAll]
    split
    next p' added =>
      rw [added] at first
      exact ih step first
    next failure p' added =>
      rw [added] at first
      exact first

theorem links_addAll (p : Placed) (placed : List Placement) :
    links (p.addAll placed).2.entries = links p.entries :=
  addAll_entries (P := fun more => links more = links p.entries)
    (fun q _ _ kept => (links_add _ q.block q.next).trans kept) rfl

theorem add_ok {p p' : Placed} {placement : Placement}
    (added : p.add placement.block placement.next = (.ok (), p')) :
    SameLines p.entries p'.entries ∧ p'.code = p.code ++ trimmed p.entries placement := by
  obtain ⟨b, next⟩ := placement
  unfold Placed.add at added
  cases ends : b.last? with
  | none => simp [ends] at added
  | some last =>
    cases next with
    | none =>
      simp only [ends] at added
      cases added
      exact ⟨fun _ => rfl, rfl⟩
    | some next =>
      cases found : p.entries[last]? with
      | none => simp [ends, found] at added
      | some e =>
        have control : lastControl? p.entries b = some e.instr.control := by
          simp [lastControl?, ends, lineAt?, found]
        simp only [trimmed, control, Option.some.injEq]
        obtain ⟨x, pred, succ⟩ := e
        cases x with
        | jump target =>
          simp only [ends, found, Option.map_some] at added
          simp only [Instr.control, Control.jump.injEq]
          split at added
          next same =>
            cases added
            exact ⟨fun _ => rfl, by rw [if_pos same]⟩
          next other =>
            cases added
            exact ⟨fun _ => rfl, by rw [if_neg other]⟩
        | branch condition ifTrue ifFalse mark =>
          simp only [ends, found, Option.map_some] at added
          cases added
          refine ⟨sameLines_modify last fun e same => ?_, by simp [Instr.control]⟩
          cases found.symm.trans same
          rfl
        | _ =>
          simp only [ends, found, Option.map_some] at added
          cases added
          exact ⟨fun _ => rfl, by simp [Instr.control]⟩

theorem addAll_ok {p p' : Placed} {placed : List Placement}
    (added : p.addAll placed = (.ok (), p')) :
    SameLines p.entries p'.entries ∧ p'.code = p.code ++ placed.flatMap (trimmed p.entries) := by
  induction placed generalizing p with
  | nil =>
    cases added
    exact ⟨fun _ => rfl, by simp⟩
  | cons placement placed ih =>
    simp only [Placed.addAll] at added
    split at added
    next middle first =>
      obtain ⟨same, code⟩ := add_ok first
      obtain ⟨same', code'⟩ := ih added
      refine ⟨same.trans same', ?_⟩
      rw [code', code, same.trimmed, List.flatMap_cons, List.append_assoc]
    next => simp at added

/-- Arranged code is that of the merged blocks, as they are placed. -/
theorem arrange_code {s u : State} (arranged : run arrange s = (.ok (), u)) :
    ∃ t, run formBlocks s = (.ok (), t) ∧ SameLines t.routine.entries u.routine.entries ∧
      u.routine.code = (placementOrder (mergeAll t.routine.blocks).2).flatMap
        (trimmed t.routine.entries) := by
  obtain ⟨t, entries, p, formed, edges, placed, rfl⟩ := arrange_ok arranged
  have linked := sameLines_addEdges edges
  obtain ⟨marked, code⟩ := addAll_ok placed
  refine ⟨t, formed, linked.trans marked, ?_⟩
  rw [code, linked.trimmed]
  rfl

/-- A block keeps its label where it is placed. -/
theorem trimmed_label {i : Nat} {code : List Nat} {line : Line} {name : Bytes}
    (starts : b.code = i :: code) (found : lineAt? entries i = some line)
    (label : line.instr.control = .label name) (next : Option Block) :
    ∃ code, trimmed entries ⟨b, next⟩ = i :: code := by
  cases next with
  | none => exact ⟨code, starts⟩
  | some next =>
    simp only [trimmed, starts]
    split
    next jump =>
      cases code with
      | nil => simp [lastControl?, Block.last?, starts, found, label] at jump
      | cons j code => exact ⟨_, rfl⟩
    next => exact ⟨code, rfl⟩

inductive Chained : List Placement → Prop
  | nil : Chained []
  | waits (b : Block) {placed : List Placement} : Chained placed → Chained (⟨b, none⟩ :: placed)
  | runsInto (b next : Block) {further : Option Block} {placed : List Placement} :
      Chained (⟨next, further⟩ :: placed) → Chained (⟨b, some next⟩ :: ⟨next, further⟩ :: placed)

theorem placements_some (found : follower? b rest = some next) :
    placements b rest = ⟨b, some next⟩ :: placements next (without rest next) := by
  rw [placements]
  split
  next other found' =>
    cases found.symm.trans found'
    rfl
  next found' => simp [found] at found'

theorem placements_nil (b : Block) : placements b [] = [⟨b, none⟩] := by
  have none : follower? b [] = none := by simp [follower?]
  rw [placements]
  split
  next found => simp [none] at found
  next => rfl

theorem placements_none (none : follower? b (next :: rest) = none) :
    placements b (next :: rest) = ⟨b, .none⟩ :: placements next rest := by
  rw [placements]
  split
  next found => simp [none] at found
  next => rfl

theorem placements_head (b : Block) (rest : List Block) :
    ∃ next placed, placements b rest = ⟨b, next⟩ :: placed := by
  cases found : follower? b rest with
  | some next => exact ⟨_, _, placements_some found⟩
  | none =>
    cases rest with
    | nil => exact ⟨_, _, placements_nil b⟩
    | cons next rest => exact ⟨_, _, placements_none found⟩

theorem chained_placements (b : Block) (rest : List Block) : Chained (placements b rest) := by
  induction b, rest using placements.induct with
  | case1 b rest next found _ ih =>
    rw [placements_some found]
    obtain ⟨further, placed, head⟩ := placements_head next (without rest next)
    rw [head] at ih ⊢
    exact .runsInto b next ih
  | case2 b found =>
    rw [placements_nil]
    exact .waits b .nil
  | case3 b next rest found ih =>
    rw [placements_none found]
    exact .waits b ih

theorem Chained.tail {q : Placement} {placed : List Placement} (chained : Chained (q :: placed)) :
    Chained placed := by
  cases chained with
  | waits _ later => exact later
  | runsInto _ _ later => exact later

theorem Chained.followed {front back : List Placement}
    (chained : Chained (front ++ ⟨b, some next⟩ :: back)) :
    ∃ further placed, back = ⟨next, further⟩ :: placed := by
  induction front with
  | nil =>
    cases chained
    exact ⟨_, _, rfl⟩
  | cons q front ih => exact ih chained.tail

theorem follower?_succ (found : follower? b rest = some next) : next.key ∈ b.succ := by
  obtain ⟨key, leads, found⟩ := List.exists_of_findSome?_eq_some found
  have same : next.key = key := eq_of_beq (List.find?_some found :)
  exact same ▸ leads

/-- A block runs into one that it leads to. -/
theorem mem_placements_next {q : Placement} (member : q ∈ placements b rest)
    (into : q.next = some next) : next ∈ rest ∧ next.key ∈ q.block.succ := by
  induction b, rest using placements.induct with
  | case1 b rest follower found _ ih =>
    rw [placements_some found] at member
    rcases List.mem_cons.mp member with rfl | later
    · cases into
      exact ⟨follower?_mem found, follower?_succ found⟩
    · obtain ⟨inside, leads⟩ := ih later
      exact ⟨List.mem_of_mem_filter inside, leads⟩
  | case2 b found =>
    rw [placements_nil, List.mem_singleton] at member
    simp [member] at into
  | case3 b waiting rest found ih =>
    rw [placements_none found] at member
    rcases List.mem_cons.mp member with rfl | later
    · contradiction
    · obtain ⟨inside, leads⟩ := ih later
      exact ⟨List.mem_cons_of_mem _ inside, leads⟩

theorem perm_without (keys : (rest.map Block.key).Nodup) (member : next ∈ rest) :
    (next :: without rest next).Perm rest := by
  induction rest with
  | nil => contradiction
  | cons first rest ih =>
    obtain ⟨fresh, keys⟩ := List.nodup_cons.mp keys
    rcases List.mem_cons.mp member with rfl | later
    · have others : without (next :: rest) next = rest := by
        simp only [without, bne_self_eq_false, Bool.false_eq_true, not_false_eq_true,
          List.filter_cons_of_neg, List.filter_eq_self, bne_iff_ne]
        exact fun b inside same => fresh (same ▸ List.mem_map_of_mem inside)
      rw [others]
    · have apart : first.key ≠ next.key := fun same => fresh (same ▸ List.mem_map_of_mem later)
      have kept : without (first :: rest) next = first :: without rest next := by
        simp [without, apart]
      rw [kept]
      exact (List.Perm.swap ..).trans ((ih keys later).cons first)

theorem placements_perm (keys : ((b :: rest).map Block.key).Nodup) :
    ((placements b rest).map Placement.block).Perm (b :: rest) := by
  induction b, rest using placements.induct with
  | case1 b rest next found _ ih =>
    rw [placements_some found, List.map_cons]
    have shift := perm_without (List.nodup_cons.mp keys).2 (follower?_mem found)
    refine ((ih ?_).trans shift).cons b
    exact ((shift.map Block.key).nodup_iff).mpr (List.nodup_cons.mp keys).2
  | case2 b found =>
    rw [placements_nil]
    rfl
  | case3 b next rest found ih =>
    rw [placements_none found, List.map_cons]
    exact (ih (List.nodup_cons.mp keys).2).cons b

theorem placementOrder_perm {blocks : List Block} (keys : (blocks.map Block.key).Nodup) :
    ((placementOrder blocks).map Placement.block).Perm blocks := by
  have sorted := Heap.sort_perm Block.id blocks
  unfold placementOrder
  cases heap : Heap.sort Block.id blocks with
  | nil => simpa [heap] using sorted
  | cons b rest =>
    rw [heap] at sorted
    exact (placements_perm ((sorted.map Block.key).nodup_iff.mpr keys)).trans sorted

theorem mem_of_mem_placementOrder {blocks : List Block} {q : Placement}
    (keys : (blocks.map Block.key).Nodup) (member : q ∈ placementOrder blocks) :
    q.block ∈ blocks :=
  (placementOrder_perm keys).mem_iff.mp (List.mem_map_of_mem member)

theorem mem_placementOrder_next {blocks : List Block} {q : Placement}
    (member : q ∈ placementOrder blocks) (into : q.next = some next) :
    next ∈ blocks ∧ next.key ∈ q.block.succ := by
  have sorted := Heap.sort_perm Block.id blocks
  unfold placementOrder at member
  split at member
  · contradiction
  next b rest heap =>
    obtain ⟨inside, leads⟩ := mem_placements_next member into
    rw [heap] at sorted
    exact ⟨sorted.mem_iff.mp (List.mem_cons_of_mem b inside), leads⟩

theorem chained_placementOrder (blocks : List Block) : Chained (placementOrder blocks) := by
  unfold placementOrder
  split
  · exact .nil
  · exact chained_placements _ _

end Codegen.Flow
