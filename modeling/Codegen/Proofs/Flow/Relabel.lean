import Codegen.Proofs.Flow.Labelling

/-! Labels may be exchanged for others. A routine whose labels are renamed one to one is arranged
as before, with the names renamed in the result, if the labels that are made up for it are
those that the names of the first ones are renamed to. -/
namespace Codegen

section Relabel

variable (f : Bytes → Bytes)

/-- Renames the labels of an instruction, the mark of a branch included. -/
def Instr.relabel : Instr → Instr
  | jump target => jump (f target)
  | branch condition ifTrue ifFalse next => branch condition (f ifTrue) (f ifFalse) (f next)
  | label name => label (f name)
  | x => x

def Entry.relabel (e : Entry) : Entry :=
  { e with instr := e.instr.relabel f }

def Block.relabel (b : Block) : Block :=
  { b with label := f b.label, jumpTo := b.jumpTo.map f }

def Routine.relabel (r : Routine) : Routine :=
  { r with
    endLabel := f r.endLabel
    entries := r.entries.map (Entry.relabel f)
    blocks := r.blocks.map (Block.relabel f) }

end Relabel

namespace Instr

variable {f : Bytes → Bytes}

@[simp] theorem targets_relabel (x : Instr) : (x.relabel f).targets = x.targets.map f := by
  cases x <;> rfl

@[simp] theorem endsBlock_relabel (x : Instr) : (x.relabel f).endsBlock = x.endsBlock := by
  cases x <;> rfl

end Instr

namespace Flow

variable {f : Bytes → Bytes} {k : Nat}

def State.relabel (f : Bytes → Bytes) (k : Nat) (s : State) : State :=
  ⟨s.labels + k, s.routine.relabel f⟩

/-! ### Cutting -/

namespace Cut

def relabel (f : Bytes → Bytes) (k : Nat) (c : Cut) : Cut :=
  { labels := c.labels + k
    nextBlock := c.nextBlock
    entries := c.entries.map (Entry.relabel f)
    done := c.done.map (Block.relabel f)
    current := c.current.map (Block.relabel f) }

theorem runInto_relabel (c : Cut) (name : Bytes) :
    (c.relabel f k).runInto (f name) = (c.runInto name).relabel f k := by
  cases opened : c.current with
  | none => simp [runInto, relabel, opened]
  | some b =>
    simp [runInto, relabel, opened, alloc, finish, Block.relabel, Entry.relabel, Instr.relabel]

theorem opened_relabel (shifts : ∀ n, f (madeUpLabel n) = madeUpLabel (n + k)) (c : Cut) :
    (c.relabel f k).opened = (c.opened.1.relabel f, c.opened.2.relabel f k) := by
  cases opened : c.current with
  | none =>
    simp [Cut.opened, relabel, opened, alloc, newBlock, Block.relabel, Entry.relabel,
      Instr.relabel, shifts, Nat.add_right_comm]
  | some b => simp [Cut.opened, relabel, opened]

theorem place_relabel (shifts : ∀ n, f (madeUpLabel n) = madeUpLabel (n + k)) (c : Cut) (i : Nat)
    (x : Instr) : (c.relabel f k).place i (x.relabel f) = (c.place i x).relabel f k := by
  cases x with
  | label name =>
    simp only [Instr.relabel, place, runInto_relabel]
    simp [newBlock, relabel, Block.relabel]
  | jump target =>
    simp only [Instr.relabel, place, opened_relabel shifts]
    simp [Instr.endsBlock, finish, relabel, Block.relabel, Instr.targets]
  | branch condition ifTrue ifFalse next =>
    simp only [Instr.relabel, place, opened_relabel shifts]
    simp [Instr.endsBlock, finish, relabel, Block.relabel, Instr.targets]
  | _ =>
    simp only [Instr.relabel, place, opened_relabel shifts]
    simp [Instr.endsBlock, relabel, Block.relabel]

theorem placeAll_relabel (shifts : ∀ n, f (madeUpLabel n) = madeUpLabel (n + k)) (c : Cut)
    (code : List Nat) : (c.relabel f k).placeAll code =
      ((c.placeAll code).1, (c.placeAll code).2.relabel f k) := by
  induction code generalizing c with
  | nil => rfl
  | cons i code ih =>
    have entry : (c.relabel f k).entries[i]? = c.entries[i]?.map (Entry.relabel f) := by
      simp [relabel]
    simp only [placeAll, entry]
    cases c.entries[i]? with
    | none => rfl
    | some e =>
      rw [← ih, ← place_relabel shifts]
      rfl

theorem blocks_relabel (c : Cut) (endLabel : Bytes) :
    (c.relabel f k).blocks (f endLabel) = (c.blocks endLabel).map (Block.relabel f) := by
  cases opened : c.current with
  | none => simp [blocks, relabel, opened]
  | some b => simp [blocks, relabel, opened, finish, Block.relabel]

end Cut

/-! ### Linking -/

/-- A map that succeeds does so for other arguments with matching results. -/
theorem mapM_map_ok {α β γ δ ε : Type} {g : α → Except ε β} {p : γ → Except ε δ} {u : α → γ}
    {v : β → δ} (step : ∀ x y, g x = .ok y → p (u x) = .ok (v y)) {xs : List α} {ys : List β}
    (mapped : xs.mapM g = .ok ys) : (xs.map u).mapM p = .ok (ys.map v) := by
  induction xs generalizing ys with
  | nil =>
    cases mapped
    rfl
  | cons x xs ih =>
    rw [List.mapM_cons] at mapped
    obtain ⟨y, first, mapped⟩ := bind_ok mapped
    obtain ⟨rest, others, mapped⟩ := bind_ok mapped
    cases mapped
    rw [List.map_cons, List.mapM_cons, step x y first, ih others]
    rfl

variable {endLabel : Bytes} {blocks out : List Block}

theorem successors_relabel (injective : Function.Injective f) {b : Block} {succ : List Nat}
    (found : successors endLabel blocks b = .ok succ) :
    successors (f endLabel) (blocks.map (Block.relabel f)) (b.relabel f) = .ok succ := by
  have stays : (b.relabel f).jumpTo.filter (· != f endLabel) =
      (b.jumpTo.filter (· != endLabel)).map f := by
    simp [Block.relabel, List.filter_map, Function.comp_def, bne, injective.beq_eq]
  rw [successors, stays]
  refine (mapM_map_ok (v := id) ?_ found).trans (by rw [List.map_id])
  intro label key goes
  have same : (blocks.map (Block.relabel f)).find? (·.label == f label) =
      (blocks.find? (·.label == label)).map (Block.relabel f) := by
    rw [List.find?_map]
    congr 2
    funext b
    exact injective.beq_eq
  rw [same]
  split at goes
  next target first =>
    rw [first]
    exact goes
  · contradiction

theorem linked_relabel (injective : Function.Injective f)
    (joined : linked endLabel blocks = .ok out) :
    linked (f endLabel) (blocks.map (Block.relabel f)) = .ok (out.map (Block.relabel f)) := by
  have distinct := (linked_ok joined).1
  have before : duplicate? [] (blocks.map Block.label) = none :=
    duplicate?_of_nodup distinct (by simp)
  have after : duplicate? [] ((blocks.map (Block.relabel f)).map Block.label) = none := by
    refine duplicate?_of_nodup ?_ (by simp)
    have names : (blocks.map (Block.relabel f)).map Block.label =
        (blocks.map Block.label).map f := by
      simp [Block.relabel]
    exact names ▸ distinct.map injective
  simp only [linked, before] at joined
  obtain ⟨middle, mapped, joined⟩ := bind_ok joined
  cases joined
  have mapped' : (blocks.map (Block.relabel f)).mapM (fun b => do
      return { b with succ := ← successors (f endLabel) (blocks.map (Block.relabel f)) b }) =
        (.ok (middle.map (Block.relabel f)) : Except Cause _) := by
    refine mapM_map_ok ?_ mapped
    intro b b' single
    obtain ⟨succ, found, single⟩ := bind_ok single
    cases single
    rw [successors_relabel injective found]
    rfl
  have links (key : Nat) : predecessors (middle.map (Block.relabel f)) key =
      predecessors middle key := by
    simp [predecessors, List.flatMap_map, Block.relabel]
  simp only [linked, after, mapped']
  change Except.ok _ = Except.ok _
  simp [links, Block.relabel]

variable {s t : State}

theorem formBlocks_relabel (injective : Function.Injective f)
    (shifts : ∀ n, f (madeUpLabel n) = madeUpLabel (n + k))
    (formed : run formBlocks s = (.ok (), t)) :
    run formBlocks (s.relabel f k) = (.ok (), t.relabel f k) := by
  obtain ⟨c, blocks, placed, joined, rfl⟩ := formBlocks_ok formed
  have start : (s.relabel f k).uncut = s.uncut.relabel f k := rfl
  have placed' : (s.relabel f k).uncut.placeAll (s.relabel f k).routine.code =
      (true, c.relabel f k) := by
    rw [start, Cut.placeAll_relabel shifts]
    exact congrArg (fun result => (result.1, result.2.relabel f k)) placed
  have joined' : linked (s.relabel f k).routine.endLabel
      ((c.relabel f k).blocks (s.relabel f k).routine.endLabel) =
        .ok (blocks.map (Block.relabel f)) := by
    rw [show (s.relabel f k).routine.endLabel = f s.routine.endLabel from rfl, Cut.blocks_relabel]
    exact linked_relabel injective joined
  rw [run_formBlocks]
  simp only [placed', joined', if_true]
  rfl

/-! ### Edges -/

theorem find?_relabel (blocks : List Block) (key : Nat) :
    (blocks.map (Block.relabel f)).find? (·.key == key) =
      (blocks.find? (·.key == key)).map (Block.relabel f) :=
  List.find?_map ..

theorem edges_relabel (r : Routine) : edges (r.relabel f) = edges r := by
  have outer (b : Block) : outerEdges (r.relabel f) (b.relabel f) = outerEdges r b := by
    unfold outerEdges
    rw [show (b.relabel f).last? = b.last? from rfl]
    cases b.last? with
    | none => rfl
    | some last =>
      apply List.map_congr_left
      intro key _
      rw [Routine.block?, Routine.relabel, find?_relabel, ← Routine.block?]
      cases r.block? key <;> rfl
  simp only [edges, Routine.relabel, List.flatMap_map]
  congr 1
  exact congrArg (List.flatMap · r.blocks) (funext outer)

theorem modify_relabel (entries : Array Entry) (i : Nat) {change changed : Entry → Entry}
    (same : ∀ e, (change e).relabel f = changed (e.relabel f)) :
    (entries.map (Entry.relabel f)).modify i changed =
      (entries.modify i change).map (Entry.relabel f) := by
  apply Array.ext_getElem?
  intro j
  simp only [Array.getElem?_modify, Array.getElem?_map]
  split
  · cases entries[j]? <;> simp [same]
  · rfl

theorem addEdge?_relabel (entries : Array Entry) (i j : Nat) :
    addEdge? (entries.map (Entry.relabel f)) i j =
      (addEdge? entries i j).map (·.map (Entry.relabel f)) := by
  unfold addEdge?
  simp only [Array.size_map]
  split
  · rw [Option.map_some, ← modify_relabel _ j, ← modify_relabel _ i]
    all_goals exact fun _ => rfl
  · rfl

theorem addEdges_relabel (entries : Array Entry) (edges : List (Option (Nat × Nat))) :
    addEdges (entries.map (Entry.relabel f)) edges =
      ((addEdges entries edges).1, (addEdges entries edges).2.map (Entry.relabel f)) := by
  induction edges generalizing entries with
  | nil => rfl
  | cons edge edges ih =>
    cases edge with
    | none => rfl
    | some ends =>
      simp only [addEdges, addEdge?_relabel]
      cases addEdge? entries ends.1 ends.2 with
      | none => rfl
      | some entries => exact ih entries

/-! ### Merging -/

theorem mergeable?_relabel (blocks : List Block) (b : Block) :
    mergeable? (blocks.map (Block.relabel f)) (b.relabel f) =
      (mergeable? blocks b).map (Block.relabel f) := by
  unfold mergeable?
  rw [show (b.relabel f).succ = b.succ from rfl]
  split
  · rw [find?, find?_relabel, Option.filter_map]
    rfl
  · rfl

theorem mergePair?_relabel (blocks : List Block) :
    mergePair? (blocks.map (Block.relabel f)) =
      (mergePair? blocks).map (Prod.map (Block.relabel f) (Block.relabel f)) := by
  rw [mergePair?, mergePair?, List.findSome?_map, List.map_findSome?]
  congr 1
  funext b
  simp only [Function.comp_apply, mergeable?_relabel, Option.map_map]
  rfl

theorem absorb_relabel (blocks : List Block) (b next : Block) :
    absorb (blocks.map (Block.relabel f)) (b.relabel f) (next.relabel f) =
      (absorb blocks b next).map (Block.relabel f) := by
  simp only [absorb, List.filter_map, List.map_map]
  apply List.map_congr_left
  intro x _
  simp only [Function.comp_apply]
  by_cases same : x.key = b.key
  · have same' : (x.relabel f).key = (b.relabel f).key := same
    rw [if_pos same, if_pos same']
    rfl
  · have other : (x.relabel f).key ≠ (b.relabel f).key := same
    rw [if_neg same, if_neg other]
    rfl

theorem mergeAll_relabel (blocks : List Block) :
    (mergeAll (blocks.map (Block.relabel f))).2 =
      (mergeAll blocks).2.map (Block.relabel f) := by
  induction blocks using mergeAll.induct with
  | case1 blocks none =>
    rw [mergeAll_none none, mergeAll_none]
    rw [mergePair?_relabel, none, Option.map_none]
  | case2 blocks b next found _ _ _ _ ih =>
    have found' : mergePair? (blocks.map (Block.relabel f)) =
        some (b.relabel f, next.relabel f) := by
      rw [mergePair?_relabel, found]
      rfl
    rw [mergeAll_some found, mergeAll_some found', absorb_relabel, ih]

/-! ### Layout -/

def Placement.relabel (f : Bytes → Bytes) (q : Placement) : Placement :=
  ⟨q.block.relabel f, q.next.map (Block.relabel f)⟩

theorem follower?_relabel (b : Block) (rest : List Block) :
    follower? (b.relabel f) (rest.map (Block.relabel f)) =
      (follower? b rest).map (Block.relabel f) := by
  rw [follower?, follower?, List.map_findSome?]
  exact congrArg (List.findSome? · b.succ) (funext (find?_relabel rest))

theorem without_relabel (rest : List Block) (b : Block) :
    without (rest.map (Block.relabel f)) (b.relabel f) = (without rest b).map (Block.relabel f) :=
  List.filter_map ..

theorem placements_relabel (b : Block) (rest : List Block) :
    placements (b.relabel f) (rest.map (Block.relabel f)) =
      (placements b rest).map (Placement.relabel f) := by
  induction b, rest using placements.induct with
  | case1 b rest next found _ ih =>
    have found' := follower?_relabel (f := f) b rest
    rw [found] at found'
    rw [placements_some found, placements_some found', without_relabel, ih]
    rfl
  | case2 b found =>
    rw [List.map_nil, placements_nil, placements_nil]
    rfl
  | case3 b next rest found ih =>
    have found' := follower?_relabel (f := f) b (next :: rest)
    rw [found] at found'
    rw [placements_none found, List.map_cons, List.map_cons, placements_none found', ih]
    rfl

theorem placementOrder_relabel {blocks : List Block}
    (rising : blocks.Pairwise fun x y => x.id < y.id) :
    placementOrder (blocks.map (Block.relabel f)) =
      (placementOrder blocks).map (Placement.relabel f) := by
  have rising' : (blocks.map (Block.relabel f)).Pairwise fun x y => x.id < y.id :=
    List.pairwise_map.mpr rising
  rw [placementOrder, placementOrder, Heap.sort_eq_self rising, Heap.sort_eq_self rising']
  cases blocks with
  | nil => rfl
  | cons b rest => exact placements_relabel b rest

namespace Placed

def relabel (f : Bytes → Bytes) (p : Placed) : Placed :=
  { p with entries := p.entries.map (Entry.relabel f) }

theorem add_relabel (injective : Function.Injective f) {p p' : Placed} {b : Block}
    {next : Option Block} (added : p.add b next = (.ok (), p')) :
    (p.relabel f).add (b.relabel f) (next.map (Block.relabel f)) = (.ok (), p'.relabel f) := by
  unfold add at added ⊢
  rw [show (b.relabel f).last? = b.last? from rfl]
  cases ends : b.last? with
  | none => simp [ends] at added
  | some last =>
    cases next with
    | none =>
      simp only [ends] at added
      cases added
      rfl
    | some next =>
      cases found : p.entries[last]? with
      | none => simp [ends, found] at added
      | some e =>
        have found' : (p.relabel f).entries[last]? = some (e.relabel f) := by
          simp [relabel, found]
        obtain ⟨x, pred, succ⟩ := e
        cases x with
        | jump target =>
          have goes : f target = (next.relabel f).label ↔ target = next.label :=
            injective.eq_iff
          simp only [ends, found, found', Option.map_some, Entry.relabel, Instr.relabel, goes]
            at added ⊢
          split at added
          next same =>
            cases added
            rw [if_pos same]
            rfl
          next other =>
            cases added
            rw [if_neg other]
            rfl
        | branch condition ifTrue ifFalse mark =>
          simp only [ends, found, found', Option.map_some, Entry.relabel, Instr.relabel]
            at added ⊢
          cases added
          simp only [relabel]
          rw [← modify_relabel _ last]
          · rfl
          · exact fun _ => rfl
        | _ =>
          simp only [ends, found, found', Option.map_some, Entry.relabel, Instr.relabel]
            at added ⊢
          cases added
          rfl

theorem addAll_relabel (injective : Function.Injective f) {p p' : Placed}
    {placed : List Placement} (added : p.addAll placed = (.ok (), p')) :
    (p.relabel f).addAll (placed.map (Placement.relabel f)) = (.ok (), p'.relabel f) := by
  induction placed generalizing p with
  | nil =>
    cases added
    rfl
  | cons q placed ih =>
    simp only [addAll] at added
    split at added
    next middle first =>
      simp only [List.map_cons, addAll, Placement.relabel, add_relabel injective first]
      exact ih added
    next => simp at added

end Placed

theorem markPlaced_relabel (keys : List Nat) (blocks : List Block) :
    markPlaced keys (blocks.map (Block.relabel f)) =
      (markPlaced keys blocks).map (Block.relabel f) := by
  simp only [markPlaced, List.map_map]
  rfl

/-- Renaming the labels before comes to the same as renaming them after. -/
theorem arrange_relabel (injective : Function.Injective f)
    (shifts : ∀ n, f (madeUpLabel n) = madeUpLabel (n + k))
    (arranged : run arrange s = (.ok (), t)) :
    run arrange (s.relabel f k) = (.ok (), t.relabel f k) := by
  obtain ⟨u, entries, p, formed, added, placed, rfl⟩ := arrange_ok arranged
  have added' : addEdges (u.relabel f k).routine.entries (edges (u.relabel f k).routine) =
      (true, entries.map (Entry.relabel f)) := by
    rw [show (u.relabel f k).routine = u.routine.relabel f from rfl, edges_relabel,
      show (u.routine.relabel f).entries = u.routine.entries.map (Entry.relabel f) from rfl,
      addEdges_relabel, added]
  have placed' : Placed.addAll { entries := entries.map (Entry.relabel f) }
      (placementOrder (mergeAll (u.relabel f k).routine.blocks).2) = (.ok (), p.relabel f) := by
    rw [show (u.relabel f k).routine.blocks = u.routine.blocks.map (Block.relabel f) from rfl,
      mergeAll_relabel, placementOrder_relabel (formed_of_run formed).rising]
    exact Placed.addAll_relabel injective placed
  rw [run_arrange (formBlocks_relabel injective shifts formed) added' placed']
  rw [show (u.relabel f k).routine.blocks = u.routine.blocks.map (Block.relabel f) from rfl,
    mergeAll_relabel, show (p.relabel f).keys = p.keys from rfl, markPlaced_relabel]
  rfl

end Flow

end Codegen
