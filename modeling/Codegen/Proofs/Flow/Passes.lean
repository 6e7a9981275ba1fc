import Codegen.Flow.Arrange
import Mathlib

/-! What passes do to a state. Each one that succeeds is taken apart into the parts of its
result, so that later proofs never open it. -/
namespace Codegen.Flow

variable {α β : Type} {s t : State}

theorem run_bind (pass : Pass α) (next : α → Pass β) (s : State) :
    run (pass >>= next) s = match run pass s with
      | (.ok a, t) => run (next a) t
      | (.error failure, t) => (.error failure, t) := by
  simp only [run, bind, ExceptT.bind, ExceptT.mk, ExceptT.bindCont, ExceptT.run, StateT.run,
    StateT.bind]
  rcases pass s with ⟨a | a, t⟩ <;> rfl

@[simp] theorem run_get (s : State) : run (get : Pass State) s = (.ok s, s) := rfl

@[simp] theorem run_set (t s : State) : run (set t : Pass PUnit) s = (.ok ⟨⟩, t) := rfl

theorem run_bind_ok {pass : Pass α} {next : α → Pass β} {b : β}
    (done : run (pass >>= next) s = (.ok b, t)) :
    ∃ a middle, run pass s = (.ok a, middle) ∧ run (next a) middle = (.ok b, t) := by
  rw [run_bind] at done
  rcases first : run pass s with ⟨failure | a, middle⟩
  · simp [first] at done
  · exact ⟨a, middle, rfl, by simpa [first] using done⟩

theorem run_within (place : Inside) (pass : Pass α) (s : State) : run (within place pass) s =
    ((run pass s).1.mapError (Failure.inside place), (run pass s).2) := rfl

theorem run_within_ok {place : Inside} {pass : Pass α} {a : α}
    (done : run (within place pass) s = (.ok a, t)) : run pass s = (.ok a, t) := by
  rw [run_within] at done
  rcases inner : run pass s with ⟨failure | b, middle⟩
  · simp [inner, Except.mapError] at done
  · simpa [inner, Except.mapError] using done

def State.uncut (s : State) : Cut :=
  { labels := s.labels, nextBlock := s.routine.nextBlock, entries := s.routine.entries }

theorem run_formBlocks (s : State) : run formBlocks s =
    match s.uncut.placeAll s.routine.code with
    | (complete, c) =>
      let t : State :=
        ⟨c.labels, { s.routine with entries := c.entries, nextBlock := c.nextBlock }⟩
      if complete then
        match linked s.routine.endLabel (c.blocks s.routine.endLabel) with
        | .ok blocks => (.ok (), { t with routine := { t.routine with blocks := blocks } })
        | .error cause => (.error (.fault ⟨[], cause⟩), t)
      else (.error .dangling, t) := by
  unfold State.uncut
  simp only [formBlocks, run_bind, run_get]
  rcases Cut.placeAll _ _ with ⟨_ | _, c⟩
  · rfl
  · simp only [run_set]
    rcases linked _ _ with cause | blocks <;> rfl

/-- Blocks that were formed are those that the code was cut into, linked. -/
theorem formBlocks_ok (formed : run formBlocks s = (.ok (), t)) :
    ∃ c blocks, s.uncut.placeAll s.routine.code = (true, c) ∧
      linked s.routine.endLabel (c.blocks s.routine.endLabel) = .ok blocks ∧
      t = ⟨c.labels, { s.routine with
        entries := c.entries, nextBlock := c.nextBlock, blocks := blocks }⟩ := by
  rw [run_formBlocks] at formed
  rcases cut : s.uncut.placeAll s.routine.code with ⟨_ | _, c⟩
  · simp [cut] at formed
  · rcases joined : linked s.routine.endLabel (c.blocks s.routine.endLabel) with cause | blocks
    · simp [cut, joined] at formed
    · simp only [cut, joined, ite_true, Prod.mk.injEq, true_and] at formed
      exact ⟨c, blocks, rfl, joined, formed.symm⟩

theorem run_linkInstrs (s : State) : run linkInstrs s =
    match addEdges s.routine.entries (edges s.routine) with
    | (complete, entries) =>
      (if complete then .ok () else .error .dangling,
        { s with routine := { s.routine with entries := entries } }) := by
  simp only [linkInstrs, run_bind, run_get]
  rcases addEdges _ _ with ⟨_ | _, entries⟩ <;> rfl

theorem linkInstrs_ok (done : run linkInstrs s = (.ok (), t)) :
    ∃ entries, addEdges s.routine.entries (edges s.routine) = (true, entries) ∧
      t = { s with routine := { s.routine with entries := entries } } := by
  rw [run_linkInstrs] at done
  rcases added : addEdges s.routine.entries (edges s.routine) with ⟨_ | _, entries⟩
  · simp [added] at done
  · simp only [added, ite_true, Prod.mk.injEq, true_and] at done
    exact ⟨entries, rfl, done.symm⟩

theorem run_mergeBlocks (s : State) : run mergeBlocks s =
    (.ok (mergeAll s.routine.blocks).1,
      { s with routine := { s.routine with blocks := (mergeAll s.routine.blocks).2 } }) := rfl

theorem mergeBlocks_ok {count : Nat} (done : run mergeBlocks s = (.ok count, t)) :
    t = { s with routine := { s.routine with blocks := (mergeAll s.routine.blocks).2 } } := by
  cases done
  rfl

def markPlaced (keys : List Nat) (blocks : List Block) : List Block :=
  blocks.map fun b => { b with state := if b.key ∈ keys then .placed else .queued }

/-- Blocks that can all be placed are laid out. -/
theorem run_placeBlocks {p : Placed} (added : Placed.addAll { entries := s.routine.entries }
    (placementOrder s.routine.blocks) = (.ok (), p)) :
    run placeBlocks s = (.ok (), { s with routine := { s.routine with
      entries := p.entries, blocks := markPlaced p.keys s.routine.blocks, code := p.code } }) := by
  simp only [placeBlocks, run_bind, run_get, added]
  rfl

theorem placeBlocks_ok (done : run placeBlocks s = (.ok (), t)) :
    ∃ p, Placed.addAll { entries := s.routine.entries } (placementOrder s.routine.blocks) =
        (.ok (), p) ∧
      t = { s with routine := { s.routine with
        entries := p.entries, blocks := markPlaced p.keys s.routine.blocks, code := p.code } } := by
  rcases added : Placed.addAll { entries := s.routine.entries } (placementOrder s.routine.blocks)
    with ⟨failure | ⟨⟩, p⟩
  · have fails : (run placeBlocks s).1 = .error failure := by
      simp only [placeBlocks, run_bind, run_get, added]
      rfl
    simp [done] at fails
  · exact ⟨p, rfl, congrArg Prod.snd (done.symm.trans (run_placeBlocks added))⟩

/-- Arranging that succeeds forms blocks, adds edges to the instructions and lays the merged
blocks out. -/
theorem arrange_ok (arranged : run arrange s = (.ok (), t)) :
    ∃ formed entries p, run formBlocks s = (.ok (), formed) ∧
      addEdges formed.routine.entries (edges formed.routine) = (true, entries) ∧
      Placed.addAll { entries } (placementOrder (mergeAll formed.routine.blocks).2) = (.ok (), p) ∧
      t = { formed with routine := { formed.routine with
        entries := p.entries, code := p.code
        blocks := markPlaced p.keys (mergeAll formed.routine.blocks).2 } } := by
  obtain ⟨_, formed, forming, arranged⟩ := run_bind_ok arranged
  obtain ⟨_, linkedState, linking, arranged⟩ := run_bind_ok arranged
  obtain ⟨_, merged, merging, placing⟩ := run_bind_ok arranged
  obtain ⟨entries, added, rfl⟩ := linkInstrs_ok linking
  obtain rfl := mergeBlocks_ok merging
  obtain ⟨p, placed, rfl⟩ := placeBlocks_ok (run_within_ok placing)
  exact ⟨formed, entries, p, run_within_ok forming, added, placed, rfl⟩

/-- Nothing else is needed for arranging to succeed. -/
theorem run_arrange {entries : Array Entry} {p : Placed} (formed : run formBlocks s = (.ok (), t))
    (added : addEdges t.routine.entries (edges t.routine) = (true, entries))
    (placed : Placed.addAll { entries } (placementOrder (mergeAll t.routine.blocks).2) =
      (.ok (), p)) :
    run arrange s = (.ok (), { t with routine := { t.routine with
      entries := p.entries, code := p.code
      blocks := markPlaced p.keys (mergeAll t.routine.blocks).2 } }) := by
  have linking : run linkInstrs t =
      (.ok (), { t with routine := { t.routine with entries := entries } }) := by
    rw [run_linkInstrs, added]
    rfl
  have merging : run mergeBlocks { t with routine := { t.routine with entries := entries } } =
      (.ok (mergeAll t.routine.blocks).1, { t with routine := { t.routine with
        entries := entries, blocks := (mergeAll t.routine.blocks).2 } }) := rfl
  have placing : run placeBlocks { t with routine := { t.routine with
      entries := entries, blocks := (mergeAll t.routine.blocks).2 } } = _ := run_placeBlocks placed
  simp only [arrange, run_bind, run_within, formed, linking, merging, placing, Except.mapError]

end Codegen.Flow
