import Codegen.Proofs.Flow.Cutting

/-! Blocks are numbered in the order of the code, and no instruction comes into them twice.
Both are kept by each thing that placing an instruction does. -/
namespace Codegen.Flow.Cut

variable {c c' : Cut} {b : Block} {i first : Nat} {x : Instr} {name : Bytes} {code rest : List Nat}

def all (c : Cut) : List Block :=
  c.done.reverse ++ c.current.toList

def positions (c : Cut) : List Nat :=
  c.all.flatMap Block.code

structure Numbered (first : Nat) (c : Cut) : Prop where
  numbers : c.all.map (fun b => (b.key, b.id)) =
    (List.range c.all.length).map fun k => (k, ((first + k : Nat) : Int))
  next : c.nextBlock = first + c.all.length

theorem Numbered.same (numbered : c.Numbered first)
    (numbers : c'.all.map (fun b => (b.key, b.id)) = c.all.map fun b => (b.key, b.id))
    (next : c'.nextBlock = c.nextBlock) : c'.Numbered first := by
  have length : c'.all.length = c.all.length := by simpa using congrArg List.length numbers
  exact ⟨by rw [numbers, numbered.numbers, length], by rw [next, numbered.next, length]⟩

theorem Numbered.more (numbered : c.Numbered first) (grown : c'.all = c.all ++ [b])
    (key : b.key = c.all.length) (id : b.id = c.nextBlock) (next : c'.nextBlock = c.nextBlock + 1) :
    c'.Numbered first := by
  constructor
  · simp [grown, List.range_succ, numbered.numbers, key, id, numbered.next]
  · simp [grown, next, numbered.next, Nat.add_assoc]

theorem numbered_place (i : Nat) (x : Instr) (numbered : c.Numbered first) :
    (c.place i x).Numbered first := by
  refine place_induction ?_ ?_ ?_ ?_ numbered
  · intro c b name opened numbered
    refine numbered.same ?_ ?_ <;> simp [all, runInto, opened, alloc, finish]
  · intro c closed numbered
    refine numbered.more (b := c.opened.1) ?_ ?_ ?_ ?_ <;>
      simp [all, reopened, Cut.opened, closed, alloc, newBlock]
  · intro c name closed numbered
    refine numbered.more (b := (c.newBlock name i).1) ?_ ?_ ?_ ?_ <;>
      simp [all, place, runInto, closed, newBlock]
  · intro c b opened unlabelled numbered
    rw [place_inner opened i unlabelled]
    split <;> refine numbered.same ?_ ?_ <;> simp [all, opened, finish]

theorem numbered_placeAll (numbered : c.Numbered first) (placed : c.placeAll code = (true, c')) :
    c'.Numbered first := by
  induction code generalizing c with
  | nil =>
    cases placed
    exact numbered
  | cons i code ih =>
    simp only [placeAll] at placed
    split at placed
    · simp at placed
    · exact ih (numbered_place i _ numbered) placed

/-- A step adds the instruction, after at most new ones. -/
theorem positions_place (c : Cut) (i : Nat) (x : Instr) :
    ∃ k, (c.place i x).entries.size = c.entries.size + k ∧
      (c.place i x).positions = c.positions ++ List.range' c.entries.size k ++ [i] := by
  have adds (d : Cut) (k : Nat) (size : d.entries.size = c.entries.size + k)
      (positions : d.positions = c.positions ++ List.range' c.entries.size k) :
      d.positions ++ [d.entries.size] = c.positions ++ List.range' c.entries.size (k + 1) := by
    rw [positions, size, List.range'_1_concat, List.append_assoc]
  refine place_induction
    (P := fun d => ∃ k, d.entries.size = c.entries.size + k ∧
      d.positions = c.positions ++ List.range' c.entries.size k)
    (Q := fun d => ∃ k, d.entries.size = c.entries.size + k ∧
      d.positions = c.positions ++ List.range' c.entries.size k ++ [i])
    ?_ ?_ ?_ ?_ ⟨0, by simp⟩
  · rintro d b name opened ⟨k, size, before⟩
    refine ⟨k + 1, ?_, ?_⟩
    · simp [runInto, opened, alloc, finish, size, Nat.add_assoc]
    · rw [← adds d k size before]
      simp [positions, all, runInto, opened, alloc, finish]
  · rintro d closed ⟨k, size, before⟩
    refine ⟨k + 1, ?_, ?_⟩
    · simp [reopened, Cut.opened, closed, alloc, newBlock, size, Nat.add_assoc]
    · rw [← adds d k size before]
      simp [positions, all, reopened, Cut.opened, closed, alloc, newBlock]
  · rintro d name closed ⟨k, size, before⟩
    refine ⟨k, by simpa [place, runInto, closed, newBlock] using size, ?_⟩
    rw [← before]
    simp [positions, all, place, runInto, closed, newBlock]
  · rintro d b opened unlabelled ⟨k, size, before⟩
    refine ⟨k, ?_, ?_⟩
    · rw [place_inner opened i unlabelled]
      split <;> exact size
    · rw [← before, place_inner opened i unlabelled]
      split <;> simp [positions, all, opened, finish]

/-- Blocks consist of the code that they are cut of and of new instructions. -/
theorem positions_placeAll (placed : c.placeAll code = (true, c')) :
    ∃ k, c'.entries.size = c.entries.size + k ∧
      c'.positions.Perm (c.positions ++ (code ++ List.range' c.entries.size k)) := by
  induction code generalizing c with
  | nil =>
    cases placed
    exact ⟨0, by simp⟩
  | cons i code ih =>
    simp only [placeAll] at placed
    split at placed
    · simp at placed
    next e found =>
      obtain ⟨k, size, positions⟩ := c.positions_place i e.instr
      obtain ⟨more, size', perm⟩ := ih placed
      refine ⟨k + more, by omega, perm.trans ?_⟩
      rw [positions, size, List.append_assoc, List.append_assoc]
      refine List.Perm.append_left _ ?_
      rw [← List.range'_append_1, List.singleton_append, ← List.cons_append, ← List.append_assoc,
        ← List.append_assoc]
      exact List.perm_append_comm.append_right _

theorem found_of_placeAll (placed : c.placeAll code = (true, c')) :
    ∀ i ∈ code, ∃ e, c'.entries[i]? = some e := by
  induction code generalizing c with
  | nil => simp
  | cons i code ih =>
    simp only [placeAll] at placed
    split at placed
    · simp at placed
    next e found =>
      refine List.forall_mem_cons.mpr ⟨⟨e, ?_⟩, ih placed⟩
      exact (c.keeps_place i e.instr).trans (keeps_placeAll placed) i e found

/-- An instruction that does not end its block stays the last one of the open block. -/
theorem place_open (c : Cut) (i : Nat) (inner : x.endsBlock = false) :
    ∃ b before, (c.place i x).current = some b ∧ b.code = before ++ [i] := by
  refine place_induction (P := fun _ => True)
    (Q := fun d => ∃ b before, d.current = some b ∧ b.code = before ++ [i]) ?_ ?_ ?_ ?_ trivial
  · exact fun _ _ _ _ _ => trivial
  · exact fun _ _ _ => trivial
  · intro d name closed _
    exact ⟨_, [], rfl, rfl⟩
  · intro d b opened unlabelled _
    rw [place_inner opened i unlabelled, inner]
    exact ⟨_, b.code, rfl, rfl⟩

theorem placeAll_concat (placed : c.placeAll (code ++ [i]) = (true, c')) :
    ∃ d e, c.placeAll code = (true, d) ∧ d.entries[i]? = some e ∧ c' = d.place i e.instr := by
  induction code generalizing c with
  | nil =>
    simp only [List.nil_append, placeAll] at placed
    split at placed
    · simp at placed
    next e found =>
      cases placed
      exact ⟨c, e, rfl, found, rfl⟩
  | cons j code ih =>
    simp only [List.cons_append, placeAll] at placed
    split at placed
    · simp at placed
    next e found =>
      obtain ⟨d, last, before, there, rfl⟩ := ih placed
      exact ⟨d, last, by simpa only [placeAll, found] using before, there, rfl⟩

end Codegen.Flow.Cut
