import Codegen.Proofs.Flow.Merging
import Codegen.Proofs.Flow.Numbering
import Codegen.Proofs.Flow.Passes
import Codegen.Proofs.Flow.Pieces

/-! The blocks of a routine, once they are formed, and what is left of that after merges. -/
namespace Codegen.Flow

variable {s t : State}

structure Formed (s t : State) : Prop where
  keeps : Keeps s.routine.entries t.routine.entries
  cutting : Cutting s.routine.endLabel s.labels (linesOf t.routine.entries s.routine.code) none
    (t.routine.blocks.map (pieceOf t.routine.entries))
  first : ∀ i ∈ s.routine.code.head?, ∃ e, s.routine.entries[i]? = some e
  found : ∀ i ∈ s.routine.code, ∃ e, t.routine.entries[i]? = some e
  positions : ∃ k, t.routine.entries.size = s.routine.entries.size + k ∧
    (t.routine.blocks.flatMap Block.code).Perm
      (s.routine.code ++ List.range' s.routine.entries.size k)
  numbers : t.routine.blocks.map (fun b => (b.key, b.id)) =
    (List.range t.routine.blocks.length).map fun k => (k, ((s.routine.nextBlock + k : Nat) : Int))
  labels : (t.routine.blocks.map Block.label).Nodup
  wired : Wired t.routine.blocks
  jumpTo : ∀ b ∈ t.routine.blocks, ∀ label ∈ b.jumpTo, label ≠ s.routine.endLabel →
    label ∈ t.routine.blocks.map Block.label

theorem Cut.blocks_eq (c : Cut) (endLabel : Bytes) {α : Type} {f : Block → α}
    (free : ∀ b jumpTo, f { b with jumpTo := jumpTo } = f b) :
    (c.blocks endLabel).map f = c.all.map f := by
  unfold blocks all
  cases c.current with
  | none => simp
  | some b => simpa [finish] using free b [endLabel]

/-- The code is cut into the blocks that there are in the end. -/
theorem State.cutting {c : Cut} (placed : s.uncut.placeAll s.routine.code = (true, c))
    (endLabel : Bytes) : Cutting endLabel s.labels (linesOf c.entries s.routine.code) none
      ((c.blocks endLabel).map (pieceOf c.entries)) := by
  have cut : Cut.CutFrom endLabel c.entries s.uncut c s.routine.code :=
    Cut.cutFrom_placeAll placed fun _ _ found => found
  simp only [Cut.CutFrom, State.uncut] at cut
  obtain ⟨blocks, same, cutting⟩ := cut
  have same : c.blocks endLabel = blocks := by simpa using same
  exact same ▸ cutting

theorem formed_of_run (formed : run formBlocks s = (.ok (), t)) : Formed s t := by
  obtain ⟨c, blocks, placed, joined, rfl⟩ := formBlocks_ok formed
  have numbered : c.Numbered s.routine.nextBlock :=
    Cut.numbered_placeAll ⟨rfl, rfl⟩ placed
  have numbers : blocks.map (fun b => (b.key, b.id)) = c.all.map fun b => (b.key, b.id) := by
    rw [linked_map joined fun _ _ _ => rfl, Cut.blocks_eq _ _ fun _ _ => rfl]
  have length : blocks.length = c.all.length := by
    simpa using congrArg List.length numbers
  have keys : ((c.blocks s.routine.endLabel).map Block.key).Nodup := by
    have firsts := congrArg (List.map Prod.fst) numbered.numbers
    simp only [List.map_map, Function.comp_def] at firsts
    rw [Cut.blocks_eq _ _ fun _ _ => rfl, firsts]
    simpa using List.nodup_range
  exact {
    keeps := Cut.keeps_placeAll placed
    cutting := by
      have pieces := linked_map (f := pieceOf c.entries) joined fun _ _ _ => rfl
      simpa only [pieces] using s.cutting placed s.routine.endLabel
    first := by
      intro i head
      cases code : s.routine.code with
      | nil => simp [code] at head
      | cons j rest =>
        simp only [code, List.head?_cons, Option.mem_def, Option.some.injEq] at head
        subst head
        simp only [code, Cut.placeAll, State.uncut] at placed
        split at placed
        · simp at placed
        next e found => exact ⟨e, found⟩
    found := Cut.found_of_placeAll placed
    positions := by
      obtain ⟨k, size, perm⟩ := Cut.positions_placeAll placed
      have codes : blocks.map Block.code = c.all.map Block.code := by
        rw [linked_map joined fun _ _ _ => rfl, Cut.blocks_eq _ _ fun _ _ => rfl]
      refine ⟨k, size, ?_⟩
      rw [List.flatMap_def, codes, ← List.flatMap_def]
      exact perm
    numbers := by rw [numbers, numbered.numbers, length]
    labels := by
      rw [linked_map joined fun _ _ _ => rfl]
      exact (linked_ok joined).1
    wired := wired_linked joined keys
    jumpTo := fun b member label goes stays => linked_jumpTo joined member goes stays }

/-- No instruction comes into the blocks twice, if it does not come twice in the code. -/
theorem Formed.nodup_positions (formed : Formed s t)
    (code : s.routine.code = List.range s.routine.entries.size) :
    (t.routine.blocks.flatMap Block.code).Nodup := by
  obtain ⟨k, _, positions⟩ := formed.positions
  have joined := List.range'_append_1 (s := 0) (m := s.routine.entries.size) (n := k)
  rw [code, List.range_eq_range'] at positions
  rw [Nat.zero_add] at joined
  exact positions.nodup_iff.mpr (joined ▸ List.nodup_range')

theorem Formed.present (formed : Formed s t) {b : Block} (member : b ∈ t.routine.blocks) :
    ∀ i ∈ b.code, ∃ line, lineAt? t.routine.entries i = some line := by
  intro i inside
  obtain ⟨k, size, perm⟩ := formed.positions
  have found : ∃ e, t.routine.entries[i]? = some e := by
    rcases List.mem_append.mp (perm.mem_iff.mp (List.mem_flatMap_of_mem member inside)) with
      old | new
    · exact formed.found i old
    · have bound : i < t.routine.entries.size := by
        rw [List.mem_range'_1] at new
        omega
      exact ⟨_, Array.getElem?_eq_getElem bound⟩
  obtain ⟨e, found⟩ := found
  exact ⟨_, by rw [lineAt?, found, Option.map_some]⟩

def Starts (entries : Array Entry) (b : Block) : Prop :=
  ∃ i rest line, b.code = i :: rest ∧ lineAt? entries i = some line ∧
    line.instr.control = .label b.label

theorem Formed.starts (formed : Formed s t) {b : Block} (member : b ∈ t.routine.blocks) :
    Starts t.routine.entries b := by
  obtain ⟨line, body, lines, label, _⟩ := formed.cutting.headed.2 _ (List.mem_map_of_mem member)
  simp only [pieceOf] at lines label
  cases code : b.code with
  | nil => simp [code] at lines
  | cons i rest =>
    obtain ⟨first, found⟩ := formed.present member i (by simp [code])
    rw [code, linesOf_cons rest found] at lines
    cases lines
    exact ⟨i, rest, line, code, found, label⟩

/-- A merged block starts with the label of the first block in it, which is its own. -/
theorem Formed.merged_starts (formed : Formed s t) {b : Block}
    (member : b ∈ (mergeAll t.routine.blocks).2) : Starts t.routine.entries b := by
  obtain ⟨parts, whole⟩ := formed.wired.mergeAll_parts
  obtain ⟨first, head, same⟩ := Option.map_eq_some_iff.mp (whole.label b member)
  have inside : first ∈ t.routine.blocks := by
    refine whole.perm.mem_iff.mp (List.mem_flatMap_of_mem (List.mem_map_of_mem member) ?_)
    exact List.mem_of_mem_head? head
  obtain ⟨i, rest, line, code, found, label⟩ := formed.starts inside
  obtain ⟨others, parts'⟩ := List.head?_eq_some_iff.mp head
  have starts : b.code = i :: (rest ++ others.flatMap Block.code) := by
    rw [whole.code b member, parts', List.flatMap_cons, code, List.cons_append]
  exact ⟨i, _, line, starts, found, same ▸ label⟩

/-- The numbers of blocks rise, also after merges. -/
theorem Formed.rising (formed : Formed s t) :
    (mergeAll t.routine.blocks).2.Pairwise fun x y => x.id < y.id := by
  have ids := congrArg (List.map Prod.snd) formed.numbers
  simp only [List.map_map, Function.comp_def] at ids
  have rising : (t.routine.blocks.map Block.id).Pairwise (· < ·) := by
    rw [ids, List.pairwise_map]
    exact List.pairwise_lt_range.imp fun below => by omega
  exact List.pairwise_map.mp (rising.sublist (formed.wired.mergeAll_sublist merged_id))

/-- Keys and labels stand for the same blocks, also after merges. -/
theorem Formed.merged_label_iff (formed : Formed s t) {b e : Block}
    (member : b ∈ (mergeAll t.routine.blocks).2) (inside : e ∈ t.routine.blocks) :
    b.label = e.label ↔ b.key = e.key := by
  have sublist := formed.wired.mergeAll_sublist (f := fun b => (b.key, b.label)) (by simp)
  obtain ⟨c, before, same⟩ := List.mem_map.mp (sublist.subset (List.mem_map_of_mem member))
  obtain ⟨key, label⟩ := Prod.mk.inj same
  rw [← key, ← label]
  constructor
  · intro same
    rw [List.inj_on_of_nodup_map formed.labels before inside same]
  · intro same
    rw [formed.wired.eq_of_key before inside same]

end Codegen.Flow
