import Codegen.Proofs.Flow.Joined
import Codegen.Proofs.Select.Gen

/-! Arranged code runs in step with the code that it was made of: both do as the blocks do
that were formed. The one thing that can go wrong is a jump to a label that the code does
not have but that was made up for one of its blocks. -/
namespace Codegen.Flow

open Run

variable {σ : Type} {m : Meaning σ} {endLabel label : Bytes} {n : Nat} {code rest : List Line}
  {pieces : List Piece}

/-- Where code can be entered, by which label: after each of its labels, and where it starts
without one by the label that is made up there. -/
inductive Entrance (labels : Nat) (code : List Line) : Bytes → List Line → Prop
  | atLabel (before : List Line) (line : Line) {rest : List Line} {name : Bytes}
      (split : code = before ++ line :: rest) (labelled : line.instr.control = .label name) :
      Entrance labels code name rest
  | atStart (line : Line) (rest : List Line) (starts : code = line :: rest)
      (unlabelled : ∀ name, line.instr.control ≠ .label name) :
      Entrance labels code (madeUpLabel labels) code

theorem Entrance.unmarked (entrance : Entrance n code label rest) :
    Entrance n (code.map Line.unmarked) label (rest.map Line.unmarked) := by
  cases entrance with
  | atLabel before line split labelled =>
    refine .atLabel (before.map Line.unmarked) line.unmarked ?_ ?_
    · rw [split, List.map_append, List.map_cons]
    · simpa [Line.unmarked] using labelled
  | atStart line rest starts unlabelled =>
    refine .atStart line.unmarked (rest.map Line.unmarked) ?_ ?_
    · rw [starts, List.map_cons]
    · simpa [Line.unmarked] using unlabelled

theorem Entrance.subset (entrance : Entrance n code label rest) : rest ⊆ code := by
  cases entrance with
  | atLabel before line split labelled =>
    rw [split]
    exact fun x inside => List.mem_append_right _ (List.mem_cons_of_mem _ inside)
  | atStart => exact List.Subset.refl code

theorem Cutting.covers (cut : Cutting endLabel n code none pieces) (closed : Closed code)
    (distinct : (pieces.map Piece.label).Nodup) : Covers (after? · code) (bodyOf pieces) := by
  intro label rest found
  obtain ⟨before, line, split, labelled⟩ := after?_split found
  obtain ⟨p, inside, rfl, follows⟩ := cut.entered (List.nil_append code).symm
    (distinct.sublist cut.defined_sublist) closed split labelled
  exact ⟨_, bodyOf_eq_some distinct inside, follows⟩

theorem Cutting.entrance (cut : Cutting endLabel n code none pieces) (closed : Closed code)
    (distinct : (pieces.map Piece.label).Nodup) (entrance : Entrance n code label rest) :
    ∃ p ∈ pieces, p.label = label ∧ Follows (after? · code) rest p.lines.tail := by
  have unique := distinct.sublist cut.defined_sublist
  cases entrance with
  | atLabel before line split labelled =>
    exact cut.entered (List.nil_append code).symm unique closed split labelled
  | atStart line rest starts unlabelled =>
    subst starts
    cases cut with
    | atLabel _ labelled => exact absurd labelled (unlabelled _)
    | madeUp i _ cut =>
      refine ⟨_, List.mem_cons_self .., rfl, ?_⟩
      exact cut.follows (List.nil_append _).symm unique closed _ rfl

/-- Code runs in step with the blocks that it is cut into, unless it jumps to a label that
only a block has. -/
theorem Cutting.runCode_eq (cut : Cutting endLabel n code none pieces) (closed : Closed code)
    (distinct : (pieces.map Piece.label).Nodup) {p : Piece}
    (follows : Follows (after? · code) rest p.lines.tail) (start : σ)
    (stays : ∀ k target, (runCode m code k rest start).ending = some (.left target) →
      target ∉ pieces.map Piece.label) (k : Nat) :
    runCode m code k rest start = Run.run m (bodyOf pieces) k p.lines.tail start :=
  run_follows (cut.covers closed distinct) k follows start fun k target left =>
    bodyOf_eq_none (stays k target left)

/-- The labels of blocks are those of the code, and made up ones. -/
theorem Cutting.labels {tail : Option Tail} (cut : Cutting endLabel n code tail pieces) :
    ∀ p ∈ pieces, p.label ∈ defined code ∨ ∃ k, p.label = madeUpLabel k := by
  induction cut with
  | finished | leaves => simp
  | atLabel line labelled cut ih =>
    have name := Instr.labelName?_eq_some.mpr labelled
    refine List.forall_mem_cons.mpr ⟨.inl (by simp [defined, name]), fun p inside => ?_⟩
    exact (ih p inside).imp_left (mem_defined_cons line)
  | madeUp i unlabelled cut ih => exact List.forall_mem_cons.mpr ⟨.inr ⟨_, rfl⟩, ih⟩
  | runsInto i labelled cut ih => exact ih
  | ends line last cut ih => exact fun p inside => (ih p inside).imp_left (mem_defined_cons line)
  | goesOn unlabelled inner cut ih =>
    exact fun p inside => (ih p inside).imp_left (mem_defined_cons _)

/-- The end label of a function is never made up: numbers do not end in a letter. -/
theorem madeUpLabel_ne (name : Bytes) (k : Nat) : madeUpLabel k ≠ name ++ ascii "_end" := by
  intro same
  obtain ⟨digits, last, split⟩ :=
    (List.eq_nil_or_concat (Nat.toDigits 10 k)).resolve_left Nat.toDigits_ne_nil
  rw [List.concat_eq_append] at split
  have inside : last ∈ Nat.toDigits 10 k := by simp [split]
  have digit := Nat.isDigit_of_mem_toDigits (by decide) (by decide) inside
  have ends : last.toNat.toUInt8 = 100 := by
    have letter : ascii "_end" = ascii "_en" ++ [100] := by decide
    rw [madeUpLabel, decimal, split, letter, List.map_append, List.map_singleton,
      ← List.append_assoc, ← List.append_assoc] at same
    exact List.head_eq_of_cons_eq (List.append_inj' same rfl).2
  have value := congrArg UInt8.toNat ends
  simp only [Char.isDigit, Bool.and_eq_true, decide_eq_true_eq] at digit
  have bound : last.toNat ≤ 57 := digit.2
  simp at value
  omega

/-- Code and its blocks, joined in any order, run in step from every entrance exactly if the
code does not leave by a label other than the end label. -/
theorem Cutting.runFrom_joined_iff (cut : Cutting endLabel n code none pieces)
    (closed : Closed code) (distinct : (pieces.map Piece.label).Nodup)
    (defined : ∀ p ∈ pieces, ∀ target ∈ p.jumpTo, target ≠ endLabel →
      target ∈ pieces.map Piece.label)
    (apart : ∀ k, madeUpLabel k ≠ endLabel) {order : List Piece} {lines : List Line}
    (perm : order.Perm pieces) (joined : Joined order lines)
    (entrance : Entrance n code label rest) (start : σ) :
    (∀ k, runFrom m lines label k start = runCode m code k rest start) ↔
      ∀ k target, (runCode m code k rest start).ending = some (.left target) →
        target = endLabel := by
  have headed : ∀ p ∈ order, p.Headed := fun p inside => cut.headed.2 p (perm.mem_iff.mp inside)
  have closedPieces : ∀ p ∈ order, Closed p.lines :=
    fun p inside => cut.closed.2 (.inr closed) p (perm.mem_iff.mp inside)
  have distinct' := (perm.map Piece.label).nodup_iff.mpr distinct
  have leaves {k : Nat} {target : Bytes}
      (left : (runCode m code k rest start).ending = some (.left target)) :=
    run_left entrance.subset (fun _ _ => after?_subset) left
  obtain ⟨p, inside, rfl, follows⟩ := cut.entrance closed distinct entrance
  constructor
  · intro same k target left
    by_contra other
    obtain ⟨_, line, member, goes⟩ := leaves left
    rcases cut.targets member goes with ⟨_, ⟨⟩, _⟩ | ⟨q, inQ, goes⟩
    rw [← same k] at left
    refine joined.left_absent headed left ?_
    exact (perm.map Piece.label).mem_iff.mpr (defined q inQ target goes other)
  · intro stays k
    rw [joined.runFrom_eq headed closedPieces distinct' (perm.mem_iff.mpr inside),
      bodyOf_perm distinct perm]
    refine (cut.runCode_eq closed distinct follows start ?_ k).symm
    intro k target left member
    obtain ⟨q, inQ, same⟩ := List.mem_map.mp member
    rcases cut.labels q inQ with there | ⟨j, made⟩
    · exact after?_eq_none.mp (leaves left).1 (same ▸ there)
    · exact apart j (by rw [← made, same, stays k target left])

variable {s t u : State}

/-- The lines of a routine are those that its blocks are cut of. -/
theorem Formed.lines (formed : Formed s t)
    (present : ∀ i ∈ s.routine.code, ∃ e, s.routine.entries[i]? = some e) :
    s.routine.lines.map Line.unmarked = linesOf t.routine.entries s.routine.code := by
  rw [lines_unmarked, formed.keeps.linesOf present]

/-- The lines of an arranged routine are joined blocks. -/
theorem Formed.arranged_lines (formed : Formed s t)
    (lines : SameLines t.routine.entries u.routine.entries)
    (code : u.routine.code = (placementOrder (mergeAll t.routine.blocks).2).flatMap
      (trimmed t.routine.entries)) :
    ∃ pieces, pieces.Perm (t.routine.blocks.map (pieceOf t.routine.entries)) ∧
      Joined pieces (u.routine.lines.map Line.unmarked) := by
  obtain ⟨parts, whole⟩ := formed.wired.mergeAll_parts
  have perm := placementOrder_perm formed.wired.after_mergeAll.keys
  rw [lines_unmarked, lines.linesOf, code]
  refine ⟨_, List.Perm.map _ ?_, formed.joined whole (chained_placementOrder _) fun p inside =>
    perm.mem_iff.mp (List.mem_map_of_mem inside)⟩
  refine .trans ?_ whole.perm
  have keys := (perm.map Block.key).flatMap_right parts
  rwa [List.map_map, List.flatMap_map] at keys

theorem closed_lines {r : Routine} {last : Nat} {x : Instr} (ends : r.code.getLast? = some last)
    (instr : r.instr? last = some x) (transfers : x.transfers = true) : Closed r.lines := by
  obtain ⟨init, code⟩ := List.getLast?_eq_some_iff.mp ends
  refine ⟨init.filterMap fun i => (r.instr? i).map (Line.mk i), ⟨last, x⟩, ?_, transfers⟩
  rw [Routine.lines, code, List.filterMap_append]
  simp [instr]

/-- Arranging keeps the meaning of code that does not run off its end, from every entrance
and state, exactly if a run does not leave by a label other than the end label. -/
theorem runFrom_arrange_iff (m : Meaning σ) {options : Select.Options} {f : Func} {r : Routine}
    {labels last : Nat} {x : Instr} (generated : Select.generateFunc options f = .ok r)
    (ends : r.code.getLast? = some last) (instr : r.instr? last = some x)
    (transfers : x.transfers = true) (arranged : Flow.run arrange ⟨labels, r⟩ = (.ok (), u))
    (entrance : Entrance labels r.lines label rest) (start : σ) :
    (∀ k, runFrom m u.routine.lines label k start = runCode m r.lines k rest start) ↔
      ∀ k target, (runCode m r.lines k rest start).ending = some (.left target) →
        target = r.endLabel := by
  have closed := closed_lines ends instr transfers
  obtain ⟨t, formed, lines, code⟩ := arrange_code arranged
  have formed := formed_of_run formed
  obtain ⟨pieces, perm, joined⟩ := formed.arranged_lines lines code
  have present : ∀ i ∈ r.code, ∃ e, r.entries[i]? = some e := by
    intro i inside
    rw [Select.generateFunc_code generated, List.mem_range] at inside
    exact ⟨_, Array.getElem?_eq_getElem inside⟩
  have cut := formed.cutting
  rw [← formed.lines present] at cut
  have names : (t.routine.blocks.map (pieceOf t.routine.entries)).map Piece.label =
      t.routine.blocks.map Block.label := List.map_map
  have distinct := names ▸ formed.labels
  have defined : ∀ p ∈ t.routine.blocks.map (pieceOf t.routine.entries), ∀ target ∈ p.jumpTo,
      target ≠ r.endLabel →
        target ∈ (t.routine.blocks.map (pieceOf t.routine.entries)).map Piece.label := by
    rw [names]
    exact List.forall_mem_map.mpr formed.jumpTo
  have apart (k : Nat) : madeUpLabel k ≠ r.endLabel := by
    rw [Select.generateFunc_endLabel generated]
    exact madeUpLabel_ne f.name k
  have iff := cut.runFrom_joined_iff (m := m) closed.unmarked distinct defined apart perm joined
    entrance.unmarked start
  simpa only [runFrom_unmarked, runCode_unmarked] using iff

/-- Counts the plain instructions, and conditions hold until there have been three. -/
def counting : Meaning Nat :=
  { effect := fun _ n => n + 1, holds := fun _ n => n < 3 }

def countingLoop : Func :=
  { name := ascii "f"
    body := [.jump (ascii "B"), .label (ascii "C"), .ret .missing, .label (ascii "B"),
      .assign (.var (some ⟨.global 0, ascii "x"⟩)) (.const 1),
      .branch (.const 1) (ascii "B") (ascii "C")] }

def countingRoutine : Routine :=
  Select.routine countingLoop { objects := 1, code :=
    #[.jump (ascii "B"), .label (ascii "C"), .ret .absent, .label (ascii "B"),
      .move (.cell 0 ⟨.global 0, ascii "x"⟩) (.imm 1),
      .branch (.imm 1) (ascii "B") (ascii "C") []] }

theorem runFrom_arrange_counting : ∃ u,
    Select.generateFunc {} countingLoop = .ok countingRoutine ∧
    Flow.run arrange ⟨0, countingRoutine⟩ = (.ok (), u) ∧
    ∀ k, runFrom counting u.routine.lines (madeUpLabel 0) k 0 =
      runCode counting countingRoutine.lines k countingRoutine.lines 0 := by
  have generated : Select.generateFunc {} countingLoop = .ok countingRoutine := by cbv
  have ends : countingRoutine.code.getLast? = some 5 := by cbv
  have instr : countingRoutine.instr? 5 = some (.branch (.imm 1) (ascii "B") (ascii "C") []) := by
    cbv
  have arranged : Flow.run arrange ⟨0, countingRoutine⟩ =
    (.ok (), (Flow.run arrange ⟨0, countingRoutine⟩).2) := by cbv
  have lines : countingRoutine.lines = [⟨0, .jump (ascii "B")⟩, ⟨1, .label (ascii "C")⟩,
    ⟨2, .ret .absent⟩, ⟨3, .label (ascii "B")⟩,
    ⟨4, .move (.cell 0 ⟨.global 0, ascii "x"⟩) (.imm 1)⟩,
    ⟨5, .branch (.imm 1) (ascii "B") (ascii "C") []⟩] := by cbv
  have entrance : Entrance 0 countingRoutine.lines (madeUpLabel 0) countingRoutine.lines :=
    .atStart _ _ lines (by simp [Instr.control])
  refine ⟨_, generated, arranged, ?_⟩
  refine (runFrom_arrange_iff counting generated ends instr rfl arranged entrance 0).mpr ?_
  intro k target left
  -- Both labels that the code jumps to are there.
  obtain ⟨absent, line, member, goes⟩ := run_left entrance.subset (fun _ _ => after?_subset) left
  have target : target = ascii "B" ∨ target = ascii "C" := by
    rw [lines] at member
    simp only [List.mem_cons, List.not_mem_nil, or_false] at member
    rcases member with rfl | rfl | rfl | rfl | rfl | rfl <;> simp_all [Instr.targets]
  rw [lines] at absent
  rcases target with rfl | rfl <;> exact absurd absent (by decide)

/-- A jump to the label that is made up for the block it stands in. -/
def straying : Func :=
  { name := ascii "f"
    body := [.assign (.var (some ⟨.global 0, ascii "x"⟩)) (.const 1), .jump (madeUpLabel 0)] }

def strayingRoutine : Routine :=
  Select.routine straying { objects := 1, code :=
    #[.move (.cell 0 ⟨.global 0, ascii "x"⟩) (.imm 1), .jump (madeUpLabel 0)] }

/-- It leaves the code by that label, but stays in the arranged code. -/
theorem runFrom_arrange_straying : ∃ u,
    Select.generateFunc {} straying = .ok strayingRoutine ∧
    Flow.run arrange ⟨0, strayingRoutine⟩ = (.ok (), u) ∧
    Entrance 0 strayingRoutine.lines (madeUpLabel 0) strayingRoutine.lines ∧
    (runCode counting strayingRoutine.lines 3 strayingRoutine.lines 0).ending =
      some (.left (madeUpLabel 0)) ∧
    (runFrom counting u.routine.lines (madeUpLabel 0) 3 0).ending = none := by
  have lines : strayingRoutine.lines = [⟨0, .move (.cell 0 ⟨.global 0, ascii "x"⟩) (.imm 1)⟩,
    ⟨1, .jump (madeUpLabel 0)⟩] := by cbv
  refine ⟨_, ?_, Prod.ext ?_ rfl, .atStart _ _ lines (by simp [Instr.control]), ?_, ?_⟩ <;> cbv

end Codegen.Flow
