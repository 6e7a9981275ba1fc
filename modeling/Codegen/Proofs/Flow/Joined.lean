import Codegen.Proofs.Flow.Forming
import Codegen.Proofs.Flow.Layout

/-! Laid-out code is made of the blocks that were formed, one after the other, some of them
without a last jump to the next one. So it does what they do, like the code that they were
cut of. -/
namespace Codegen.Flow

open Run

variable {pieces : List Piece} {lines whole before : List Line} {entries : Array Entry}

/-- Blocks one after the other, without some of the jumps to the next one. -/
inductive Joined : List Piece → List Line → Prop
  | nil : Joined [] []
  | whole (p : Piece) {pieces : List Piece} {lines : List Line} (joined : Joined pieces lines) :
      Joined (p :: pieces) (p.lines ++ lines)
  | dropped {p q : Piece} {pieces : List Piece} {init lines : List Line} {last : Line}
      (split : p.lines = init ++ [last]) (jump : last.instr.control = .jump q.label)
      (joined : Joined (q :: pieces) lines) : Joined (p :: q :: pieces) (init ++ lines)

theorem Joined.wholes {more : List Piece} (joined : Joined more lines) (pieces : List Piece) :
    Joined (pieces ++ more) (pieces.flatMap Piece.lines ++ lines) := by
  induction pieces with
  | nil => exact joined
  | cons p pieces ih =>
    rw [List.flatMap_cons, List.append_assoc]
    exact .whole p ih

/-- The labels of joined blocks are theirs, in order. -/
theorem Joined.defined (joined : Joined pieces lines) (headed : ∀ p ∈ pieces, p.Headed) :
    defined lines = pieces.map Piece.label := by
  induction joined with
  | nil => rfl
  | whole p joined ih =>
    obtain ⟨head, headed⟩ := List.forall_mem_cons.mp headed
    rw [defined_append, head.defined, ih headed]
    rfl
  | @dropped p q pieces init lines last split jump joined ih =>
    obtain ⟨head, headed⟩ := List.forall_mem_cons.mp headed
    have none : Run.defined [last] = [] := by
      simp [Run.defined, Instr.labelName?, jump]
    have kept : Run.defined init = [p.label] := by
      rw [← head.defined, split, defined_append, none, List.append_nil]
    rw [defined_append, kept, ih headed]
    rfl

theorem follows_closed {enter : Bytes → Option (List Line)} {body : List Line}
    (closed : Closed body) (rest : List Line) : Follows enter (body ++ rest) body := by
  induction body with
  | nil =>
    obtain ⟨init, last, empty, _⟩ := closed
    simp at empty
  | cons line body ih =>
    rcases closed_cons.mp closed with ⟨rfl, transfers⟩ | later
    · exact .transfer line rest transfers
    · exact .same line (ih later)

theorem follows_dropped {enter : Bytes → Option (List Line)} {line last : Line} {label : Bytes}
    {rest : List Line} (labelled : line.instr.control = .label label)
    (jump : last.instr.control = .jump label) (entered : enter label = some rest)
    (body : List Line) : Follows enter (body ++ line :: rest) (body ++ [last]) := by
  induction body with
  | nil => exact .fallThrough labelled jump entered
  | cons first body ih => exact .same first ih

/-- Where a block starts stands its label, and then what does as the block does. -/
theorem Joined.follows (joined : Joined pieces lines) (headed : ∀ p ∈ pieces, p.Headed)
    (closed : ∀ p ∈ pieces, Closed p.lines) (part : whole = before ++ lines)
    (unique : (Run.defined whole).Nodup) : ∀ p ∈ pieces.head?, ∃ line rest, lines = line :: rest ∧
      line.instr.control = .label p.label ∧ Follows (after? · whole) rest p.lines.tail := by
  induction joined generalizing before with
  | nil => simp
  | @whole p pieces lines joined ih =>
    rintro _ ⟨⟩
    obtain ⟨line, body, split, label, _⟩ := headed p (List.mem_cons_self ..)
    have inner : Closed body := by
      have closed := closed p (List.mem_cons_self ..)
      rw [split] at closed
      rcases closed_cons.mp closed with ⟨_, transfers⟩ | inner
      · simp [Instr.transfers, label] at transfers
      · exact inner
    refine ⟨line, body ++ lines, by rw [split, List.cons_append], label, ?_⟩
    rw [split]
    exact follows_closed inner lines
  | @dropped p q pieces init lines last split jump joined ih =>
    rintro _ ⟨⟩
    have further : whole = (before ++ init) ++ lines := by rw [part, List.append_assoc]
    obtain ⟨next, rest, rfl, labelled, _⟩ := ih (List.forall_mem_cons.mp headed).2
      (List.forall_mem_cons.mp closed).2 further q rfl
    obtain ⟨line, body, split', label, _⟩ := headed p (List.mem_cons_self ..)
    cases init with
    | nil =>
      -- A block that is only a jump has no label.
      cases split.symm.trans split'
      simp [jump] at label
    | cons first init =>
      rw [split] at split' ⊢
      cases split'
      refine ⟨line, init ++ next :: rest, rfl, label, ?_⟩
      subst further
      exact follows_dropped labelled jump (after?_unique labelled unique) init

/-- At the label of each block stands what does as the block. -/
theorem Joined.entered (joined : Joined pieces lines) (headed : ∀ p ∈ pieces, p.Headed)
    (closed : ∀ p ∈ pieces, Closed p.lines) (part : whole = before ++ lines)
    (unique : (Run.defined whole).Nodup) : ∀ p ∈ pieces, ∃ rest,
      after? p.label whole = some rest ∧ Follows (after? · whole) rest p.lines.tail := by
  have first {p : Piece} {pieces : List Piece} {before lines : List Line}
      (joined : Joined (p :: pieces) lines) (headed : ∀ q ∈ p :: pieces, q.Headed)
      (closed : ∀ q ∈ p :: pieces, Closed q.lines) (part : whole = before ++ lines) :
      ∃ rest, after? p.label whole = some rest ∧ Follows (after? · whole) rest p.lines.tail := by
    obtain ⟨line, rest, rfl, labelled, follows⟩ := joined.follows headed closed part unique p rfl
    exact ⟨rest, by rw [part] at unique ⊢; exact after?_unique labelled unique, follows⟩
  induction joined generalizing before with
  | nil => simp
  | whole p joined ih =>
    refine List.forall_mem_cons.mpr ⟨first (.whole p joined) headed closed part, ?_⟩
    rw [← List.append_assoc] at part
    exact ih (List.forall_mem_cons.mp headed).2 (List.forall_mem_cons.mp closed).2 part
  | dropped split jump joined ih =>
    refine List.forall_mem_cons.mpr ⟨first (.dropped split jump joined) headed closed part, ?_⟩
    rw [← List.append_assoc] at part
    exact ih (List.forall_mem_cons.mp headed).2 (List.forall_mem_cons.mp closed).2 part

theorem Joined.covers (joined : Joined pieces lines) (headed : ∀ p ∈ pieces, p.Headed)
    (closed : ∀ p ∈ pieces, Closed p.lines) (distinct : (pieces.map Piece.label).Nodup) :
    Covers (after? · lines) (bodyOf pieces) := by
  have defined := joined.defined headed
  have unique : (Run.defined lines).Nodup := defined ▸ distinct
  intro label rest found
  obtain ⟨before, line, split, labelled⟩ := after?_split found
  have member : label ∈ pieces.map Piece.label := by
    rw [← defined, split]
    exact List.mem_filterMap.mpr ⟨line, by simp, Instr.labelName?_eq_some.mpr labelled⟩
  obtain ⟨p, inside, rfl⟩ := List.mem_map.mp member
  obtain ⟨rest', found', follows⟩ :=
    joined.entered headed closed (List.nil_append lines).symm unique p inside
  cases found.symm.trans found'
  exact ⟨_, bodyOf_eq_some distinct inside, follows⟩

/-- Joined blocks run in step with the blocks. -/
theorem Joined.runFrom_eq {σ : Type} {m : Meaning σ} (joined : Joined pieces lines)
    (headed : ∀ p ∈ pieces, p.Headed) (closed : ∀ p ∈ pieces, Closed p.lines)
    (distinct : (pieces.map Piece.label).Nodup) {p : Piece} (inside : p ∈ pieces) (n : Nat) (s : σ) :
    runFrom m lines p.label n s = Run.run m (bodyOf pieces) n p.lines.tail s := by
  have defined := joined.defined headed
  obtain ⟨rest, entered, follows⟩ := joined.entered headed closed (List.nil_append lines).symm
    (defined ▸ distinct) p inside
  have stays : ∀ k target, (Run.run m (after? · lines) k rest s).ending = some (.left target) →
      bodyOf pieces target = none := by
    intro k target left
    have absent := (run_left (after?_subset entered) (fun _ _ => after?_subset) left).1
    exact bodyOf_eq_none (defined ▸ after?_eq_none.mp absent)
  simp only [runFrom, goTo, entered]
  exact run_follows (joined.covers headed closed distinct) n follows s stays

/-- Joined blocks leave only by labels that none of them has. -/
theorem Joined.left_absent {σ : Type} {m : Meaning σ} (joined : Joined pieces lines)
    (headed : ∀ p ∈ pieces, p.Headed) {label target : Bytes} {n : Nat} {s : σ}
    (left : (runFrom m lines label n s).ending = some (.left target)) :
    target ∉ pieces.map Piece.label := by
  rw [← joined.defined headed, ← after?_eq_none]
  simp only [runFrom, goTo] at left
  split at left
  next rest entered =>
    exact (run_left (after?_subset entered) (fun _ _ => after?_subset) left).1
  next absent =>
    cases left
    exact absent

theorem linesOf_flatMap (entries : Array Entry) (blocks : List Block) :
    linesOf entries (blocks.flatMap Block.code) =
      (blocks.map (pieceOf entries)).flatMap Piece.lines := by
  induction blocks with
  | nil => rfl
  | cons b blocks ih =>
    rw [List.flatMap_cons, linesOf_append, ih]
    rfl

section Placed

variable {s t : State} {merged : List Block} {parts : Nat → List Block} {b : Block}

/-- The last block in a merged one, and where its code ends. -/
theorem Formed.last_part (formed : Formed s t) (whole : Parts t.routine.blocks merged parts)
    (member : b ∈ merged) : ∃ init p code last line, parts b.key = init ++ [p] ∧
      p.code = code ++ [last] ∧ lineAt? t.routine.entries last = some line := by
  have nonempty : parts b.key ≠ [] := by
    intro empty
    simpa [empty] using whole.label b member
  obtain ⟨init, p, split⟩ := (List.eq_nil_or_concat (parts b.key)).resolve_left nonempty
  rw [List.concat_eq_append] at split
  have inside : p ∈ t.routine.blocks := by
    refine whole.perm.mem_iff.mp (List.mem_flatMap_of_mem (List.mem_map_of_mem member) ?_)
    simp [split]
  obtain ⟨i, rest, _, starts, _⟩ := formed.starts inside
  obtain ⟨code, last, ends⟩ := (List.eq_nil_or_concat p.code).resolve_left (by simp [starts])
  rw [List.concat_eq_append] at ends
  obtain ⟨line, found⟩ := formed.present inside last (by simp [ends])
  exact ⟨init, p, code, last, line, split, ends, found⟩

theorem Parts.joined_whole (whole : Parts t.routine.blocks merged parts) (member : b ∈ merged)
    (joined : Joined pieces lines) :
    Joined ((parts b.key).map (pieceOf entries) ++ pieces) (linesOf entries b.code ++ lines) := by
  rw [whole.code b member, linesOf_flatMap]
  exact joined.wholes _

theorem Formed.joined_dropped (formed : Formed s t)
    (whole : Parts t.routine.blocks merged parts) (member : b ∈ merged) {q : Piece}
    (jump : lastControl? t.routine.entries b = some (.jump q.label))
    (joined : Joined (q :: pieces) lines) :
    Joined ((parts b.key).map (pieceOf t.routine.entries) ++ q :: pieces)
      (linesOf t.routine.entries b.code.dropLast ++ lines) := by
  obtain ⟨init, p, code, last, line, split, ends, found⟩ := formed.last_part whole member
  have whole : b.code = (init.flatMap Block.code ++ code) ++ [last] := by
    rw [whole.code b member, split]
    simp [ends]
  have jump : line.instr.control = .jump q.label := by
    simpa [lastControl?, Block.last?, whole, found] using jump
  have lines : (pieceOf t.routine.entries p).lines = linesOf t.routine.entries code ++ [line] := by
    rw [pieceOf, ends, linesOf_append, linesOf_cons [] found, linesOf_nil]
  rw [whole, List.dropLast_concat, split, List.map_append, List.append_assoc, linesOf_append,
    List.append_assoc, linesOf_flatMap]
  exact (Joined.dropped lines jump joined).wholes _

/-- Blocks that are placed in a chain are joined. -/
theorem Formed.joined (formed : Formed s t) (whole : Parts t.routine.blocks merged parts)
    {placed : List Placement} (chained : Chained placed) (inside : ∀ p ∈ placed, p.block ∈ merged) :
    Joined ((placed.flatMap fun p => parts p.block.key).map (pieceOf t.routine.entries))
      (linesOf t.routine.entries (placed.flatMap (trimmed t.routine.entries))) := by
  induction chained with
  | nil => exact .nil
  | waits b chained ih =>
    obtain ⟨member, inside⟩ := List.forall_mem_cons.mp inside
    rw [List.flatMap_cons, List.flatMap_cons, List.map_append, linesOf_append]
    exact whole.joined_whole member (ih inside)
  | @runsInto b next further placed chained ih =>
    obtain ⟨member, inside⟩ := List.forall_mem_cons.mp inside
    have joined := ih inside
    have first : ∃ q pieces, ((⟨next, further⟩ :: placed).flatMap fun p => parts p.block.key).map
        (pieceOf t.routine.entries) = q :: pieces ∧ q.label = next.label := by
      obtain ⟨q, head, label⟩ := Option.map_eq_some_iff.mp
        (whole.label next (inside _ (List.mem_cons_self ..)))
      obtain ⟨others, parts'⟩ := List.head?_eq_some_iff.mp head
      simp only [List.flatMap_cons, parts', List.cons_append, List.map_cons]
      exact ⟨_, _, rfl, label⟩
    generalize (⟨next, further⟩ :: placed : List Placement) = rest at joined first
    obtain ⟨q, pieces, shape, label⟩ := first
    rw [List.flatMap_cons, List.flatMap_cons, List.map_append, linesOf_append]
    simp only [trimmed]
    split
    next jump =>
      rw [shape] at joined ⊢
      exact formed.joined_dropped whole member (label ▸ jump) joined
    next => exact whole.joined_whole member joined

end Placed

end Codegen.Flow
