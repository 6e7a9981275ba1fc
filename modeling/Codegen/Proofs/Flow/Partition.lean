import Codegen.Proofs.Flow.Labelling

/-! Blocks are a partition of the code. Each one has its own instructions, in the order of the code,
and around them what is added: a label in front, unless the code has one there, and a jump behind,
where a label of the code cuts the block short. -/
namespace Codegen

theorem Instr.eq_of_unmarked {x y : Instr} (plain : x.isBranch = false) (same : y.unmarked = x) :
    y = x := by
  subst same
  cases y <;> first | rfl | contradiction

def Routine.labelAt (r : Routine) (i : Nat) : Bool :=
  (r.instr? i).any fun x => x.labelName?.isSome

def Routine.jumpAt (r : Routine) (i : Nat) : Bool :=
  (r.instr? i).any Instr.endsBlock

def Block.own (n : Nat) (b : Block) : List Nat :=
  b.code.filter (· < n)

namespace Flow

open Run

inductive Opening (r : Routine) (number : Nat) : List Nat → List Nat → Prop
  | labelled {first : Nat} (own : List Nat) :
      r.labelAt first = true → Opening r number (first :: own) []
  | madeUp {first i : Nat} (own : List Nat) :
      r.labelAt first = false → r.instr? i = some (.label (madeUpLabel number)) →
      Opening r number (first :: own) [i]

/-- What is added behind a block's own instructions: a jump to the next block, if they end without
one because the next block starts with a label of the code. -/
inductive Closing (r : Routine) (n : Nat) : List Nat → Option Block → List Nat → Prop
  | jumps {own : List Nat} (next : Option Block) :
      own.getLast?.any r.jumpAt = true → Closing r n own next []
  | runsInto {own rest : List Nat} {next : Block} {first i : Nat} :
      own.getLast?.any r.jumpAt = false → next.own n = first :: rest → r.labelAt first = true →
      r.instr? i = some (.jump next.label) → Closing r n own (some next) [i]
  | leaves {own : List Nat} : own.getLast?.any r.jumpAt = false → Closing r n own none []

/-- Blocks consist of their own instructions and of what is added around them. The labels that are
made up have the numbers from `k` up to the second one, in order. -/
inductive Framed (r : Routine) (n : Nat) : Nat → List Block → Nat → Prop
  | nil (k : Nat) : Framed r n k [] k
  | cons {k k' : Nat} {b : Block} {blocks : List Block} {front back : List Nat}
      (code : b.code = front ++ b.own n ++ back) (opening : Opening r k (b.own n) front)
      (closing : Closing r n (b.own n) blocks.head? back)
      (rest : Framed r n (k + front.length) blocks k') : Framed r n k (b :: blocks) k'

section Positions

variable {c c' : Cut} {code : List Nat} {n : Nat}

theorem filter_fresh {m : Nat} (fresh : n ≤ m) (k : Nat) :
    (List.range' m k).filter (· < n) = [] ∧
      (List.range' m k).filter (n ≤ ·) = List.range' m k := by
  rw [List.filter_eq_nil_iff, List.filter_eq_self]
  simp only [List.mem_range'_1, decide_eq_true_eq]
  exact ⟨fun j bounds => by omega, fun j bounds => by omega⟩

/-- The code comes into the blocks in its order, and the new instructions in theirs. -/
theorem Cut.filter_positions (placed : c.placeAll code = (true, c')) (inside : ∀ i ∈ code, i < n)
    (before : n ≤ c.entries.size) :
    c'.positions.filter (· < n) = c.positions.filter (· < n) ++ code ∧
      ∃ k, c'.entries.size = c.entries.size + k ∧
        c'.positions.filter (n ≤ ·) =
          c.positions.filter (n ≤ ·) ++ List.range' c.entries.size k := by
  induction code generalizing c with
  | nil =>
    cases placed
    exact ⟨by simp, 0, by simp⟩
  | cons i code ih =>
    simp only [placeAll] at placed
    split at placed
    · simp at placed
    next e found =>
      obtain ⟨bound, others⟩ := List.forall_mem_cons.mp inside
      obtain ⟨k, size, positions⟩ := c.positions_place i e.instr
      obtain ⟨own, more, size', added⟩ := ih placed others (by omega)
      obtain ⟨none, all⟩ := filter_fresh before k
      constructor
      · rw [own, positions, List.filter_append, List.filter_append, none]
        simp [bound]
      · refine ⟨k + more, by omega, ?_⟩
        rw [added, positions, List.filter_append, List.filter_append, all, size,
          ← List.range'_append_1]
        simp [bound]

end Positions

section Lines

variable {r : Routine} {entries : Array Entry} {line : Line} {blocks : List Block} {n : Nat}

theorem instr?_of_line {i : Nat} {x : Instr} (plain : x.isBranch = false)
    (known : lineAt? r.entries i = some ⟨i, x⟩) : r.instr? i = some x := by
  obtain ⟨e, found, same⟩ := Option.map_eq_some_iff.mp known
  rw [Routine.instr?, found, Option.map_some,
    Instr.eq_of_unmarked plain (congrArg Line.instr same)]

theorem labelAt_line (known : lineAt? r.entries line.position = some line) :
    r.labelAt line.position = line.instr.labelName?.isSome := by
  obtain ⟨e, found, same⟩ := Option.map_eq_some_iff.mp known
  rw [← same]
  simp [Routine.labelAt, Routine.instr?, found]

theorem labelAt_of_label {name : Bytes} (known : lineAt? r.entries line.position = some line)
    (labelled : line.instr.control = .label name) : r.labelAt line.position = true := by
  rw [labelAt_line known, Instr.labelName?_eq_some.mpr labelled, Option.isSome_some]

theorem labelAt_of_unlabelled (known : lineAt? r.entries line.position = some line)
    (unlabelled : ∀ name, line.instr.control ≠ .label name) :
    r.labelAt line.position = false := by
  rw [labelAt_line known, Instr.labelName?_eq_none.mpr unlabelled, Option.isSome_none]

theorem jumpAt_line (known : lineAt? r.entries line.position = some line) :
    r.jumpAt line.position = line.instr.endsBlock := by
  obtain ⟨e, found, same⟩ := Option.map_eq_some_iff.mp known
  rw [← same]
  simp [Routine.jumpAt, Routine.instr?, found]

theorem lineAt?_of_mem {code : List Nat} (member : line ∈ linesOf entries code) :
    lineAt? entries line.position = some line := by
  obtain ⟨i, _, found⟩ := List.mem_filterMap.mp member
  obtain ⟨e, _, same⟩ := Option.map_eq_some_iff.mp found
  rw [← same] at found ⊢
  exact found

theorem positions_linesOf {code : List Nat}
    (present : ∀ i ∈ code, ∃ line, lineAt? entries i = some line) :
    (linesOf entries code).map Line.position = code := by
  induction code with
  | nil => rfl
  | cons i code ih =>
    obtain ⟨⟨line, found⟩, others⟩ := List.forall_mem_cons.mp present
    obtain ⟨e, _, same⟩ := Option.map_eq_some_iff.mp found
    rw [linesOf_cons code found, List.map_cons, ih others, ← same]

end Lines

section Cutting

variable {endLabel : Bytes} {r : Routine} {k n : Nat} {code : List Line} {tail : Option Tail}
  {pieces : List Piece} {blocks : List Block}

/-- The code comes into the blocks in its order. -/
theorem Cutting.sublist (cut : Cutting endLabel k code tail pieces) :
    code.Sublist (tail.elim [] Tail.lines ++ pieces.flatMap Piece.lines) := by
  induction cut with
  | finished | leaves => exact .slnil
  | atLabel line labelled cut ih => exact ih.cons_cons line
  | madeUp i unlabelled cut ih => exact ih.cons _
  | runsInto i labelled cut ih => exact ih.cons _
  | ends line last cut ih => exact ih.cons_cons line
  | goesOn unlabelled inner cut ih => exact ih.cons_cons _

theorem Cutting.sublist_positions (cut : Cutting endLabel k code tail pieces)
    (same : blocks.map (pieceOf r.entries) = pieces)
    (present : ∀ b ∈ blocks, ∀ i ∈ b.code, ∃ line, lineAt? r.entries i = some line) :
    (code.map Line.position).Sublist
      ((tail.elim [] Tail.lines).map Line.position ++ blocks.flatMap Block.code) := by
  have all : ∀ i ∈ blocks.flatMap Block.code, ∃ line, lineAt? r.entries i = some line := by
    intro i inside
    obtain ⟨b, member, inside⟩ := List.mem_flatMap.mp inside
    exact present b member i inside
  have part := cut.sublist.map Line.position
  rwa [List.map_append, ← same, ← linesOf_flatMap, positions_linesOf all] at part

theorem lt_of_filter {i : Nat} {xs ys : List Nat} (whole : xs.filter (· < n) = i :: ys) :
    i < n := by
  have inside : i ∈ xs.filter (· < n) := whole ▸ List.mem_cons_self ..
  simpa using (List.mem_filter.mp inside).2

/-- An instruction that the code does not account for is a new one. -/
theorem le_of_filter {i : Nat} {xs ys : List Nat} (whole : (i :: xs).filter (· < n) = ys)
    (part : ys.Sublist xs) : n ≤ i := by
  by_contra old
  have kept : ys.filter (· < n) = ys := by
    rw [← whole, List.filter_filter]
    simp
  have short := (kept ▸ part.filter (· < n)).length_le
  rw [← whole, List.filter_cons_of_pos (by simpa using old), List.length_cons] at short
  omega

theorem Closing.cons {own back : List Nat} {next : Option Block} {i : Nat}
    (closing : Closing r n own next back) (inner : r.jumpAt i = false) :
    Closing r n (i :: own) next back := by
  have last : (i :: own).getLast?.any r.jumpAt = own.getLast?.any r.jumpAt := by
    cases own with
    | nil => simpa using inner
    | cons first rest => rw [List.getLast?_cons_cons]
  cases closing with
  | jumps next jumps => exact .jumps next (last.trans jumps)
  | runsInto unended starts label jump => exact .runsInto (last.trans unended) starts label jump
  | leaves unended => exact .leaves (last.trans unended)

/-- A block that is open takes the next line, unless that is a label. -/
theorem Cutting.takes {line : Line} {t : Tail}
    (cut : Cutting endLabel k (line :: code) (some t) pieces)
    (unlabelled : ∀ name, line.instr.control ≠ .label name) :
    ∃ more, t.lines = line :: more := by
  cases cut with
  | runsInto i labelled => exact absurd labelled (unlabelled _)
  | ends => exact ⟨_, rfl⟩
  | goesOn => exact ⟨_, rfl⟩

/-- A block starts at a label of the code. -/
theorem Cutting.starts {line : Line} {name : Bytes}
    (cut : Cutting endLabel k (line :: code) none pieces)
    (labelled : line.instr.control = .label name) :
    ∃ more jumpTo rest, pieces = ⟨name, line :: more, jumpTo⟩ :: rest := by
  cases cut with
  | atLabel _ labelled' =>
    cases labelled.symm.trans labelled'
    exact ⟨_, _, _, rfl⟩
  | madeUp i unlabelled => exact absurd labelled (unlabelled name)

/-- The lines of a block and the positions of its code are the same. -/
theorem code_of_lines {b : Block} {p : Piece} (same : pieceOf r.entries b = p)
    (present : ∀ i ∈ b.code, ∃ line, lineAt? r.entries i = some line) :
    b.label = p.label ∧ b.code = p.lines.map Line.position ∧
      ∀ line ∈ p.lines, lineAt? r.entries line.position = some line := by
  subst same
  exact ⟨rfl, (positions_linesOf present).symm, fun _ => lineAt?_of_mem⟩

def Completes (r : Routine) (n : Nat) (next : Option Block) (code : List Nat) : Prop :=
  ∃ back, code = code.filter (· < n) ++ back ∧ Closing r n (code.filter (· < n)) next back

theorem Completes.cons {next : Option Block} {more : List Nat} {i : Nat}
    (completes : Completes r n next more) (old : i < n) (inner : r.jumpAt i = false) :
    Completes r n next (i :: more) := by
  obtain ⟨back, split, closing⟩ := completes
  refine ⟨back, ?_, ?_⟩ <;> rw [List.filter_cons_of_pos (by simpa using old)]
  · rw [List.cons_append, ← split]
  · exact closing.cons inner

theorem Completes.ends {i : Nat} (old : i < n) (jump : r.jumpAt i = true) (next : Option Block) :
    Completes r n next [i] := by
  have all : [i].filter (· < n) = [i] := List.filter_cons_of_pos (by simpa using old)
  refine ⟨[], ?_, ?_⟩ <;> rw [all]
  · rfl
  · exact .jumps _ (by simpa using jump)

/-- A jump to the next block is all that an open block gets before a label of the code. -/
theorem Completes.runsInto {i first : Nat} {next : Block} {own : List Nat} (fresh : n ≤ i)
    (starts : next.own n = first :: own) (label : r.labelAt first = true)
    (jump : r.instr? i = some (.jump next.label)) : Completes r n (some next) [i] := by
  have none : [i].filter (· < n) = [] := List.filter_cons_of_neg (by simpa using fresh)
  refine ⟨[i], ?_, ?_⟩ <;> rw [none]
  · rfl
  · exact .runsInto rfl starts label jump

/-- A block of code that starts with a label. -/
theorem Framed.labelled {k' i : Nat} {b : Block} {more : List Nat} (starts : b.code = i :: more)
    (old : i < n) (label : r.labelAt i = true) (inner : r.jumpAt i = false)
    (completes : Completes r n blocks.head? more) (rest : Framed r n k blocks k') :
    Framed r n k (b :: blocks) k' := by
  obtain ⟨back, split, closing⟩ := completes.cons old inner
  have own : b.own n = i :: more.filter (· < n) := by
    rw [Block.own, starts, List.filter_cons_of_pos (by simpa using old)]
  rw [← starts] at split closing
  have code : b.code = [] ++ b.own n ++ back := split
  refine .cons code ?_ closing rest
  rw [own]
  exact .labelled _ label

/-- A block of code that a label is made up for. -/
theorem Framed.madeUp {k' i first : Nat} {b : Block} {more own : List Nat}
    (starts : b.code = i :: more) (fresh : n ≤ i)
    (label : r.instr? i = some (.label (madeUpLabel k)))
    (inside : more.filter (· < n) = first :: own) (other : r.labelAt first = false)
    (completes : Completes r n blocks.head? more) (rest : Framed r n (k + 1) blocks k') :
    Framed r n k (b :: blocks) k' := by
  obtain ⟨back, split, closing⟩ := completes
  have same : b.own n = more.filter (· < n) := by
    rw [Block.own, starts, List.filter_cons_of_neg (by simpa using fresh)]
  rw [← same] at split closing inside
  have code : b.code = [i] ++ b.own n ++ back := by
    rw [List.append_assoc, ← split, starts, List.singleton_append]
  refine .cons code ?_ closing rest
  rw [inside]
  exact .madeUp own other label

theorem Cutting.framed (cut : Cutting endLabel k code tail pieces)
    (same : blocks.map (pieceOf r.entries) = pieces)
    (present : ∀ b ∈ blocks, ∀ i ∈ b.code, ∃ line, lineAt? r.entries i = some line)
    (known : ∀ line ∈ tail.elim [] Tail.lines, lineAt? r.entries line.position = some line)
    (own : ((tail.elim [] Tail.lines).map Line.position ++
      blocks.flatMap Block.code).filter (· < n) = code.map Line.position) :
    Framed r n k blocks (k + unheaded tail.isNone code) ∧
      ∀ t ∈ tail, Completes r n blocks.head? (t.lines.map Line.position) := by
  induction cut generalizing blocks with
  | finished =>
    obtain rfl := List.map_eq_nil_iff.mp same
    exact ⟨.nil _, by simp⟩
  | @atLabel _ line name code tail _ labelled cut ih =>
    obtain ⟨b, blocks, rfl, first, rest⟩ := List.map_eq_cons_iff.mp same
    obtain ⟨here, later⟩ := List.forall_mem_cons.mp present
    obtain ⟨_, starts, known⟩ := code_of_lines first here
    obtain ⟨atLine, known⟩ := List.forall_mem_cons.mp known
    have label := labelAt_of_label atLine labelled
    have inner : r.jumpAt line.position = false := by
      rw [jumpAt_line atLine, inner_of_label labelled]
    have old : line.position < n := lt_of_filter own
    simp only [Option.elim_none, List.map_nil, List.nil_append, List.flatMap_cons, starts,
      List.map_cons, List.cons_append] at own
    rw [List.filter_cons_of_pos (by simpa using old), List.cons.injEq] at own
    obtain ⟨framed, completes⟩ := ih rest later known own.2
    refine ⟨?_, by simp⟩
    rw [unheaded_label labelled]
    exact framed.labelled starts old label inner (completes tail rfl)
  | @madeUp _ line code tail _ i unlabelled cut ih =>
    obtain ⟨b, blocks, rfl, first, rest⟩ := List.map_eq_cons_iff.mp same
    obtain ⟨here, later⟩ := List.forall_mem_cons.mp present
    obtain ⟨_, starts, known⟩ := code_of_lines first here
    obtain ⟨added, known⟩ := List.forall_mem_cons.mp known
    have old : line.position < n := lt_of_filter own
    simp only [Option.elim_none, List.map_nil, List.nil_append, List.flatMap_cons, starts,
      List.map_cons, List.cons_append] at own
    have fresh : n ≤ i := le_of_filter own (cut.sublist_positions rest later)
    rw [List.filter_cons_of_neg (by simpa using fresh)] at own
    obtain ⟨framed, completes⟩ := ih rest later known own
    obtain ⟨more, takes⟩ := cut.takes unlabelled
    have inside : (tail.lines.map Line.position).filter (· < n) =
        line.position :: (more.map Line.position).filter (· < n) := by
      rw [takes, List.map_cons, List.filter_cons_of_pos (by simpa using old)]
    have other := labelAt_of_unlabelled (known line (by simp [takes])) unlabelled
    refine ⟨?_, by simp⟩
    rw [Option.isNone_none, unheaded_unlabelled unlabelled, ← Nat.add_assoc]
    exact framed.madeUp starts fresh (instr?_of_line rfl added) inside other (completes tail rfl)
  | leaves =>
    obtain rfl := List.map_eq_nil_iff.mp same
    refine ⟨.nil _, ?_⟩
    rintro t ⟨⟩
    exact ⟨[], rfl, .leaves rfl⟩
  | @runsInto _ line name code _ i labelled cut ih =>
    have old : line.position < n := lt_of_filter own
    have fresh : n ≤ i := le_of_filter own (cut.sublist_positions same present)
    simp only [Option.elim_some, List.map_cons, List.map_nil, List.cons_append, List.nil_append]
      at own
    rw [List.filter_cons_of_neg (by simpa using fresh)] at own
    obtain ⟨framed, _⟩ := ih same present (by simp) own
    rw [Option.isNone_none, unheaded_label labelled] at framed
    refine ⟨?_, ?_⟩
    · rwa [Option.isNone_some, unheaded_label labelled]
    · -- The next block starts with the label, and the jump goes there.
      rintro t ⟨⟩
      obtain ⟨more, jumpTo, others, starts⟩ := cut.starts labelled
      obtain ⟨next, blocks, rfl, first, _⟩ := List.map_eq_cons_iff.mp (same.trans starts)
      obtain ⟨named, code, atNext⟩ := code_of_lines first (present next (List.mem_cons_self ..))
      have own : next.own n = line.position :: (more.map Line.position).filter (· < n) := by
        rw [Block.own, code, List.map_cons, List.filter_cons_of_pos (by simpa using old)]
      have label := labelAt_of_label (atNext line (List.mem_cons_self ..)) labelled
      have jump : r.instr? i = some (.jump next.label) := by
        rw [named]
        exact instr?_of_line rfl (known _ (List.mem_cons_self ..))
      exact .runsInto fresh own label jump
  | ends line last cut ih =>
    have old : line.position < n := lt_of_filter own
    have jump : r.jumpAt line.position = true := by
      rw [jumpAt_line (known line (List.mem_cons_self ..)), last]
    simp only [Option.elim_some, List.map_cons, List.map_nil, List.cons_append, List.nil_append]
      at own
    rw [List.filter_cons_of_pos (by simpa using old), List.cons.injEq] at own
    obtain ⟨framed, _⟩ := ih same present (by simp) own.2
    refine ⟨?_, ?_⟩
    · rwa [Option.isNone_some, unheaded_open, last]
    · rintro t ⟨⟩
      exact .ends old jump _
  | @goesOn _ line code tail _ unlabelled inner cut ih =>
    obtain ⟨atLine, known⟩ := List.forall_mem_cons.mp known
    have old : line.position < n := lt_of_filter own
    simp only [Option.elim_some, List.map_cons, List.cons_append] at own
    rw [List.filter_cons_of_pos (by simpa using old), List.cons.injEq] at own
    obtain ⟨framed, completes⟩ := ih same present known own.2
    refine ⟨?_, ?_⟩
    · rwa [Option.isNone_some, unheaded_open, inner]
    · rintro t ⟨⟩
      exact (completes tail rfl).cons old (by rw [jumpAt_line atLine, inner])

end Cutting

/-- The blocks of `t` are made of the code of `s` and of the instructions that are new in `t`, which
are the labels and jumps that are added around it. -/
structure Partition (s t : State) : Prop where
  kept : Keeps s.routine.entries t.routine.entries
  code : (t.routine.blocks.flatMap Block.code).filter (· < s.routine.entries.size) =
    s.routine.code
  added : ∃ k, t.routine.entries.size = s.routine.entries.size + k ∧
    (t.routine.blocks.flatMap Block.code).filter (s.routine.entries.size ≤ ·) =
      List.range' s.routine.entries.size k
  label : ∀ b ∈ t.routine.blocks, ∃ i rest, b.code = i :: rest ∧
    t.routine.instr? i = some (.label b.label) ∧ ∀ j ∈ rest, t.routine.labelAt j = false
  jump : ∀ b ∈ t.routine.blocks, ∀ i ∈ b.code.dropLast, t.routine.jumpAt i = false
  framed : Framed t.routine s.routine.entries.size s.labels t.routine.blocks t.labels

section Forming

variable {s t : State} {b : Block}

theorem Formed.one_label (formed : Formed s t) (member : b ∈ t.routine.blocks) :
    ∃ i rest, b.code = i :: rest ∧ t.routine.instr? i = some (.label b.label) ∧
      ∀ j ∈ rest, t.routine.labelAt j = false := by
  obtain ⟨line, body, lines, _, unlabelled⟩ :=
    formed.cutting.headed.2 _ (List.mem_map_of_mem member)
  obtain ⟨_, code, known⟩ := code_of_lines (r := t.routine) rfl (formed.present member)
  rw [lines] at code known
  obtain ⟨i, first, label⟩ := formed.first_label member
  obtain rfl : line.position = i := by simpa [code] using first
  refine ⟨line.position, body.map Line.position, code, label, ?_⟩
  intro j later
  obtain ⟨other, inside, rfl⟩ := List.mem_map.mp later
  exact labelAt_of_unlabelled (known other (List.mem_cons_of_mem _ inside))
    (unlabelled other inside)

theorem Formed.last_jump (formed : Formed s t) (member : b ∈ t.routine.blocks) :
    ∀ i ∈ b.code.dropLast, t.routine.jumpAt i = false := by
  obtain ⟨_, code, known⟩ := code_of_lines (r := t.routine) rfl (formed.present member)
  intro i before
  rw [code, ← List.map_dropLast] at before
  obtain ⟨line, inside, rfl⟩ := List.mem_map.mp before
  rw [jumpAt_line (known line (List.mem_of_mem_dropLast inside))]
  exact (formed.shaped member).inner line inside

theorem partition_of_run (inside : ∀ i ∈ s.routine.code, i < s.routine.entries.size)
    (made : run formBlocks s = (.ok (), t)) : Partition s t := by
  have formed := formed_of_run made
  have labels := labels_of_run made
  obtain ⟨c, blocks, placed, joined, rfl⟩ := formBlocks_ok made
  have codes : blocks.flatMap Block.code = c.positions := by
    have same : blocks.map Block.code = c.all.map Block.code := by
      rw [linked_map joined fun _ _ _ => rfl, Cut.blocks_eq _ _ fun _ _ => rfl]
    rw [List.flatMap_def, same, ← List.flatMap_def, Cut.positions]
  obtain ⟨own, k, size, added⟩ := Cut.filter_positions placed inside (Nat.le_refl _)
  have present : ∀ i ∈ s.routine.code, ∃ line, lineAt? c.entries i = some line := by
    intro i listed
    obtain ⟨e, found⟩ := formed.found i listed
    exact ⟨_, by rw [lineAt?, found, Option.map_some]⟩
  exact {
    kept := formed.keeps
    code := codes ▸ own
    added := ⟨k, size, codes ▸ added⟩
    label := fun b member => formed.one_label member
    jump := fun b member => formed.last_jump member
    framed := by
      rw [labels]
      refine (formed.cutting.framed rfl (fun b member => formed.present member) (by simp) ?_).1
      rw [positions_linesOf present]
      exact codes ▸ own }

/-- Blocks that are formed of selected code are a partition of it. -/
theorem partition_formBlocks {options : Select.Options} {f : Func} {r : Routine} {labels : Nat}
    (generated : Select.generateFunc options f = .ok r)
    (made : run formBlocks ⟨labels, r⟩ = (.ok (), t)) : Partition ⟨labels, r⟩ t :=
  partition_of_run (selfContained_generateFunc generated).code made

def hopping : Func :=
  { name := ascii "f"
    body := [.jump (ascii "A"), .ret .missing, .label (ascii "A"), .label (ascii "B"),
      .ret .missing] }

def hoppingRoutine : Routine :=
  Select.routine hopping { code :=
    #[.jump (ascii "A"), .ret .absent, .label (ascii "A"), .label (ascii "B"), .ret .absent] }

theorem partition_formBlocks_hopping : Select.generateFunc {} hopping = .ok hoppingRoutine ∧
    ∃ t, run formBlocks ⟨7, hoppingRoutine⟩ = (.ok (), t) ∧
      t.routine.blocks.map Block.code = [[5, 0], [6, 1, 7], [2, 8], [3, 4]] ∧
      t.routine.blocks.map Block.label =
        [madeUpLabel 7, madeUpLabel 8, ascii "A", ascii "B"] ∧
      Partition ⟨7, hoppingRoutine⟩ t := by
  have generated : Select.generateFunc {} hopping = .ok hoppingRoutine := by cbv
  have made : run formBlocks ⟨7, hoppingRoutine⟩ =
    (.ok (), (run formBlocks ⟨7, hoppingRoutine⟩).2) := Prod.ext (by cbv) rfl
  exact ⟨generated, _, made, by cbv, by cbv, partition_formBlocks generated made⟩

end Forming

end Flow

end Codegen
