import Codegen.Proofs.Flow.Cutting

/-! What the blocks are like that code is cut into, and that the code does what they do: at
each label stands what follows the block of that label. -/
namespace Codegen

def Instr.labelName? (x : Instr) : Option Bytes :=
  match x.control with
  | .label name => some name
  | _ => none

theorem Instr.labelName?_eq_some {x : Instr} {name : Bytes} :
    x.labelName? = some name ↔ x.control = .label name := by
  unfold labelName?
  split <;> simp_all

theorem Instr.labelName?_eq_none {x : Instr} :
    x.labelName? = none ↔ ∀ name, x.control ≠ .label name := by
  unfold labelName?
  split <;> simp_all

@[simp] theorem Instr.labelName?_unmarked (x : Instr) : x.unmarked.labelName? = x.labelName? := by
  cases x <;> rfl

theorem Instr.unlabelled_of_endsBlock {x : Instr} (last : x.endsBlock = true) (name : Bytes) :
    x.control ≠ .label name := by
  cases x <;> simp_all [endsBlock, control]

theorem Instr.targets_of_label {x : Instr} {name : Bytes} (label : x.control = .label name) :
    x.targets = [] := by
  cases x <;> simp_all [control, targets]

theorem Instr.targets_of_inner {x : Instr} (inner : x.endsBlock = false) : x.targets = [] := by
  cases x <;> simp_all [endsBlock, targets]

theorem Instr.transfers_of_endsBlock {x : Instr} (last : x.endsBlock = true) :
    x.transfers = true := by
  cases x <;> simp_all [endsBlock, transfers, control]

namespace Run

def defined (code : List Line) : List Bytes :=
  code.filterMap fun line => line.instr.labelName?

@[simp] theorem defined_append (code rest : List Line) :
    defined (code ++ rest) = defined code ++ defined rest :=
  List.filterMap_append

theorem mem_defined_cons {label : Bytes} {code : List Line} (line : Line)
    (later : label ∈ defined code) : label ∈ defined (line :: code) :=
  ((List.sublist_cons_self line code).filterMap _).subset later

def Closed (code : List Line) : Prop :=
  ∃ init last, code = init ++ [last] ∧ last.instr.transfers = true

theorem Closed.unmarked {code : List Line} (closed : Closed code) :
    Closed (code.map Line.unmarked) := by
  obtain ⟨init, last, rfl, transfers⟩ := closed
  exact ⟨init.map Line.unmarked, last.unmarked, by simp, by simpa [Line.unmarked] using transfers⟩

theorem closed_cons {line : Line} {code : List Line} :
    Closed (line :: code) ↔ (code = [] ∧ line.instr.transfers = true) ∨ Closed code := by
  constructor
  · rintro ⟨init, last, whole, transfers⟩
    cases init with
    | nil =>
      cases whole
      exact .inl ⟨rfl, transfers⟩
    | cons first init =>
      cases whole
      exact .inr ⟨init, last, rfl, transfers⟩
  · rintro (⟨rfl, transfers⟩ | ⟨init, last, rfl, transfers⟩)
    · exact ⟨[], line, rfl, transfers⟩
    · exact ⟨line :: init, last, rfl, transfers⟩

theorem Closed.after_label {line : Line} {name : Bytes} {code : List Line}
    (closed : Closed (line :: code)) (label : line.instr.control = .label name) : Closed code := by
  rcases closed_cons.mp closed with ⟨_, transfers⟩ | later
  · simp [Instr.transfers, label] at transfers
  · exact later

theorem Closed.tail {line : Line} {code : List Line} (closed : Closed (line :: code))
    (more : code ≠ []) : Closed code := by
  rcases closed_cons.mp closed with ⟨empty, _⟩ | later
  · exact absurd empty more
  · exact later

theorem after?_split {label : Bytes} {code rest : List Line}
    (found : after? label code = some rest) :
    ∃ before line, code = before ++ line :: rest ∧ line.instr.control = .label label := by
  induction code with
  | nil => contradiction
  | cons line code ih =>
    simp only [after?] at found
    split at found
    next labelled =>
      cases found
      exact ⟨[], line, rfl, labelled⟩
    next =>
      obtain ⟨before, first, rfl, labelled⟩ := ih found
      exact ⟨line :: before, first, rfl, labelled⟩

theorem after?_eq_none {label : Bytes} {code : List Line} :
    after? label code = none ↔ label ∉ defined code := by
  induction code with
  | nil => simp [after?, defined]
  | cons line code ih =>
    by_cases labelled : line.instr.control = .label label
    · simp [after?, labelled, defined, Instr.labelName?_eq_some.mpr labelled]
    · have name : line.instr.labelName? ≠ some label :=
        fun same => labelled (Instr.labelName?_eq_some.mp same)
      have unlabelled : label ∉ defined [line] := by
        simpa [defined] using name
      rw [← List.singleton_append, defined_append, List.singleton_append]
      simp [after?, labelled, ih, unlabelled]

/-- A label that stands at one place only is entered there. -/
theorem after?_unique {label : Bytes} {before rest : List Line} {line : Line}
    (labelled : line.instr.control = .label label)
    (unique : (defined (before ++ line :: rest)).Nodup) :
    after? label (before ++ line :: rest) = some rest := by
  induction before with
  | nil => simp [after?, labelled]
  | cons first before ih =>
    have later : label ∈ defined (before ++ line :: rest) := by
      refine List.mem_filterMap.mpr ⟨line, by simp, ?_⟩
      exact Instr.labelName?_eq_some.mpr labelled
    have elsewhere : first.instr.control ≠ .label label := by
      intro same
      simp only [defined, List.cons_append, List.filterMap_cons,
        Instr.labelName?_eq_some.mpr same, List.nodup_cons] at unique
      exact unique.1 later
    have shorter : (defined (before ++ line :: rest)).Nodup := by
      refine unique.sublist ?_
      exact (List.sublist_cons_self ..).filterMap _
    simpa [after?, elsewhere] using ih shorter

end Run

namespace Flow

open Run

variable {endLabel : Bytes} {n : Nat} {code : List Line} {tail : Option Tail} {pieces : List Piece}

def Unlabelled (lines : List Line) : Prop :=
  ∀ line ∈ lines, ∀ name, line.instr.control ≠ .label name

def Piece.Headed (p : Piece) : Prop :=
  ∃ line body, p.lines = line :: body ∧ line.instr.control = .label p.label ∧ Unlabelled body

theorem Piece.Headed.defined {p : Piece} (headed : p.Headed) : defined p.lines = [p.label] := by
  obtain ⟨line, body, split, label, unlabelled⟩ := headed
  have none : Run.defined body = [] := by
    refine List.filterMap_eq_nil_iff.mpr fun line inside => ?_
    exact Instr.labelName?_eq_none.mpr (unlabelled line inside)
  rw [split, ← List.singleton_append, defined_append, none]
  simp [Run.defined, Instr.labelName?_eq_some.mpr label]

/-- The first block is that of the first instruction. -/
theorem Cutting.first {line : Line} (cut : Cutting endLabel n (line :: code) none pieces) :
    ∃ p rest, pieces = p :: rest ∧ p.label = line.instr.labelName?.getD (madeUpLabel n) := by
  cases cut with
  | atLabel _ label => exact ⟨_, _, rfl, by simp [Instr.labelName?_eq_some.mpr label]⟩
  | madeUp _ unlabelled => exact ⟨_, _, rfl, by simp [Instr.labelName?_eq_none.mpr unlabelled]⟩

/-- What is still to come is without labels, and blocks have theirs at the head. -/
theorem Cutting.headed (cut : Cutting endLabel n code tail pieces) :
    (∀ t ∈ tail, Unlabelled t.lines) ∧ ∀ p ∈ pieces, p.Headed := by
  induction cut with
  | finished => simp
  | atLabel line label cut ih =>
    obtain ⟨inner, others⟩ := ih
    refine ⟨by simp, List.forall_mem_cons.mpr ⟨?_, others⟩⟩
    exact ⟨line, _, rfl, label, inner _ rfl⟩
  | madeUp i unlabelled cut ih =>
    obtain ⟨inner, others⟩ := ih
    refine ⟨by simp, List.forall_mem_cons.mpr ⟨?_, others⟩⟩
    exact ⟨_, _, rfl, rfl, inner _ rfl⟩
  | leaves => simp [Unlabelled]
  | runsInto i label cut ih =>
    refine ⟨?_, ih.2⟩
    rintro t ⟨⟩ line inside name
    cases List.mem_singleton.mp inside
    simp [Instr.control]
  | ends line last cut ih =>
    refine ⟨?_, ih.2⟩
    rintro t ⟨⟩ other inside
    cases List.mem_singleton.mp inside
    exact Instr.unlabelled_of_endsBlock last
  | goesOn unlabelled inner cut ih =>
    refine ⟨?_, ih.2⟩
    rintro t ⟨⟩
    exact List.forall_mem_cons.mpr ⟨unlabelled, ih.1 _ rfl⟩

/-- Code that does not run off its end is cut into blocks that do not run off theirs. -/
theorem Cutting.closed (cut : Cutting endLabel n code tail pieces) :
    (∀ t ∈ tail, Closed code → Closed t.lines) ∧
      ((tail = none ∧ code = []) ∨ Closed code → ∀ p ∈ pieces, Closed p.lines) := by
  induction cut with
  | finished => simp
  | @atLabel _ line _ code _ _ label cut ih =>
    refine ⟨by simp, fun closed => ?_⟩
    have inner : Closed code := (closed.resolve_left (by simp)).after_label label
    refine List.forall_mem_cons.mpr ⟨?_, ih.2 (.inr inner)⟩
    exact closed_cons.mpr (.inr (ih.1 _ rfl inner))
  | @madeUp _ line code _ _ i unlabelled cut ih =>
    refine ⟨by simp, fun closed => ?_⟩
    have closed : Closed (line :: code) := closed.resolve_left (by simp)
    refine List.forall_mem_cons.mpr ⟨?_, ih.2 (.inr closed)⟩
    exact closed_cons.mpr (.inr (ih.1 _ rfl closed))
  | leaves =>
    refine ⟨?_, by simp⟩
    rintro t ⟨⟩ ⟨init, last, empty, _⟩
    simp at empty
  | runsInto i label cut ih =>
    refine ⟨?_, fun closed => ih.2 (.inr (closed.resolve_left (by simp)))⟩
    rintro t ⟨⟩ _
    exact ⟨[], _, rfl, rfl⟩
  | ends line last cut ih =>
    refine ⟨?_, fun closed => ih.2 ?_⟩
    · rintro t ⟨⟩ _
      exact ⟨[], line, rfl, Instr.transfers_of_endsBlock last⟩
    · rcases closed_cons.mp (closed.resolve_left (by simp)) with ⟨rfl, _⟩ | inner
      · exact .inl ⟨rfl, rfl⟩
      · exact .inr inner
  | goesOn unlabelled inner cut ih =>
    refine ⟨?_, fun closed => ?_⟩
    · rintro t ⟨⟩ closed
      rcases closed_cons.mp closed with ⟨rfl, transfers⟩ | later
      · -- The line is the last one, so nothing is left for the block.
        cases cut
        exact ⟨[], _, rfl, transfers⟩
      · exact closed_cons.mpr (.inr (ih.1 _ rfl later))
    · rcases closed_cons.mp (closed.resolve_left (by simp)) with ⟨rfl, _⟩ | later
      · cases cut
        simp
      · exact ih.2 (.inr later)

/-- The labels of the code head blocks, in their order. -/
theorem Cutting.defined_sublist (cut : Cutting endLabel n code tail pieces) :
    (defined code).Sublist (pieces.map Piece.label) := by
  induction cut with
  | finished | leaves => exact .slnil
  | atLabel line label cut ih =>
    simpa [defined, Instr.labelName?_eq_some.mpr label] using ih
  | madeUp i unlabelled cut ih => exact ih.trans (List.sublist_cons_self ..)
  | runsInto i label cut ih => exact ih
  | ends line last cut ih =>
    have unlabelled := Instr.labelName?_eq_none.mpr (Instr.unlabelled_of_endsBlock last)
    simpa [defined, unlabelled] using ih
  | goesOn unlabelled inner cut ih =>
    simpa [defined, Instr.labelName?_eq_none.mpr unlabelled] using ih

section Whole

variable {whole before : List Line}

/-- What comes in the code does what an open block still gets. -/
theorem Cutting.follows (cut : Cutting endLabel n code tail pieces) (part : whole = before ++ code)
    (unique : (defined whole).Nodup) (closed : Closed code) :
    ∀ t ∈ tail, Follows (after? · whole) code t.lines := by
  induction cut generalizing before with
  | finished | atLabel | madeUp => simp
  | leaves =>
    obtain ⟨init, last, empty, _⟩ := closed
    simp at empty
  | runsInto i label cut ih =>
    rintro t ⟨⟩
    subst part
    exact .fallThrough label rfl (after?_unique label unique)
  | ends line last cut ih =>
    rintro t ⟨⟩
    exact .transfer line _ (Instr.transfers_of_endsBlock last)
  | @goesOn _ line code _ _ unlabelled inner cut ih =>
    rintro t ⟨⟩
    rcases closed_cons.mp closed with ⟨rfl, transfers⟩ | later
    · cases cut
      exact .transfer line [] transfers
    · have further : whole = (before ++ [line]) ++ code := by simpa using part
      exact .same line (ih further later _ rfl)

/-- A label after a line that is none stands in what comes after that line. -/
theorem split_later {first line : Line} {name : Bytes} {init rest code : List Line}
    (unlabelled : ∀ name, first.instr.control ≠ .label name)
    (labelled : line.instr.control = .label name) (split : first :: code = init ++ line :: rest) :
    ∃ init', code = init' ++ line :: rest := by
  cases init with
  | nil =>
    cases split
    exact absurd labelled (unlabelled name)
  | cons _ init =>
    cases split
    exact ⟨init, rfl⟩

/-- After a label of the code comes what follows the block of that label. -/
theorem Cutting.entered (cut : Cutting endLabel n code tail pieces) (part : whole = before ++ code)
    (unique : (defined whole).Nodup) (closed : Closed code)
    {init rest : List Line} {line : Line} {name : Bytes} (split : code = init ++ line :: rest)
    (labelled : line.instr.control = .label name) :
    ∃ p ∈ pieces, p.label = name ∧ Follows (after? · whole) rest p.lines.tail := by
  induction cut generalizing before init with
  | finished | leaves => simp at split
  | @atLabel _ first _ code _ _ label cut ih =>
    have further : whole = (before ++ [first]) ++ code := by simpa using part
    have later := closed.after_label label
    cases init with
    | nil =>
      cases split
      cases label.symm.trans labelled
      exact ⟨_, List.mem_cons_self .., rfl, cut.follows further unique later _ rfl⟩
    | cons _ init =>
      cases split
      obtain ⟨p, member, found⟩ := ih further later rfl
      exact ⟨p, List.mem_cons_of_mem _ member, found⟩
  | madeUp i unlabelled cut ih =>
    obtain ⟨p, member, found⟩ := ih part closed split
    exact ⟨p, List.mem_cons_of_mem _ member, found⟩
  | runsInto i label cut ih => exact ih part closed split
  | @ends _ first code _ last cut ih =>
    have further : whole = (before ++ [first]) ++ code := by simpa using part
    obtain ⟨init, rfl⟩ := split_later (Instr.unlabelled_of_endsBlock last) labelled split
    exact ih further (closed.tail (by simp)) rfl
  | @goesOn _ first code _ _ unlabelled inner cut ih =>
    have further : whole = (before ++ [first]) ++ code := by simpa using part
    obtain ⟨init, rfl⟩ := split_later unlabelled labelled split
    exact ih further (closed.tail (by simp)) rfl

end Whole

/-- Blocks go to every label that their code goes to. -/
theorem Cutting.targets (cut : Cutting endLabel n code tail pieces) {line : Line} {target : Bytes}
    (member : line ∈ code) (goes : target ∈ line.instr.targets) :
    (∃ t ∈ tail, target ∈ t.jumpTo) ∨ ∃ p ∈ pieces, target ∈ p.jumpTo := by
  induction cut with
  | finished | leaves => simp at member
  | atLabel first label cut ih =>
    rcases List.mem_cons.mp member with rfl | later
    · rw [Instr.targets_of_label label] at goes
      contradiction
    · rcases ih later with ⟨t, ⟨⟩, found⟩ | ⟨p, inside, found⟩
      · exact .inr ⟨_, List.mem_cons_self .., found⟩
      · exact .inr ⟨p, List.mem_cons_of_mem _ inside, found⟩
  | madeUp i unlabelled cut ih =>
    rcases ih member with ⟨t, ⟨⟩, found⟩ | ⟨p, inside, found⟩
    · exact .inr ⟨_, List.mem_cons_self .., found⟩
    · exact .inr ⟨p, List.mem_cons_of_mem _ inside, found⟩
  | runsInto i label cut ih =>
    rcases ih member with ⟨t, none, _⟩ | found
    · contradiction
    · exact .inr found
  | ends first last cut ih =>
    rcases List.mem_cons.mp member with rfl | later
    · exact .inl ⟨_, rfl, goes⟩
    · rcases ih later with ⟨t, none, _⟩ | found
      · contradiction
      · exact .inr found
  | goesOn unlabelled inner cut ih =>
    rcases List.mem_cons.mp member with rfl | later
    · rw [Instr.targets_of_inner inner] at goes
      contradiction
    · rcases ih later with ⟨t, ⟨⟩, found⟩ | found
      · exact .inl ⟨_, rfl, found⟩
      · exact .inr found

def bodyOf (pieces : List Piece) (label : Bytes) : Option (List Line) :=
  (pieces.find? (·.label == label)).map fun p => p.lines.tail

theorem bodyOf_eq_some {p : Piece} (distinct : (pieces.map Piece.label).Nodup)
    (member : p ∈ pieces) : bodyOf pieces p.label = some p.lines.tail := by
  induction pieces with
  | nil => contradiction
  | cons first pieces ih =>
    obtain ⟨fresh, distinct⟩ := List.nodup_cons.mp distinct
    rcases List.mem_cons.mp member with rfl | later
    · simp [bodyOf]
    · have other : first.label ≠ p.label := fun same => fresh (same ▸ List.mem_map_of_mem later)
      simpa [bodyOf, other] using ih distinct later

theorem bodyOf_eq_none {label : Bytes} (undefined : label ∉ pieces.map Piece.label) :
    bodyOf pieces label = none := by
  have absent : pieces.find? (·.label == label) = none := by
    rw [List.find?_eq_none]
    intro p member same
    exact undefined (eq_of_beq same ▸ List.mem_map_of_mem member)
  simp [bodyOf, absent]

theorem bodyOf_perm {more : List Piece} (distinct : (pieces.map Piece.label).Nodup)
    (perm : more.Perm pieces) : bodyOf more = bodyOf pieces := by
  have distinct' : (more.map Piece.label).Nodup := (perm.map Piece.label).nodup_iff.mpr distinct
  funext label
  by_cases member : label ∈ pieces.map Piece.label
  · obtain ⟨p, inside, rfl⟩ := List.mem_map.mp member
    rw [bodyOf_eq_some distinct inside, bodyOf_eq_some distinct' (perm.mem_iff.mpr inside)]
  · have member' : label ∉ more.map Piece.label :=
      fun inside => member ((perm.map Piece.label).mem_iff.mp inside)
    rw [bodyOf_eq_none member, bodyOf_eq_none member']

end Flow

end Codegen
