import Codegen.Proofs.Flow.Meaning
import Codegen.Proofs.Lowering
import Codegen.Proofs.Text.IntLiteral

/-! Which labels are accepted. The blocks of a routine have the labels of its code and those that
are made up for blocks without one. Blocks are formed exactly if all these differ and every jump
goes to one of them or to the end label. So the labels that are made up decide on a routine only if
its code mentions one of them. -/
namespace Codegen

namespace Run

variable {code : List Line} {line : Line}

/-- The number of blocks that the code has no label for: those that start with an instruction that
is none. `start` tells whether a block starts with the first one. -/
def unheaded (start : Bool) : List Line → Nat
  | [] => 0
  | line :: code =>
    (if start && line.instr.labelName?.isNone then 1 else 0) + unheaded line.instr.endsBlock code

theorem unheaded_label {name : Bytes} (labelled : line.instr.control = .label name)
    (start : Bool) : unheaded start (line :: code) = unheaded false code := by
  have inner : line.instr.endsBlock = false := Flow.inner_of_label labelled
  simp [unheaded, Instr.labelName?_eq_some.mpr labelled, inner]

theorem unheaded_unlabelled (unlabelled : ∀ name, line.instr.control ≠ .label name) :
    unheaded true (line :: code) = 1 + unheaded false (line :: code) := by
  simp [unheaded, Instr.labelName?_eq_none.mpr unlabelled]

theorem unheaded_open : unheaded false (line :: code) = unheaded line.instr.endsBlock code := by
  simp [unheaded]

theorem unheaded_unmarked (start : Bool) (code : List Line) :
    unheaded start (code.map Line.unmarked) = unheaded start code := by
  induction code generalizing start with
  | nil => rfl
  | cons line code ih => simp [unheaded, Line.unmarked, ih]

theorem defined_unmarked (code : List Line) : defined (code.map Line.unmarked) = defined code := by
  simp [defined, List.filterMap_map, Line.unmarked, Function.comp_def]

def madeUp (n : Nat) (code : List Line) : List Bytes :=
  (List.range' n (unheaded true code)).map Flow.madeUpLabel

/-- A name stands for two things, or a jump goes to a name that stands for nothing. -/
def Misnamed (endLabel : Bytes) (names : List Bytes) (code : List Line) : Prop :=
  ¬ names.Nodup ∨
    ∃ line ∈ code, ∃ target ∈ line.instr.targets, target ≠ endLabel ∧ target ∉ names

instance (endLabel : Bytes) (names : List Bytes) (code : List Line) :
    Decidable (Misnamed endLabel names code) :=
  inferInstanceAs (Decidable (_ ∨ _))

/-- Names that the code does not mention change nothing, if they differ. -/
theorem misnamed_append {endLabel : Bytes} {names more : List Bytes} (distinct : more.Nodup)
    (apart : ∀ name ∈ more, name ∉ names ∧ ∀ line ∈ code, name ∉ line.instr.targets) :
    Misnamed endLabel (names ++ more) code ↔ Misnamed endLabel names code := by
  apply or_congr
  · rw [List.nodup_append]
    constructor
    · intro repeats same
      refine repeats ⟨same, distinct, ?_⟩
      rintro name inside other inMore rfl
      exact (apart name inMore).1 inside
    · exact fun repeats distinct => repeats distinct.1
  · constructor
    · rintro ⟨line, inside, target, goes, stays, absent⟩
      exact ⟨line, inside, target, goes, stays,
        fun listed => absent (List.mem_append_left _ listed)⟩
    · rintro ⟨line, inside, target, goes, stays, absent⟩
      refine ⟨line, inside, target, goes, stays, fun listed => ?_⟩
      rcases List.mem_append.mp listed with known | made
      · exact absent known
      · exact (apart target made).2 line inside goes

end Run

namespace Flow

open Run

section Cutting

variable {endLabel : Bytes} {n : Nat} {code : List Line} {tail : Option Tail} {pieces : List Piece}

theorem madeUpLabel_injective : Function.Injective madeUpLabel := by
  intro n m same
  have digits := List.append_cancel_left same
  simpa [IntLiteral.magnitude_decimal] using congrArg IntLiteral.magnitude digits

theorem nodup_madeUp (n : Nat) (code : List Line) : (madeUp n code).Nodup :=
  List.Nodup.map madeUpLabel_injective List.nodup_range'

/-- Blocks are headed by the labels of the code and by made up ones. -/
theorem Cutting.labels_perm (cut : Cutting endLabel n code tail pieces) :
    (pieces.map Piece.label).Perm
      (defined code ++ (List.range' n (unheaded tail.isNone code)).map madeUpLabel) := by
  induction cut with
  | finished | leaves => exact .refl _
  | @atLabel _ line name code _ _ labelled cut ih =>
    have names : defined (line :: code) = name :: defined code :=
      List.filterMap_cons_some (Instr.labelName?_eq_some.mpr labelled)
    rw [names, unheaded_label labelled]
    exact ih.cons name
  | madeUp i unlabelled cut ih =>
    rw [Option.isNone_none, unheaded_unlabelled unlabelled, Nat.add_comm, List.range'_succ]
    exact (ih.cons _).trans List.perm_middle.symm
  | runsInto i labelled cut ih =>
    rw [Option.isNone_some, unheaded_label labelled]
    rwa [Option.isNone_none, unheaded_label labelled] at ih
  | ends line last cut ih =>
    have unlabelled := Instr.labelName?_eq_none.mpr (Instr.unlabelled_of_endsBlock last)
    rw [Option.isNone_some, unheaded_open, last]
    simpa [defined, unlabelled] using ih
  | goesOn unlabelled inner cut ih =>
    rw [Option.isNone_some, unheaded_open, inner]
    simpa [defined, Instr.labelName?_eq_none.mpr unlabelled] using ih

/-- Blocks go where the code goes, into the next label, or out of the function. -/
theorem Cutting.jumpTo (cut : Cutting endLabel n code tail pieces) {label : Bytes}
    (goes : (∃ t ∈ tail, label ∈ t.jumpTo) ∨ ∃ p ∈ pieces, label ∈ p.jumpTo) :
    label = endLabel ∨ label ∈ defined code ∨ ∃ line ∈ code, label ∈ line.instr.targets := by
  have further {line : Line} {code : List Line}
      (found : label = endLabel ∨ label ∈ defined code ∨
        ∃ line ∈ code, label ∈ line.instr.targets) :
      label = endLabel ∨ label ∈ defined (line :: code) ∨
        ∃ other ∈ line :: code, label ∈ other.instr.targets := by
    refine found.imp_right (.imp (mem_defined_cons line) ?_)
    rintro ⟨other, inside, goes⟩
    exact ⟨other, List.mem_cons_of_mem _ inside, goes⟩
  induction cut with
  | finished => simp at goes
  | atLabel line labelled cut ih =>
    rcases goes with ⟨t, ⟨⟩, _⟩ | ⟨p, member, goes⟩
    rcases List.mem_cons.mp member with rfl | later
    · exact further (ih (.inl ⟨_, rfl, goes⟩))
    · exact further (ih (.inr ⟨p, later, goes⟩))
  | madeUp i unlabelled cut ih =>
    rcases goes with ⟨t, ⟨⟩, _⟩ | ⟨p, member, goes⟩
    rcases List.mem_cons.mp member with rfl | later
    · exact ih (.inl ⟨_, rfl, goes⟩)
    · exact ih (.inr ⟨p, later, goes⟩)
  | leaves => exact .inl (by simpa using goes)
  | runsInto i labelled cut ih =>
    rcases goes with ⟨t, ⟨⟩, goes⟩ | goes
    · obtain rfl := List.mem_singleton.mp goes
      exact .inr (.inl (by simp [defined, Instr.labelName?_eq_some.mpr labelled]))
    · exact ih (.inr goes)
  | ends line last cut ih =>
    rcases goes with ⟨t, ⟨⟩, goes⟩ | goes
    · exact .inr (.inr ⟨line, List.mem_cons_self .., goes⟩)
    · exact further (ih (.inr goes))
  | goesOn unlabelled inner cut ih =>
    rcases goes with ⟨t, ⟨⟩, goes⟩ | goes
    · exact further (ih (.inl ⟨_, rfl, goes⟩))
    · exact further (ih (.inr goes))

end Cutting

section Linking

variable {endLabel : Bytes} {blocks : List Block} {b : Block}

theorem duplicate?_of_nodup {seen labels : List Bytes} (distinct : labels.Nodup)
    (apart : ∀ label ∈ labels, label ∉ seen) : duplicate? seen labels = none := by
  induction labels generalizing seen with
  | nil => rfl
  | cons label rest ih =>
    obtain ⟨fresh, distinct⟩ := List.nodup_cons.mp distinct
    obtain ⟨unseen, later⟩ := List.forall_mem_cons.mp apart
    rw [duplicate?, if_neg unseen]
    refine ih distinct fun other inside => ?_
    rw [List.mem_cons, not_or]
    exact ⟨fun same => fresh (same ▸ inside), later other inside⟩

theorem successors_of_defined
    (defined : ∀ label ∈ b.jumpTo, label ≠ endLabel → label ∈ blocks.map Block.label) :
    ∃ succ, successors endLabel blocks b = .ok succ := by
  cases found : successors endLabel blocks b with
  | ok succ => exact ⟨succ, rfl⟩
  | error cause =>
    obtain ⟨label, inside, fails⟩ := mapM_error found
    obtain ⟨goes, stays⟩ := List.mem_filter.mp inside
    split at fails
    next => contradiction
    next none =>
      obtain ⟨target, member, same⟩ := List.mem_map.mp (defined label goes (by simpa using stays))
      simpa [same] using List.find?_eq_none.mp none target member

/-- Blocks can be linked exactly if their labels differ and they go to no others, the end label
apart. -/
theorem linked_ok_iff : (∃ out, linked endLabel blocks = .ok out) ↔
    (blocks.map Block.label).Nodup ∧
      ∀ b ∈ blocks, ∀ label ∈ b.jumpTo, label ≠ endLabel → label ∈ blocks.map Block.label := by
  constructor
  · rintro ⟨out, joined⟩
    obtain ⟨distinct, links⟩ := linked_ok joined
    refine ⟨distinct, fun b member label goes stays => ?_⟩
    obtain ⟨i, bound, rfl⟩ := List.getElem_of_mem member
    exact successors_ok (links.get bound (links.length_eq ▸ bound)).succ goes stays
  · rintro ⟨distinct, defined⟩
    cases joined : linked endLabel blocks with
    | ok out => exact ⟨out, rfl⟩
    | error cause =>
      have unique : duplicate? [] (blocks.map Block.label) = none :=
        duplicate?_of_nodup distinct (by simp)
      simp only [linked, unique] at joined
      rcases bind_error joined with mapped | ⟨_, _, joined⟩
      · obtain ⟨b, member, fails⟩ := mapM_error mapped
        obtain ⟨succ, found⟩ := successors_of_defined (defined b member)
        rw [found] at fails
        contradiction
      · contradiction

end Linking

section Counting

variable {s t u : State}

theorem Cut.labels_place (c : Cut) (i : Nat) (x : Instr) :
    (c.place i x).labels =
        c.labels + (if c.current.isNone && x.labelName?.isNone then 1 else 0) ∧
      (c.place i x).current.isNone = x.endsBlock := by
  cases x with
  | label name =>
    cases opened : c.current <;>
      simp [place, runInto, opened, newBlock, alloc, finish, Instr.labelName?, Instr.control,
        Instr.endsBlock]
  | _ =>
    cases opened : c.current <;>
      simp [place, Cut.opened, opened, newBlock, alloc, finish, Instr.labelName?, Instr.control,
        Instr.endsBlock]

/-- A label is made up for every block that does not start with one. -/
theorem Cut.labels_placeAll {c c' : Cut} {code : List Nat} {entries : Array Entry}
    (placed : c.placeAll code = (true, c')) (kept : Keeps c'.entries entries) :
    c'.labels = c.labels + unheaded c.current.isNone (linesOf entries code) := by
  induction code generalizing c with
  | nil =>
    cases placed
    rfl
  | cons i code ih =>
    simp only [placeAll] at placed
    split at placed
    · simp at placed
    next e found =>
      have kept' := (c.keeps_place i e.instr).trans ((keeps_placeAll placed).trans kept)
      obtain ⟨count, start⟩ := c.labels_place i e.instr
      rw [ih placed, count, start, linesOf_cons code (kept'.line found), unheaded]
      simp [Nat.add_assoc]

theorem labels_of_run (formed : run formBlocks s = (.ok (), t)) :
    t.labels = s.labels + unheaded true (linesOf t.routine.entries s.routine.code) := by
  obtain ⟨c, blocks, placed, _, rfl⟩ := formBlocks_ok formed
  exact Cut.labels_placeAll placed fun _ _ found => found

/-- Arranged code has its own labels and those that are made up for it, which are counted. -/
theorem arrange_labels (contained : s.routine.SelfContained)
    (arranged : run arrange s = (.ok (), u)) :
    u.labels = s.labels + unheaded true s.routine.lines ∧
      (defined u.routine.lines).Perm
        (defined s.routine.lines ++ madeUp s.labels s.routine.lines) := by
  obtain ⟨t, made, lines, code⟩ := arrange_code arranged
  have counted : u.labels = t.labels := by
    obtain ⟨formed, entries, p, made', _, _, rfl⟩ := arrange_ok arranged
    cases made.symm.trans made'
    rfl
  have formed := formed_of_run made
  have present := contained.present
  constructor
  · rw [counted, labels_of_run made, ← formed.lines present, unheaded_unmarked]
  · obtain ⟨pieces, perm, joined⟩ := formed.arranged_lines lines code
    have heads : ∀ p ∈ pieces, p.Headed := fun p member =>
      formed.cutting.headed.2 p (perm.mem_iff.mp member)
    have cut := formed.cutting.labels_perm
    rw [← formed.lines present, defined_unmarked, unheaded_unmarked] at cut
    rw [← defined_unmarked, joined.defined heads]
    exact (perm.map Piece.label).trans cut

end Counting

variable {s : State} {r : Routine}

/-- Blocks are formed exactly if their labels stand for one thing each and jumps go to them. -/
theorem formBlocks_ok_iff (contained : s.routine.SelfContained) :
    (∃ t, run formBlocks s = (.ok (), t)) ↔ ¬ Misnamed s.routine.endLabel
      (defined s.routine.lines ++ madeUp s.labels s.routine.lines) s.routine.lines := by
  have present : ∀ i ∈ s.routine.code, ∃ e, s.uncut.entries[i]? = some e := contained.present
  obtain ⟨c, placed, _⟩ := placeAll_complete present contained.edges
  have cut := s.cutting placed s.routine.endLabel
  rw [(Cut.keeps_placeAll placed).linesOf present,
    show linesOf s.uncut.entries s.routine.code = _ from (lines_unmarked s.routine).symm] at cut
  have perm := cut.labels_perm
  have names : ((c.blocks s.routine.endLabel).map (pieceOf c.entries)).map Piece.label =
      (c.blocks s.routine.endLabel).map Block.label := List.map_map
  rw [defined_unmarked, unheaded_unmarked, names] at perm
  have formed := run_formBlocks s
  simp only [placed, if_true] at formed
  have linkable : (∃ t, run formBlocks s = (.ok (), t)) ↔
      ∃ out, linked s.routine.endLabel (c.blocks s.routine.endLabel) = .ok out := by
    rw [formed]
    cases linked s.routine.endLabel (c.blocks s.routine.endLabel) <;> simp
  rw [linkable, linked_ok_iff, Misnamed, not_or, not_not]
  refine and_congr perm.nodup_iff ⟨?_, ?_⟩
  · rintro defined ⟨line, inside, target, goes, stays, absent⟩
    have member := List.mem_map_of_mem (f := Line.unmarked) inside
    have goes : target ∈ line.unmarked.instr.targets := by simpa [Line.unmarked] using goes
    rcases cut.targets member goes with ⟨_, ⟨⟩, _⟩ | ⟨p, inPieces, goes⟩
    obtain ⟨b, member, rfl⟩ := List.mem_map.mp inPieces
    exact absent (perm.mem_iff.mp (defined b member target goes stays))
  · intro known b member label goes stays
    rw [perm.mem_iff]
    rcases cut.jumpTo (.inr ⟨_, List.mem_map_of_mem member, goes⟩) with
      atEnd | named | ⟨_, inside, goes⟩
    · exact absurd atEnd stays
    · rw [defined_unmarked] at named
      exact List.mem_append_left _ named
    · obtain ⟨line, listed, rfl⟩ := List.mem_map.mp inside
      by_contra absent
      exact known ⟨line, listed, label, by simpa [Line.unmarked] using goes, stays, absent⟩

/-- Selected code is refused exactly if the labels of its blocks, made up ones included, are
misnamed. Unless the code mentions a label that is made up for it, its own labels alone decide. -/
theorem formBlocks_error_iff {options : Select.Options} {f : Func}
    (generated : Select.generateFunc options f = .ok r) (labels : Nat) :
    ((∃ e, (run formBlocks ⟨labels, r⟩).1 = .error (.fault e)) ↔
      Misnamed r.endLabel (defined r.lines ++ madeUp labels r.lines) r.lines) ∧
    ((∀ name ∈ madeUp labels r.lines,
        name ∉ defined r.lines ∧ ∀ line ∈ r.lines, name ∉ line.instr.targets) →
      ((∃ e, (run formBlocks ⟨labels, r⟩).1 = .error (.fault e)) ↔
        Misnamed r.endLabel (defined r.lines) r.lines)) := by
  have contained := selfContained_generateFunc generated
  have accepted := formBlocks_ok_iff (s := ⟨labels, r⟩) contained
  have refused : (∃ e, (run formBlocks ⟨labels, r⟩).1 = .error (.fault e)) ↔
      Misnamed r.endLabel (defined r.lines ++ madeUp labels r.lines) r.lines := by
    rcases formBlocks_outcome (s := ⟨labels, r⟩) contained with
      ⟨t, formed, _⟩ | ⟨cause, t, fails, _⟩
    · have named := accepted.mp ⟨t, formed⟩
      simpa [formed] using named
    · have misnamed : ¬ ∃ t, run formBlocks ⟨labels, r⟩ = (.ok (), t) := by simp [fails]
      rw [accepted, not_not] at misnamed
      simpa [fails] using misnamed
  exact ⟨refused, fun apart => refused.trans (misnamed_append (nodup_madeUp ..) apart)⟩

/-- A statement before a label that has the name of a made up one. -/
def clashing : Func :=
  { name := ascii "f"
    body := [.assign (.var (some ⟨.global 0, ascii "x"⟩)) (.const 1), .label (madeUpLabel 0)] }

def clashingRoutine : Routine :=
  Select.routine clashing { objects := 1, code :=
    #[.move (.cell 0 ⟨.global 0, ascii "x"⟩) (.imm 1), .label (madeUpLabel 0)] }

/-- It is accepted when another label is made up. -/
theorem formBlocks_error_clashing :
    Select.generateFunc {} clashing = .ok clashingRoutine ∧
    ¬ ∃ e, (run formBlocks ⟨1, clashingRoutine⟩).1 = .error (.fault e) := by
  have generated : Select.generateFunc {} clashing = .ok clashingRoutine := by cbv
  refine ⟨generated, ?_⟩
  rw [(formBlocks_error_iff generated 1).2 (by decide +kernel)]
  decide +kernel

/-- The labels of the one function differ, but it is refused. The other one jumps to a label that it
does not have, and is accepted. -/
theorem formBlocks_misjudges :
    (Select.generateFunc {} clashing = .ok clashingRoutine ∧
      ¬ Misnamed clashingRoutine.endLabel (defined clashingRoutine.lines) clashingRoutine.lines ∧
      (run formBlocks ⟨0, clashingRoutine⟩).1 =
        .error (.fault ⟨[], .duplicateLabel (madeUpLabel 0)⟩)) ∧
    Select.generateFunc {} straying = .ok strayingRoutine ∧
      Misnamed strayingRoutine.endLabel (defined strayingRoutine.lines) strayingRoutine.lines ∧
      (run formBlocks ⟨0, strayingRoutine⟩).1 = .ok () := by
  refine ⟨⟨?_, ?_, ?_⟩, ?_, ?_, ?_⟩
  · cbv
  · decide +kernel
  · cbv
  · cbv
  · decide +kernel
  · cbv

end Flow

end Codegen
