import Codegen.Flow.Blocks
import Codegen.Proofs.Run

/-! How code is cut into blocks, said on the lines of the code alone: where a block opens,
what it gets until it is closed, and where it goes. Blocks that are formed are cut so. -/
namespace Codegen.Flow

/-- A block as far as running it goes. -/
structure Piece where
  label : Bytes
  lines : List Line
  jumpTo : List Bytes

structure Tail where
  lines : List Line
  jumpTo : List Bytes

/-- Cuts code when `n` labels have been made up. A block is open if there is a tail, which
it gets from the code. -/
inductive Cutting (endLabel : Bytes) : Nat → List Line → Option Tail → List Piece → Prop
  | finished (n : Nat) : Cutting endLabel n [] none []
  | atLabel {n : Nat} (line : Line) {name : Bytes} {code : List Line} {tail : Tail}
      {pieces : List Piece} (label : line.instr.control = .label name)
      (cut : Cutting endLabel n code (some tail) pieces) :
      Cutting endLabel n (line :: code) none (⟨name, line :: tail.lines, tail.jumpTo⟩ :: pieces)
  | madeUp {n : Nat} {line : Line} {code : List Line} {tail : Tail} {pieces : List Piece}
      (i : Nat) (unlabelled : ∀ name, line.instr.control ≠ .label name)
      (cut : Cutting endLabel (n + 1) (line :: code) (some tail) pieces) :
      Cutting endLabel n (line :: code) none
        (⟨madeUpLabel n, ⟨i, .label (madeUpLabel n)⟩ :: tail.lines, tail.jumpTo⟩ :: pieces)
  | leaves (n : Nat) : Cutting endLabel n [] (some ⟨[], [endLabel]⟩) []
  | runsInto {n : Nat} {line : Line} {name : Bytes} {code : List Line} {pieces : List Piece}
      (i : Nat) (label : line.instr.control = .label name)
      (cut : Cutting endLabel n (line :: code) none pieces) :
      Cutting endLabel n (line :: code) (some ⟨[⟨i, .jump name⟩], [name]⟩) pieces
  | ends {n : Nat} (line : Line) {code : List Line} {pieces : List Piece}
      (last : line.instr.endsBlock = true) (cut : Cutting endLabel n code none pieces) :
      Cutting endLabel n (line :: code) (some ⟨[line], line.instr.targets⟩) pieces
  | goesOn {n : Nat} {line : Line} {code : List Line} {tail : Tail} {pieces : List Piece}
      (unlabelled : ∀ name, line.instr.control ≠ .label name)
      (inner : line.instr.endsBlock = false)
      (cut : Cutting endLabel n code (some tail) pieces) :
      Cutting endLabel n (line :: code) (some ⟨line :: tail.lines, tail.jumpTo⟩) pieces

def lineAt? (entries : Array Entry) (i : Nat) : Option Line :=
  entries[i]?.map fun e => ⟨i, e.instr.unmarked⟩

def linesOf (entries : Array Entry) (code : List Nat) : List Line :=
  code.filterMap (lineAt? entries)

def pieceOf (entries : Array Entry) (b : Block) : Piece :=
  ⟨b.label, linesOf entries b.code, b.jumpTo⟩

@[simp] theorem linesOf_nil (entries : Array Entry) : linesOf entries [] = [] := rfl

@[simp] theorem linesOf_append (entries : Array Entry) (code rest : List Nat) :
    linesOf entries (code ++ rest) = linesOf entries code ++ linesOf entries rest :=
  List.filterMap_append

theorem lines_unmarked (r : Routine) : r.lines.map Line.unmarked = linesOf r.entries r.code := by
  simp only [Routine.lines, linesOf, List.map_filterMap, Routine.instr?, Option.map_map]
  rfl

def Keeps (entries more : Array Entry) : Prop :=
  ∀ (i : Nat) (e : Entry), entries[i]? = some e → more[i]? = some e

theorem Keeps.push (entries : Array Entry) (e : Entry) : Keeps entries (entries.push e) := by
  intro i x found
  obtain ⟨bound, rfl⟩ := Array.getElem?_eq_some_iff.mp found
  simp [Array.getElem?_push, Nat.ne_of_lt bound, bound]

theorem Keeps.trans {a b c : Array Entry} (first : Keeps a b) (second : Keeps b c) : Keeps a c :=
  fun i e found => second i e (first i e found)

theorem Keeps.line {entries more : Array Entry} {i : Nat} {e : Entry} (keeps : Keeps entries more)
    (found : entries[i]? = some e) : lineAt? more i = some ⟨i, e.instr.unmarked⟩ := by
  simp [lineAt?, keeps i e found]

theorem Keeps.linesOf {entries more : Array Entry} {code : List Nat} (keeps : Keeps entries more)
    (present : ∀ i ∈ code, ∃ e, entries[i]? = some e) :
    linesOf more code = linesOf entries code := by
  refine List.filterMap_congr fun i inside => ?_
  obtain ⟨e, found⟩ := present i inside
  rw [keeps.line found, lineAt?, found, Option.map_some]

theorem linesOf_cons {entries : Array Entry} {i : Nat} {line : Line} (code : List Nat)
    (found : lineAt? entries i = some line) :
    linesOf entries (i :: code) = line :: linesOf entries code := by
  simp [linesOf, found]

namespace Cut

variable {c c' : Cut} {i : Nat} {x : Instr} {code : List Nat} {b : Block}

def reopened (c : Cut) : Cut :=
  { c.opened.2 with current := some c.opened.1 }

theorem place_label (c : Cut) (i : Nat) (name : Bytes) :
    c.place i (.label name) = (c.runInto name).place i (.label name) := by
  have closed : (c.runInto name).current = none := by
    unfold runInto
    split
    · assumption
    · rfl
  have again : (c.runInto name).runInto name = c.runInto name := by
    rw [runInto, closed]
  simp only [place, again]

theorem place_reopened (c : Cut) (i : Nat) (unlabelled : ∀ name, x.control ≠ .label name) :
    c.place i x = c.reopened.place i x := by
  have again : c.reopened.opened = (c.opened.1, c.reopened) := rfl
  cases x with
  | label name => exact absurd rfl (unlabelled name)
  | _ => simp only [place, again]; rfl

theorem place_inner (opened : c.current = some b) (i : Nat)
    (unlabelled : ∀ name, x.control ≠ .label name) :
    c.place i x = if x.endsBlock then c.finish { b with code := b.code ++ [i] } x.targets
      else { c with current := some { b with code := b.code ++ [i] } } := by
  cases x with
  | label name => exact absurd rfl (unlabelled name)
  | _ => simp only [place, Cut.opened, opened]

/-- Placing an instruction closes the open block before a label or opens one with a label
of its own, as needed, and then opens a block at the label or adds to the open one. -/
theorem place_induction {P Q : Cut → Prop}
    (closing : ∀ c b name, c.current = some b → P c → P (c.runInto name))
    (opening : ∀ c, c.current = none → P c → P c.reopened)
    (atLabel : ∀ c name, c.current = none → P c → Q (c.place i (.label name)))
    (inside : ∀ c b, c.current = some b → (∀ name, x.control ≠ .label name) → P c →
      Q (c.place i x))
    (start : P c) : Q (c.place i x) := by
  by_cases labelled : ∃ name, x = .label name
  · obtain ⟨name, rfl⟩ := labelled
    cases current : c.current with
    | none => exact atLabel c name current start
    | some b =>
      rw [place_label]
      have closed : (c.runInto name).current = none := by simp [runInto, current, finish]
      exact atLabel _ name closed (closing c b name current start)
  · have unlabelled : ∀ name, x.control ≠ .label name := by
      intro name same
      exact labelled ⟨name, by cases x <;> simp_all [Instr.control]⟩
    cases current : c.current with
    | none =>
      rw [place_reopened c i unlabelled]
      exact inside _ _ rfl unlabelled (opening c current start)
    | some b => exact inside c b current unlabelled start

/-- Placing an instruction changes those that there are only by labels and jumps at their end. -/
theorem entries_place {P : Array Entry → Prop}
    (label : ∀ entries name, P entries → P (entries.push ⟨.label name, [], []⟩))
    (jump : ∀ entries target, P entries → P (entries.push ⟨.jump target, [], []⟩))
    (start : P c.entries) : P (c.place i x).entries := by
  refine place_induction (P := fun d => P d.entries) (Q := fun d => P d.entries) ?_ ?_ ?_ ?_ start
  · intro d b name opened before
    simp only [runInto, opened]
    exact jump d.entries name before
  · intro d closed before
    simp only [reopened, Cut.opened, closed]
    exact label d.entries _ before
  · intro d name closed before
    simpa only [place, runInto, closed, newBlock] using before
  · intro d b opened unlabelled before
    rw [place_inner opened i unlabelled]
    split <;> exact before

theorem entries_placeAll {P : Array Entry → Prop}
    (label : ∀ entries name, P entries → P (entries.push ⟨.label name, [], []⟩))
    (jump : ∀ entries target, P entries → P (entries.push ⟨.jump target, [], []⟩))
    (start : P c.entries) (placed : c.placeAll code = (true, c')) : P c'.entries := by
  induction code generalizing c with
  | nil =>
    cases placed
    exact start
  | cons i code ih =>
    simp only [placeAll] at placed
    split at placed
    · simp at placed
    next e found => exact ih (entries_place label jump start) placed

theorem keeps_place (c : Cut) (i : Nat) (x : Instr) : Keeps c.entries (c.place i x).entries :=
  entries_place (fun entries _ kept => kept.trans (Keeps.push entries _))
    (fun entries _ kept => kept.trans (Keeps.push entries _)) fun _ _ found => found

theorem keeps_placeAll (placed : c.placeAll code = (true, c')) : Keeps c.entries c'.entries :=
  entries_placeAll (fun entries _ kept => kept.trans (Keeps.push entries _))
    (fun entries _ kept => kept.trans (Keeps.push entries _)) (fun _ _ found => found) placed

/-- What is cut after `c` are new blocks, and the rest of the one that was open. -/
def CutFrom (endLabel : Bytes) (entries : Array Entry) (c c' : Cut) (code : List Nat) : Prop :=
  match c.current with
  | none => ∃ blocks, c'.blocks endLabel = c.done.reverse ++ blocks ∧
      Cutting endLabel c.labels (linesOf entries code) none (blocks.map (pieceOf entries))
  | some b => ∃ more jumpTo blocks,
      c'.blocks endLabel =
        c.done.reverse ++ { b with code := b.code ++ more, jumpTo := jumpTo } :: blocks ∧
      Cutting endLabel c.labels (linesOf entries code) (some ⟨linesOf entries more, jumpTo⟩)
        (blocks.map (pieceOf entries))

variable {endLabel name : Bytes} {entries : Array Entry}

theorem cutFrom_nil (endLabel : Bytes) (entries : Array Entry) (c : Cut) :
    CutFrom endLabel entries c c [] := by
  unfold CutFrom
  split
  next closed => exact ⟨[], by simp [blocks, closed], .finished _⟩
  next b opened => exact ⟨[], [endLabel], [], by simp [blocks, opened, finish], .leaves _⟩

theorem cutFrom_label (closed : c.current = none)
    (found : lineAt? entries i = some ⟨i, .label name⟩)
    (cut : CutFrom endLabel entries (c.place i (.label name)) c' code) :
    CutFrom endLabel entries c c' (i :: code) := by
  have into : c.runInto name = c := by rw [runInto, closed]
  simp only [CutFrom, place, into, newBlock] at cut
  obtain ⟨more, jumpTo, blocks, made, cutting⟩ := cut
  simp only [CutFrom, closed]
  refine ⟨_, made, ?_⟩
  rw [linesOf_cons code found, List.map_cons]
  have piece := Cutting.atLabel ⟨i, .label name⟩ rfl cutting
  simpa only [pieceOf, List.singleton_append, linesOf_cons more found] using piece

theorem cutFrom_runInto (opened : c.current = some b)
    (found : lineAt? entries i = some ⟨i, .label name⟩)
    (kept : Keeps (c.runInto name).entries entries)
    (cut : CutFrom endLabel entries (c.runInto name) c' (i :: code)) :
    CutFrom endLabel entries c c' (i :: code) := by
  have jump : lineAt? entries c.entries.size = some ⟨c.entries.size, .jump name⟩ :=
    kept.line (e := ⟨.jump name, [], []⟩) (by simp [runInto, opened, alloc, finish])
  simp only [CutFrom, runInto, opened, alloc, finish] at cut
  obtain ⟨blocks, made, cutting⟩ := cut
  simp only [CutFrom, opened]
  refine ⟨[c.entries.size], [name], blocks, by simpa using made, ?_⟩
  rw [linesOf_cons code found] at cutting ⊢
  rw [linesOf_cons [] jump]
  exact .runsInto _ rfl cutting

theorem cutFrom_inner (opened : c.current = some b) (unlabelled : ∀ name, x.control ≠ .label name)
    (found : lineAt? entries i = some ⟨i, x.unmarked⟩)
    (cut : CutFrom endLabel entries (c.place i x) c' code) :
    CutFrom endLabel entries c c' (i :: code) := by
  rw [place_inner opened i unlabelled] at cut
  simp only [CutFrom, opened]
  rw [linesOf_cons code found]
  split at cut
  next last =>
    simp only [CutFrom, finish] at cut
    obtain ⟨blocks, made, cutting⟩ := cut
    refine ⟨[i], x.targets, blocks, by simpa using made, ?_⟩
    rw [linesOf_cons [] found]
    have piece := Cutting.ends ⟨i, x.unmarked⟩ (by simpa using last) cutting
    simpa only [Instr.targets_unmarked, linesOf_nil] using piece
  next inner =>
    simp only [CutFrom] at cut
    obtain ⟨more, jumpTo, blocks, made, cutting⟩ := cut
    refine ⟨i :: more, jumpTo, blocks, by simpa using made, ?_⟩
    rw [linesOf_cons more found]
    exact .goesOn (by simpa using unlabelled) (by simpa using inner) cutting

theorem cutFrom_opened (closed : c.current = none) (unlabelled : ∀ name, x.control ≠ .label name)
    (found : lineAt? entries i = some ⟨i, x.unmarked⟩)
    (kept : Keeps c.reopened.entries entries)
    (cut : CutFrom endLabel entries c.reopened c' (i :: code)) :
    CutFrom endLabel entries c c' (i :: code) := by
  have label : lineAt? entries c.entries.size =
      some ⟨c.entries.size, .label (madeUpLabel c.labels)⟩ :=
    kept.line (e := ⟨.label (madeUpLabel c.labels), [], []⟩)
      (by simp [reopened, opened, closed, alloc, newBlock])
  simp only [CutFrom, reopened, opened, closed, alloc, newBlock] at cut
  obtain ⟨more, jumpTo, blocks, made, cutting⟩ := cut
  simp only [CutFrom, closed]
  refine ⟨_, made, ?_⟩
  rw [linesOf_cons code found] at cutting ⊢
  have piece := Cutting.madeUp c.entries.size (by simpa using unlabelled) cutting
  simpa only [List.map_cons, pieceOf, List.singleton_append, linesOf_cons more label] using piece

theorem cutFrom_placeAll (placed : c.placeAll code = (true, c')) (kept : Keeps c'.entries entries) :
    CutFrom endLabel entries c c' code := by
  induction code generalizing c with
  | nil =>
    cases placed
    exact cutFrom_nil endLabel entries _
  | cons i code ih =>
    simp only [placeAll] at placed
    split at placed
    · simp at placed
    next e found =>
      have later := ih placed
      have kept' := (keeps_placeAll placed).trans kept
      have line := ((c.keeps_place i e.instr).trans kept').line found
      by_cases labelled : ∃ name, e.instr.control = .label name
      · obtain ⟨name, labelled⟩ := labelled
        have same : e.instr = .label name := by
          cases h : e.instr <;> simp_all [Instr.control]
        rw [same] at later line kept'
        cases opened : c.current with
        | none => exact cutFrom_label opened line later
        | some b =>
          rw [place_label] at later kept'
          have closed : (c.runInto name).current = none := by simp [runInto, opened, finish]
          apply cutFrom_runInto opened line (((c.runInto name).keeps_place i _).trans kept')
          exact cutFrom_label closed line later
      · have unlabelled : ∀ name, e.instr.control ≠ .label name :=
          fun name same => labelled ⟨name, same⟩
        cases opened : c.current with
        | some b => exact cutFrom_inner opened unlabelled line later
        | none =>
          rw [place_reopened c i unlabelled] at later kept'
          apply cutFrom_opened opened unlabelled line ((c.reopened.keeps_place i _).trans kept')
          exact cutFrom_inner rfl unlabelled line later

end Cut

end Codegen.Flow
