import Codegen.Routine
import Mathlib

/-! Runs of code. What plain instructions do and how conditions turn out is left open, so
that a statement about runs holds for every machine. A run counts its steps: two codes that
run in step agree after every number of them, and so also when they never end. -/
namespace Codegen

inductive Control
  | plain
  | label (name : Bytes)
  | jump (target : Bytes)
  | branch (condition : Operand) (ifTrue ifFalse : Bytes)
  | ret (value : Operand)
  deriving DecidableEq, Repr

namespace Instr

def control : Instr → Control
  | label name => .label name
  | jump target => .jump target
  | branch condition ifTrue ifFalse _ => .branch condition ifTrue ifFalse
  | ret value => .ret value
  | _ => .plain

/-- Forgets the label that is placed after a branch. -/
def unmarked : Instr → Instr
  | branch condition ifTrue ifFalse _ => branch condition ifTrue ifFalse []
  | x => x

@[simp] theorem control_unmarked (x : Instr) : x.unmarked.control = x.control := by
  cases x <;> rfl

theorem unmarked_eq_self {x : Instr} (plain : x.control = .plain) : x.unmarked = x := by
  cases x <;> first | rfl | contradiction

def transfers (x : Instr) : Bool :=
  match x.control with
  | .plain | .label _ => false
  | _ => true

@[simp] theorem transfers_unmarked (x : Instr) : x.unmarked.transfers = x.transfers := by
  cases x <;> rfl

@[simp] theorem targets_unmarked (x : Instr) : x.unmarked.targets = x.targets := by
  cases x <;> rfl

theorem targets_of_jump {x : Instr} {target : Bytes} (jump : x.control = .jump target) :
    x.targets = [target] := by
  cases x <;> simp_all [control, targets]

theorem targets_of_branch {x : Instr} {condition : Operand} {ifTrue ifFalse : Bytes}
    (branch : x.control = .branch condition ifTrue ifFalse) : x.targets = [ifTrue, ifFalse] := by
  cases x <;> simp_all [control, targets]

@[simp] theorem endsBlock_unmarked (x : Instr) : x.unmarked.endsBlock = x.endsBlock := by
  cases x <;> rfl

end Instr

structure Line where
  position : Nat
  instr : Instr
  deriving DecidableEq, Repr

namespace Line

def unmarked (line : Line) : Line :=
  ⟨line.position, line.instr.unmarked⟩

end Line

def Routine.lines (r : Routine) : List Line :=
  r.code.filterMap fun i => (r.instr? i).map (Line.mk i)

namespace Run

variable {σ : Type}

/-- What plain instructions do to a state, and which conditions hold in it. -/
structure Meaning (σ : Type) where
  effect : Instr → σ → σ
  holds : Operand → σ → Bool

inductive Ending
  /-- By the return at a position. -/
  | returned (position : Nat) (value : Operand)
  /-- By a jump to a label that the code does not have. -/
  | left (label : Bytes)
  | fellOff
  deriving DecidableEq, Repr

structure Event (σ : Type) where
  line : Line
  after : σ

structure Progress (σ : Type) where
  trace : List (Event σ) := []
  state : σ
  ending : Option Ending := none

def Progress.after (p : Progress σ) (event : Event σ) : Progress σ :=
  { p with trace := event :: p.trace }

def goTo (enter : Bytes → Option (List Line)) (target : Bytes) (s : σ)
    (goOn : List Line → Progress σ) : Progress σ :=
  match enter target with
  | some rest => goOn rest
  | none => { state := s, ending := some (.left target) }

/-- Runs the given instructions for a number of steps. `enter` gives those at a label. -/
def run (m : Meaning σ) (enter : Bytes → Option (List Line)) : Nat → List Line → σ → Progress σ
  | 0, _, s => { state := s }
  | _ + 1, [], s => { state := s, ending := some .fellOff }
  | n + 1, line :: rest, s =>
    match line.instr.control with
    | .plain =>
      let s := m.effect line.instr s
      (run m enter n rest s).after ⟨line, s⟩
    | .label _ => run m enter n rest s
    | .jump target => goTo enter target s fun rest => run m enter n rest s
    | .branch condition ifTrue ifFalse =>
      goTo enter (if m.holds condition s then ifTrue else ifFalse) s fun rest => run m enter n rest s
    | .ret value => { state := s, ending := some (.returned line.position value) }

def after? (label : Bytes) : List Line → Option (List Line)
  | [] => none
  | line :: rest => if line.instr.control = .label label then some rest else after? label rest

def runCode (m : Meaning σ) (code : List Line) (n : Nat) (rest : List Line) (s : σ) : Progress σ :=
  run m (after? · code) n rest s

/-- Runs code from a label on. -/
def runFrom (m : Meaning σ) (code : List Line) (label : Bytes) (n : Nat) (s : σ) : Progress σ :=
  goTo (after? · code) label s fun rest => runCode m code n rest s

variable {m : Meaning σ} {enter enter' : Bytes → Option (List Line)} {rest body : List Line}

/-- The marks of branches make no difference. -/
theorem run_unmarked (same : ∀ label, enter' label = (enter label).map (·.map Line.unmarked))
    (n : Nat) (rest : List Line) (s : σ) :
    run m enter' n (rest.map Line.unmarked) s = run m enter n rest s := by
  induction n generalizing rest s with
  | zero => rfl
  | succ n ih =>
    have go (target : Bytes) : (goTo enter' target s fun rest => run m enter' n rest s) =
        goTo enter target s fun rest => run m enter n rest s := by
      unfold goTo
      rw [same]
      cases enter target with
      | none => rfl
      | some rest => exact ih rest s
    cases rest with
    | nil => rfl
    | cons line rest =>
      simp only [List.map_cons, run, Line.unmarked, Instr.control_unmarked]
      split
      next plain => rw [Instr.unmarked_eq_self plain, ← ih]
      next => exact ih rest s
      next => exact go _
      next => exact go _
      next => rfl

theorem after?_unmarked (label : Bytes) (code : List Line) :
    after? label (code.map Line.unmarked) = (after? label code).map (·.map Line.unmarked) := by
  induction code with
  | nil => rfl
  | cons line rest ih =>
    simp only [List.map_cons, after?, Line.unmarked, Instr.control_unmarked]
    split
    · rfl
    · exact ih

theorem runCode_unmarked (code : List Line) (n : Nat) (rest : List Line) (s : σ) :
    runCode m (code.map Line.unmarked) n (rest.map Line.unmarked) s = runCode m code n rest s :=
  run_unmarked (fun label => after?_unmarked label code) n rest s

theorem runFrom_unmarked (code : List Line) (label : Bytes) (n : Nat) (s : σ) :
    runFrom m (code.map Line.unmarked) label n s = runFrom m code label n s := by
  simp only [runFrom, goTo, after?_unmarked]
  cases after? label code with
  | none => rfl
  | some rest => exact runCode_unmarked code n rest s

/-- What comes in the code does what is left of a block: it is the same up to where control
goes elsewhere, and a jump may be missing before the label that it goes to. -/
inductive Follows (enter : Bytes → Option (List Line)) : List Line → List Line → Prop
  | same (line : Line) {rest body : List Line} :
      Follows enter rest body → Follows enter (line :: rest) (line :: body)
  | transfer (line : Line) (rest : List Line) :
      line.instr.transfers = true → Follows enter (line :: rest) [line]
  | fallThrough {line last : Line} {label : Bytes} {rest : List Line} :
      line.instr.control = .label label → last.instr.control = .jump label →
      enter label = some rest → Follows enter (line :: rest) [last]

/-- At every label of the code stands what follows the block of that label. -/
def Covers (enter enter' : Bytes → Option (List Line)) : Prop :=
  ∀ label rest, enter label = some rest →
    ∃ body, enter' label = some body ∧ Follows enter rest body

/-- Code runs in step with the blocks that it follows, as long as it does not leave by a
jump to a label that only the blocks have. -/
theorem run_follows (covers : Covers enter enter') (n : Nat) (follows : Follows enter rest body)
    (s : σ) (inside : ∀ k target,
      (run m enter k rest s).ending = some (.left target) → enter' target = none) :
    run m enter n rest s = run m enter' n body s := by
  induction n generalizing rest body s with
  | zero => rfl
  | succ n ih =>
    have go (target : Bytes)
        (stays : ∀ k target', (goTo enter target s fun rest => run m enter k rest s).ending =
          some (.left target') → enter' target' = none) :
        (goTo enter target s fun rest => run m enter n rest s) =
          goTo enter' target s fun rest => run m enter' n rest s := by
      unfold goTo at stays ⊢
      cases entered : enter target with
      | none =>
        have absent := stays 0 target (by simp [entered])
        simp [absent]
      | some next =>
        obtain ⟨body', entered', follows'⟩ := covers target next entered
        simp only [entered', entered] at stays ⊢
        exact ih follows' s stays
    -- The lines after one that transfers control do not matter.
    have step {line : Line} {rest body : List Line}
        (follows : line.instr.transfers = false → Follows enter rest body)
        (inside : ∀ k target, (run m enter k (line :: rest) s).ending = some (.left target) →
          enter' target = none) :
        run m enter (n + 1) (line :: rest) s = run m enter' (n + 1) (line :: body) s := by
      have inside' := fun k => inside (k + 1)
      simp only [run] at inside' ⊢
      split
      next plain =>
        simp only [plain, Progress.after] at inside' ⊢
        rw [ih (follows (by simp [Instr.transfers, plain])) _ inside']
      next label =>
        simp only [label] at inside'
        exact ih (follows (by simp [Instr.transfers, label])) s inside'
      next target jump =>
        simp only [jump] at inside'
        exact go target inside'
      next condition ifTrue ifFalse branch =>
        simp only [branch] at inside'
        exact go _ inside'
      next => rfl
    cases follows with
    | same line follows => exact step (fun _ => follows) inside
    | transfer line rest transfers => exact step (by simp [transfers]) inside
    | fallThrough atLabel atJump entered =>
      obtain ⟨body', entered', follows'⟩ := covers _ _ entered
      have inside' := fun k => inside (k + 1)
      simp only [run, atLabel, atJump, goTo, entered'] at inside' ⊢
      exact ih follows' s inside'

/-- A run leaves the code only by a jump of one of its lines, to a label that is not there. -/
theorem run_left {lines : List Line} {n : Nat} {s : σ} {target : Bytes}
    (within : rest ⊆ lines) (entered : ∀ label next, enter label = some next → next ⊆ lines)
    (ended : (run m enter n rest s).ending = some (.left target)) :
    enter target = none ∧ ∃ line ∈ lines, target ∈ line.instr.targets := by
  induction n generalizing rest s with
  | zero => contradiction
  | succ n ih =>
    have go {line : Line} {aim : Bytes} (member : line ∈ lines) (goes : aim ∈ line.instr.targets)
        (ended : (goTo enter aim s fun rest => run m enter n rest s).ending = some (.left target)) :
        enter target = none ∧ ∃ line ∈ lines, target ∈ line.instr.targets := by
      unfold goTo at ended
      cases found : enter aim with
      | none =>
        simp only [found, Option.some.injEq, Ending.left.injEq] at ended
        exact ended ▸ ⟨found, line, member, goes⟩
      | some next =>
        simp only [found] at ended
        exact ih (entered aim next found) ended
    cases rest with
    | nil => simp [run] at ended
    | cons line rest =>
      have member : line ∈ lines := within (List.mem_cons_self ..)
      have others : rest ⊆ lines := fun x inRest => within (List.mem_cons_of_mem _ inRest)
      simp only [run] at ended
      split at ended
      next => exact ih others ended
      next => exact ih others ended
      next aim jump => exact go member (by simp [Instr.targets_of_jump jump]) ended
      next condition ifTrue ifFalse branch =>
        exact go member (by rw [Instr.targets_of_branch branch]; split <;> simp) ended
      next => simp at ended

theorem after?_subset {label : Bytes} {code next : List Line}
    (found : after? label code = some next) : next ⊆ code := by
  induction code with
  | nil => contradiction
  | cons line rest ih =>
    simp only [after?] at found
    split at found
    · cases found
      exact List.subset_cons_self line _
    · exact fun x member => List.mem_cons_of_mem _ (ih found member)

end Run

end Codegen
