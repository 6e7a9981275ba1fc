import Codegen.Source.Read
import Mathlib

/-! What reading comes to, whatever the fault is called. Without faults a list is one of a few
forms: its keyword looks up a name, and the nodes below are read from left to right. -/
namespace Codegen.Source

variable {α β : Type}

/-- A reading that does not say why it fails. -/
abbrev Attempt := StateT Names Option

def attempt (p : Read α) : Attempt α := fun names => (p names).toOption

@[simp] theorem attempt_pure (a : α) : attempt (pure a) = pure a := rfl

@[simp] theorem attempt_bind (p : Read α) (f : α → Read β) :
    attempt (p >>= f) = attempt p >>= fun a => attempt (f a) := by
  funext names
  cases done : p names <;> simp [attempt, bind, StateT.bind, Except.bind, done, Except.toOption]

@[simp] theorem attempt_map (f : α → β) (p : Read α) : attempt (f <$> p) = f <$> attempt p := by
  rw [map_eq_pure_bind, attempt_bind, map_eq_pure_bind]
  rfl

@[simp] theorem attempt_seqRight (p : Read α) (q : Read β) :
    attempt (p *> q) = attempt p >>= fun _ => attempt q :=
  attempt_bind p fun _ => q

@[simp] theorem attempt_ite (c : Prop) [Decidable c] (p q : Read α) :
    attempt (if c then p else q) = if c then attempt p else attempt q :=
  apply_ite attempt c p q

@[simp] theorem attempt_fail (offset : Nat) (cause : Cause) :
    attempt (fail offset cause : Read α) = failure := rfl

@[simp] theorem attempt_within (a : Around) (p : Read α) : attempt (within a p) = attempt p := by
  funext names
  cases done : p names <;> simp [attempt, within, Except.mapError, done, Except.toOption]

/-- What was read before a failure does not count. -/
@[simp] theorem bind_failure (p : Attempt α) :
    (p >>= fun _ => (failure : Attempt β)) = failure := by
  funext names
  cases done : p names <;> simp [bind, StateT.bind, done, failure, StateT.failure]

@[simp] theorem failure_bind (f : α → Attempt β) : ((failure : Attempt α) >>= f) = failure := rfl

@[simp] theorem map_failure (f : α → β) : f <$> (failure : Attempt α) = failure := rfl

@[simp] theorem map_guarded (f : α → β) (c : Prop) [Decidable c] (a : α) :
    f <$> (if c then pure a else failure : Attempt α) = if c then pure (f a) else failure := by
  split <;> rfl

@[simp] theorem attempt_atomMissing (cx : Context) (stop : Option Nat) (rest : List Tree) :
    attempt (atomMissing cx stop rest : Read α) = failure := rfl

@[simp] theorem attempt_nodeMissing (cx : Context) (stop : Option Nat) :
    attempt (nodeMissing cx stop : Read α) = failure := by
  cases stop <;> rfl

@[simp] theorem attempt_expectEnd (cx : Context) (stop : Option Nat) (rest : List Tree) :
    attempt (expectEnd cx stop rest) =
      if rest.isEmpty && stop.isSome then pure () else failure := by
  unfold expectEnd
  split <;> rfl

structure Form where
  look : List Bytes → Attempt (Option Symbol)
  parts : List Tree
  build : Option Symbol → List Node → Node

namespace Form

def plain (parts : List Tree) (build : List Node → Node) : Form where
  look _ := pure none
  parts
  build _ := build

def named (build : Option Symbol → Node) (look : List Bytes → Attempt Symbol) : Form where
  look params := some <$> look params
  parts := []
  build symbol _ := build symbol

def read (form : Form) (cx : Context) : Attempt Node := do
  let symbol ← form.look cx.params
  let xs ← attempt (readNodes cx form.parts)
  return form.build symbol xs

end Form

def place (name : Bytes) (params : List Bytes) : Attempt Symbol :=
  attempt (resolve ⟨0, params⟩ name)

def textPlace (name : Bytes) (params : List Bytes) : Attempt Symbol := do
  let symbol ← place name params
  if ← attempt (isText symbol) then return symbol else failure

def callee (name : Bytes) : Attempt Symbol :=
  attempt (scopeSymbol name .func)

theorem attempt_resolve (cx : Context) (name : Bytes) :
    attempt (resolve cx name) = place name cx.params := rfl

/-- The form that the items after a keyword have, if they are those that it needs. -/
def Keyword.form? : Keyword → List Tree → Option Form
  | .var, [.atom _ name] => some (.named .var (place name))
  | .addr, [.atom _ name] => some (.named .addr (place name))
  | .text, [.atom _ name] => some (.named .text (textPlace name))
  | .mem, [x] => some (.plain [x] fun xs => .mem (xs.getD 0 .missing))
  | .assign, [l, r] =>
    some (.plain [l, r] fun xs => .assign (xs.getD 0 .missing) (xs.getD 1 .missing))
  | .call, .atom _ name :: args => some ⟨fun _ => some <$> callee name, args, .call⟩
  | .label, [.atom _ name] => some (.plain [] fun _ => .label name)
  | .jump, [.atom _ target] => some (.plain [] fun _ => .jump target)
  | .branch, [x, .atom _ ifTrue, .atom _ ifFalse] =>
    some (.plain [x] fun xs => .branch (xs.getD 0 .missing) ifTrue ifFalse)
  | .ret, [] => some (.plain [] fun _ => .ret .missing)
  | .ret, [x] => some (.plain [x] fun xs => .ret (xs.getD 0 .missing))
  | .unary op, [x] => some (.plain [x] fun xs => .unary op (xs.getD 0 .missing))
  | .binary op, [l, r] =>
    some (.plain [l, r] fun xs => .binary op (xs.getD 0 .missing) (xs.getD 1 .missing))
  | _, _ => none

def readForm (cx : Context) (stop : Option Nat) : Option Form → Attempt Node
  | some form => if stop.isSome then form.read cx else failure
  | none => failure

section Shapes

variable (cx : Context) (stop : Option Nat)

/-- Items left over, or an end that is missing, undo what was read before. -/
theorem attempt_ended (rest : List Tree) (p : Read α) (f : α → β) :
    attempt (do let a ← p; expectEnd cx stop rest; return f a) =
      if rest.isEmpty && stop.isSome then f <$> attempt p else failure := by
  by_cases ends : (rest.isEmpty && stop.isSome) = true <;> simp [ends]

theorem attempt_lookup (rest : List Tree) {p : Read Symbol} {look : List Bytes → Attempt Symbol}
    (looks : attempt p = look cx.params) (build : Option Symbol → Node) :
    attempt (do let symbol ← p; expectEnd cx stop rest; return build (some symbol)) =
      readForm cx stop (if rest.isEmpty then some (.named build look) else none) := by
  rw [attempt_ended cx stop rest p fun symbol => build (some symbol), looks]
  cases rest with
  | nil => simp [readForm, Form.read, Form.named, readNodes]
  | cons y rest => rfl

theorem attempt_mark (rest : List Tree) (x : Node) :
    attempt (do expectEnd cx stop rest; return x) =
      readForm cx stop (if rest.isEmpty then some (.plain [] fun _ => x) else none) := by
  rw [attempt_bind, attempt_expectEnd]
  cases rest with
  | nil => cases stop <;> rfl
  | cons y rest => rfl

theorem attempt_operand (x : Tree) (rest : List Tree) (build : Node → Node) :
    attempt (do let y ← readNode cx x; expectEnd cx stop rest; return build y) =
      readForm cx stop (if rest.isEmpty then
        some (.plain [x] fun xs => build (xs.getD 0 .missing)) else none) := by
  rw [attempt_ended]
  cases rest with
  | nil => simp [readForm, Form.read, Form.plain, readNodes]
  | cons y rest => rfl

theorem attempt_operands (l r : Tree) (rest : List Tree) {p q : Read Node}
    (left : attempt p = attempt (readNode cx l)) (right : attempt q = attempt (readNode cx r))
    (build : Node → Node → Node) :
    attempt (do let a ← p; let b ← q; expectEnd cx stop rest; return build a b) =
      readForm cx stop (if rest.isEmpty then
        some (.plain [l, r] fun xs => build (xs.getD 0 .missing) (xs.getD 1 .missing))
      else none) := by
  rw [attempt_bind, left]
  simp only [attempt_ended, right]
  cases rest with
  | nil => cases stop <;> simp [readForm, Form.read, Form.plain, readNodes]
  | cons y rest => exact bind_failure _

/-- The item after one that was read is missing. -/
theorem attempt_cut (p : Read α) {q : Read β} (fails : attempt q = failure) :
    attempt (p *> q) = failure := by
  rw [attempt_seqRight, fails, bind_failure]

end Shapes

theorem attempt_readNode_atom (cx : Context) (start : Nat) (text : Bytes) :
    attempt (readNode cx (.atom start text)) =
      ((IntLiteral.parse text).map fun value => pure (.const value)).getD failure := by
  cases parsed : IntLiteral.parse text <;> simp [readNode, parsed]

/-- Faults apart, a list is its form. -/
theorem attempt_readNode_list (cx : Context) (start offset : Nat) (spelling : Bytes)
    (rest : List Tree) (stop : Option Nat) :
    attempt (readNode cx (.list start (.atom offset spelling :: rest) stop)) =
      readForm cx stop ((Keyword.ofSpelling? spelling).bind (·.form? rest)) := by
  unfold readNode
  cases Keyword.ofSpelling? spelling with
  | none => rfl
  | some keyword =>
    cases keyword with
    | mem =>
      rcases rest with _ | ⟨x, _ | ⟨y, rest⟩⟩
      · exact attempt_nodeMissing cx stop
      · exact attempt_operand cx stop x [] .mem
      · exact attempt_operand cx stop x (y :: rest) .mem
    | unary op =>
      rcases rest with _ | ⟨x, _ | ⟨y, rest⟩⟩
      · exact attempt_nodeMissing cx stop
      · exact attempt_operand cx stop x [] (.unary op)
      · exact attempt_operand cx stop x (y :: rest) (.unary op)
    | ret =>
      rcases rest with _ | ⟨x, _ | ⟨y, rest⟩⟩
      · exact attempt_mark cx stop [] (.ret .missing)
      · exact attempt_operand cx stop x [] .ret
      · exact attempt_operand cx stop x (y :: rest) .ret
    | assign =>
      rcases rest with _ | ⟨l, _ | ⟨r, _ | ⟨y, rest⟩⟩⟩
      · exact attempt_nodeMissing cx stop
      · exact attempt_cut _ (attempt_nodeMissing cx stop)
      · exact attempt_operands cx stop l r [] rfl rfl .assign
      · exact attempt_operands cx stop l r (y :: rest) rfl rfl .assign
    | binary op =>
      rcases rest with _ | ⟨l, _ | ⟨r, _ | ⟨y, rest⟩⟩⟩
      · exact (attempt_within _ _).trans (attempt_nodeMissing cx stop)
      · exact attempt_cut _ ((attempt_within _ _).trans (attempt_nodeMissing cx stop))
      · exact attempt_operands cx stop l r [] (attempt_within _ _) (attempt_within _ _) (.binary op)
      · exact attempt_operands cx stop l r (y :: rest) (attempt_within _ _) (attempt_within _ _)
          (.binary op)
    | label =>
      rcases rest with _ | ⟨_ | _ | _ | _, _ | ⟨y, rest⟩⟩
      case cons.atom.nil name => exact attempt_mark cx stop [] (.label name)
      case cons.atom.cons name => exact attempt_mark cx stop (y :: rest) (.label name)
      all_goals rfl
    | jump =>
      rcases rest with _ | ⟨_ | _ | _ | _, _ | ⟨y, rest⟩⟩
      case cons.atom.nil name => exact attempt_mark cx stop [] (.jump name)
      case cons.atom.cons name => exact attempt_mark cx stop (y :: rest) (.jump name)
      all_goals rfl
    | var =>
      rcases rest with _ | ⟨_ | _ | _ | _, _ | ⟨y, rest⟩⟩
      case cons.atom.nil name => exact attempt_lookup cx stop [] (attempt_resolve cx name) .var
      case cons.atom.cons name => exact attempt_lookup cx stop (y :: rest) (attempt_resolve cx name) .var
      all_goals rfl
    | addr =>
      rcases rest with _ | ⟨_ | _ | _ | _, _ | ⟨y, rest⟩⟩
      case cons.atom.nil name => exact attempt_lookup cx stop [] (attempt_resolve cx name) .addr
      case cons.atom.cons name => exact attempt_lookup cx stop (y :: rest) (attempt_resolve cx name) .addr
      all_goals rfl
    | text =>
      rcases rest with _ | ⟨_ | _ | _ | _, _ | ⟨y, rest⟩⟩
      case cons.atom.nil name =>
        cases stop <;> simp [attempt_resolve, readForm, Form.read, Form.named, Keyword.form?,
          textPlace, readNodes]
      case cons.atom.cons name =>
        simp [readForm, Keyword.form?]
      all_goals rfl
    | call =>
      rcases rest with _ | ⟨_ | _ | _ | _, args⟩
      case cons.atom name =>
        cases stop <;> simp [readForm, Form.read, Keyword.form?, callee]
      all_goals rfl
    | branch =>
      rcases rest with _ | ⟨x, _ | ⟨_ | _ | _ | _, rest⟩⟩
      case nil => exact attempt_nodeMissing cx stop
      case cons.cons.atom ifTrue =>
        rcases rest with _ | ⟨_ | _ | _ | _, _ | ⟨y, rest⟩⟩
        case cons.atom.nil ifFalse =>
          exact attempt_operand cx stop x [] (.branch · ifTrue ifFalse)
        case cons.atom.cons ifFalse =>
          exact attempt_operand cx stop x (y :: rest) (.branch · ifTrue ifFalse)
        all_goals exact attempt_cut _ rfl
      all_goals exact attempt_cut _ rfl

end Codegen.Source
