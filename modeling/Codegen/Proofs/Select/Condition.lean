import Codegen.Proofs.Select.Acceptance

/-! Conditions: logical and relational operators over numbers and variables. Code combines truth
values bit by bit, so that two numbers which count as true can make one that does not. -/
namespace Codegen

open Select (standard)

def truth (p : Prop) [Decidable p] : Int64 :=
  if p then 1 else 0

theorem truth_ne_zero {p : Prop} [Decidable p] : truth p ≠ 0 ↔ p := by
  unfold truth
  split <;> simp [*]

def BinaryOp.relates : BinaryOp → Int64 → Int64 → Bool
  | .eq, x, y => x = y
  | .ne, x, y => x ≠ y
  | .lt, x, y => x < y
  | .le, x, y => x ≤ y
  | .gt, x, y => x > y
  | .ge, x, y => x ≥ y
  | _, _, _ => false

def Relation : Type :=
  { op : BinaryOp // op.relational = true }

inductive Condition
  | const (c : Int64)
  | var (symbol : Symbol)
  | not (x : Condition)
  | and (left right : Condition)
  | or (left right : Condition)
  | compare (op : Relation) (left right : Condition)

namespace Condition

def toNode : Condition → Node
  | const c => .const c
  | var symbol => .var (some symbol)
  | not x => .unary .logicNot x.toNode
  | and left right => .binary .logicAnd left.toNode right.toNode
  | or left right => .binary .logicOr left.toNode right.toNode
  | compare op left right => .binary op.1 left.toNode right.toNode

def parts : Condition → List Condition
  | const c => [const c]
  | var symbol => [var symbol]
  | not x => not x :: x.parts
  | and left right => and left right :: (left.parts ++ right.parts)
  | or left right => or left right :: (left.parts ++ right.parts)
  | compare op left right => compare op left right :: (left.parts ++ right.parts)

variable (m : Storage)

/-- The value of a condition, which is true unless it is zero. -/
def value : Condition → Int64
  | const c => c
  | var symbol => m.cells symbol
  | not x => truth (x.value = 0)
  | and left right => truth (left.value ≠ 0 ∧ right.value ≠ 0)
  | or left right => truth (left.value ≠ 0 ∨ right.value ≠ 0)
  | compare op left right => truth (op.1.relates left.value right.value)

def computed (x : Condition) : Int64 :=
  x.toNode.eval standard m

/-- Two true numbers without a common bit, or a comparison of conditions that comes out otherwise
with what code computes for them. -/
def Clashes : Condition → Prop
  | and left right =>
    left.computed m ≠ 0 ∧ right.computed m ≠ 0 ∧ left.computed m &&& right.computed m = 0
  | compare op left right =>
    op.1.relates (left.computed m) (right.computed m) ≠ op.1.relates (left.value m) (right.value m)
  | _ => False

/-- What is computed is zero exactly if the condition is false. -/
def Agrees (x : Condition) : Prop :=
  x.computed m ≠ 0 ↔ x.value m ≠ 0

variable {m} {x left right : Condition}

theorem computed_not (x : Condition) : (not x).computed m = truth (x.computed m = 0) :=
  rfl

theorem computed_and (left right : Condition) :
    (and left right).computed m = left.computed m &&& right.computed m :=
  rfl

theorem computed_or (left right : Condition) :
    (or left right).computed m = left.computed m ||| right.computed m :=
  rfl

theorem standard_relates {op : BinaryOp} (relational : op.relational = true) (x y : Int64) :
    standard.binary op x y = truth (op.relates x y) := by
  cases op with
  | eq | ne | lt | le | gt | ge => simp [World.binary, standard, BinaryOp.relates, truth]
  | _ => contradiction

theorem computed_compare (op : Relation) (left right : Condition) :
    (compare op left right).computed m =
      truth (op.1.relates (left.computed m) (right.computed m)) :=
  standard_relates op.2 _ _

theorem Agrees.not (agrees : x.Agrees m) : (not x).Agrees m := by
  rw [Agrees, computed_not, value, truth_ne_zero, truth_ne_zero]
  exact not_iff_not.mp agrees

theorem Agrees.or (inLeft : left.Agrees m) (inRight : right.Agrees m) :
    (or left right).Agrees m := by
  rw [Agrees, computed_or, value, truth_ne_zero, Ne, Int64.or_eq_zero_iff, not_and_or]
  exact or_congr inLeft inRight

theorem agrees_and_iff (inLeft : left.Agrees m) (inRight : right.Agrees m) :
    (and left right).Agrees m ↔ ¬ (and left right).Clashes m := by
  have common {x y : Int64} (bits : x &&& y ≠ 0) : x ≠ 0 ∧ y ≠ 0 := by
    constructor <;> rintro rfl <;> simp at bits
  rw [Agrees] at inLeft inRight
  rw [Agrees, computed_and, value, truth_ne_zero, ← inLeft, ← inRight]
  simp only [Clashes, not_and]
  constructor
  · intro agrees inLeft inRight
    exact agrees.mpr ⟨inLeft, inRight⟩
  · intro apart
    exact ⟨common, fun both => apart both.1 both.2⟩

theorem agrees_compare_iff (op : Relation) :
    (compare op left right).Agrees m ↔ ¬ (compare op left right).Clashes m := by
  rw [Agrees, computed_compare, value, truth_ne_zero, truth_ne_zero, Clashes, not_not]
  exact Bool.eq_iff_iff.symm

theorem self_mem_parts (x : Condition) : x ∈ x.parts := by
  cases x <;> simp [parts]

/-- Mistakes are made at the clashes and nowhere else. -/
theorem agrees_parts_iff (x : Condition) :
    (∀ y ∈ x.parts, y.Agrees m) ↔ ∀ y ∈ x.parts, ¬ y.Clashes m := by
  induction x with
  | const c | var symbol => simp [parts, Agrees, Clashes, computed, toNode, Node.eval, value]
  | not x ih =>
    rw [parts, List.forall_mem_cons, List.forall_mem_cons, ← ih]
    apply and_congr_left
    intro inside
    exact iff_of_true (inside x x.self_mem_parts).not id
  | and left right inLeft inRight =>
    rw [parts, List.forall_mem_cons, List.forall_mem_cons, List.forall_mem_append,
      List.forall_mem_append, ← inLeft, ← inRight]
    apply and_congr_left
    rintro ⟨inLeft, inRight⟩
    exact agrees_and_iff (inLeft left left.self_mem_parts) (inRight right right.self_mem_parts)
  | or left right inLeft inRight =>
    rw [parts, List.forall_mem_cons, List.forall_mem_cons, List.forall_mem_append,
      List.forall_mem_append, ← inLeft, ← inRight]
    apply and_congr_left
    rintro ⟨inLeft, inRight⟩
    exact iff_of_true
      ((inLeft left left.self_mem_parts).or (inRight right right.self_mem_parts)) id
  | compare op left right inLeft inRight =>
    rw [parts, List.forall_mem_cons, List.forall_mem_cons, List.forall_mem_append,
      List.forall_mem_append, ← inLeft, ← inRight]
    exact and_congr_left fun _ => agrees_compare_iff op

def isTruth : Condition → Bool
  | const c => c = 0 || c = 1
  | var _ => false
  | not _ | compare _ _ _ => true
  | and left right | or left right => left.isTruth && right.isTruth

/-- Code computes the value itself, if it does so for truth values. -/
def isOperand : Condition → Bool
  | const _ | var _ => true
  | x => x.isTruth

/-- Conjunctions are of truth values only, and comparisons of truth values, numbers and
variables. -/
def isCareful : Condition → Bool
  | const _ | var _ => true
  | not x => x.isCareful
  | and left right => left.isTruth && right.isTruth && left.isCareful && right.isCareful
  | or left right => left.isCareful && right.isCareful
  | compare _ left right =>
    left.isOperand && right.isOperand && left.isCareful && right.isCareful

/-- Code computes the value itself, which is a truth value. -/
def Exact (m : Storage) (x : Condition) : Prop :=
  x.computed m = x.value m ∧ (x.value m = 0 ∨ x.value m = 1)

theorem exact_of_truth {p : Prop} [Decidable p] (value : x.value m = truth p)
    (computed : x.computed m = truth p) : x.Exact m := by
  rw [Exact, value, computed, truth]
  split <;> simp

theorem Exact.and (inLeft : left.Exact m) (inRight : right.Exact m) :
    (and left right).Exact m ∧ ¬ (and left right).Clashes m := by
  obtain ⟨sameLeft, inLeft⟩ := inLeft
  obtain ⟨sameRight, inRight⟩ := inRight
  rw [Exact, computed_and, value, Clashes, sameLeft, sameRight]
  rcases inLeft with inLeft | inLeft <;> rcases inRight with inRight | inRight <;>
    simp [inLeft, inRight, truth]

theorem Exact.or (inLeft : left.Exact m) (inRight : right.Exact m) : (or left right).Exact m := by
  obtain ⟨sameLeft, inLeft⟩ := inLeft
  obtain ⟨sameRight, inRight⟩ := inRight
  rw [Exact, computed_or, value, sameLeft, sameRight]
  rcases inLeft with inLeft | inLeft <;> rcases inRight with inRight | inRight <;>
    simp [inLeft, inRight, truth]

theorem computed_of_isOperand (operand : x.isOperand = true)
    (exact : x.isTruth = true → x.Exact m) : x.computed m = x.value m := by
  cases x with
  | const c | var symbol => rfl
  | _ => exact (exact operand).1

theorem not_clashes_of_isCareful (careful : x.isCareful = true) :
    (∀ y ∈ x.parts, ¬ y.Clashes m) ∧ (x.isTruth = true → x.Exact m) := by
  induction x with
  | const c =>
    refine ⟨by simp [parts, Clashes], fun number => ⟨rfl, ?_⟩⟩
    simpa [isTruth, value] using number
  | var symbol => simp [parts, Clashes, isTruth]
  | not x ih =>
    have inside := (ih careful).1
    have agrees := (agrees_parts_iff x).mpr inside x x.self_mem_parts
    refine ⟨?_, fun _ => ?_⟩
    · rw [parts, List.forall_mem_cons]
      exact ⟨id, inside⟩
    · apply exact_of_truth (p := x.value m = 0) rfl
      rw [computed_not]
      congr 1
      exact propext (not_iff_not.mp agrees)
  | and left right inLeft inRight =>
    simp only [isCareful, Bool.and_eq_true] at careful
    obtain ⟨⟨⟨truthLeft, truthRight⟩, carefulLeft⟩, carefulRight⟩ := careful
    obtain ⟨insideLeft, exactLeft⟩ := inLeft carefulLeft
    obtain ⟨insideRight, exactRight⟩ := inRight carefulRight
    obtain ⟨exact, common⟩ := (exactLeft truthLeft).and (exactRight truthRight)
    refine ⟨?_, fun _ => exact⟩
    rw [parts, List.forall_mem_cons, List.forall_mem_append]
    exact ⟨common, insideLeft, insideRight⟩
  | or left right inLeft inRight =>
    simp only [isCareful, Bool.and_eq_true] at careful
    obtain ⟨insideLeft, exactLeft⟩ := inLeft careful.1
    obtain ⟨insideRight, exactRight⟩ := inRight careful.2
    refine ⟨?_, fun truths => ?_⟩
    · rw [parts, List.forall_mem_cons, List.forall_mem_append]
      exact ⟨id, insideLeft, insideRight⟩
    · simp only [isTruth, Bool.and_eq_true] at truths
      exact (exactLeft truths.1).or (exactRight truths.2)
  | compare op left right inLeft inRight =>
    simp only [isCareful, Bool.and_eq_true] at careful
    obtain ⟨⟨⟨operandLeft, operandRight⟩, carefulLeft⟩, carefulRight⟩ := careful
    obtain ⟨insideLeft, exactLeft⟩ := inLeft carefulLeft
    obtain ⟨insideRight, exactRight⟩ := inRight carefulRight
    have sameLeft := computed_of_isOperand operandLeft exactLeft
    have sameRight := computed_of_isOperand operandRight exactRight
    refine ⟨?_, fun _ => ?_⟩
    · rw [parts, List.forall_mem_cons, List.forall_mem_append, Clashes, sameLeft, sameRight]
      exact ⟨fun clashes => clashes rfl, insideLeft, insideRight⟩
    · apply exact_of_truth rfl
      rw [computed_compare, sameLeft, sameRight]

/-! ### Code -/

theorem isValue_toNode (x : Condition) : x.toNode.isValue = true := by
  induction x with
  | const c | var symbol => rfl
  | not x ih => exact ih
  | and left right inLeft inRight | or left right inLeft inRight
  | compare op left right inLeft inRight => simp [toNode, Node.isValue, inLeft, inRight]

theorem kind_toNode (x : Condition) : x.toNode.kind = .number := by
  cases x <;> rfl

theorem kind_accumulator (op : BinaryOp) (left right : Condition) :
    (Node.accumulator op left.toNode right.toNode).kind = .number := by
  unfold Node.accumulator
  split
  · exact right.kind_toNode
  · exact left.kind_toNode

/-- Conditions have no sums that could be addresses. -/
theorem fusion?_toNode (addressing : Bool) (x : Condition) :
    Select.fusion? addressing true x.toNode = none := by
  have noSum {op : BinaryOp} (other : op ≠ .add) (left right : Node) :
      Select.fusion? addressing true (.binary op left right) = none := by
    cases op <;> cases addressing <;> first | rfl | contradiction
  cases x with
  | const c | var symbol | not x => cases addressing <;> rfl
  | and left right | or left right => exact noSum (by decide) _ _
  | compare op left right =>
    apply noSum
    intro sum
    have relational := op.2
    rw [sum] at relational
    contradiction

theorem accepted_toNode (addressing : Bool) (x : Condition) :
    Select.accepted addressing true x.toNode = true := by
  rw [Select.accepted_plain (x.fusion?_toNode addressing)]
  induction x with
  | const c | var symbol => exact ⟨rfl, List.forall_mem_nil _⟩
  | not x ih =>
    rw [← Select.accepted_plain (x.fusion?_toNode addressing)] at ih
    simp [toNode, Node.fits, Node.children, UnaryOp.isKnown, kind_toNode, ih]
  | and left right inLeft inRight | or left right inLeft inRight =>
    rw [← Select.accepted_plain (fusion?_toNode addressing _)] at inLeft inRight
    simp [toNode, Node.fits, Node.children, BinaryOp.isKnown, kind_accumulator, inLeft, inRight]
  | compare op left right inLeft inRight =>
    rw [← Select.accepted_plain (fusion?_toNode addressing _)] at inLeft inRight
    have known : op.1.isKnown = true := by
      obtain ⟨op, relational⟩ := op
      cases op <;> first | rfl | contradiction
    simp [toNode, Node.fits, Node.children, known, kind_accumulator, inLeft, inRight]

end Condition

namespace Select

/-- The code of a branch, after whatever other code, tests a number that is zero exactly if the
condition is false. -/
def Tests (addressing : Bool) (m : Storage) (x : Condition) : Prop :=
  ∀ ifTrue ifFalse s, ∃ t code tested,
    node addressing false (.branch x.toNode ifTrue ifFalse) s = .ok (none, t) ∧
    t.code.toList = s.code.toList ++ (code ++ [.branch tested ifTrue ifFalse []]) ∧
    ∀ registers, (execute standard code ⟨registers, m⟩).read tested ≠ 0 ↔ x.value m ≠ 0

theorem branch_computed (addressing : Bool) (x : Condition) (ifTrue ifFalse : Bytes)
    (s : Selection) : ∃ t code tested,
      node addressing false (.branch x.toNode ifTrue ifFalse) s = .ok (none, t) ∧
      t.code.toList = s.code.toList ++ (code ++ [.branch tested ifTrue ifFalse []]) ∧
      ∀ m : Machine, (execute standard code m).read tested = x.computed m.storage := by
  have accepts : accepted addressing false (.branch x.toNode ifTrue ifFalse) = true := by
    rw [accepted_plain (by cases addressing <;> rfl)]
    simp [Node.fits, Node.children, x.accepted_toNode]
  rcases generates_lowered addressing false (.branch x.toNode ifTrue ifFalse) s with
    ⟨_, v, t, done, _⟩ | ⟨refused, _⟩
  · change node addressing false _ s = _ at done
    rw [node] at done
    obtain ⟨code, tested, added, _, _, does⟩ := last_ok (w := standard)
      (fun tested => .branch tested ifTrue ifFalse []) x.isValue_toNode done
    obtain ⟨_, _, _, ended⟩ := gen_bind_ok done
    cases ended
    refine ⟨_, code, tested, ?_, added, does⟩
    rw [node]
    exact done
  · exact absurd accepts refused

theorem tests_iff (addressing : Bool) (m : Storage) (x : Condition) :
    Tests addressing m x ↔ x.Agrees m := by
  constructor
  · intro tests
    obtain ⟨t, code, tested, done, added, right⟩ := tests [] [] {}
    obtain ⟨t', code', tested', done', added', does⟩ := branch_computed addressing x [] [] {}
    cases done.symm.trans done'
    obtain ⟨rfl, ended⟩ := List.append_inj' (List.append_cancel_left (added.symm.trans added')) rfl
    cases ended
    have agrees := right fun _ => 0
    rwa [does] at agrees
  · intro agrees ifTrue ifFalse s
    obtain ⟨t, code, tested, done, added, does⟩ := branch_computed addressing x ifTrue ifFalse s
    refine ⟨t, code, tested, done, added, fun registers => ?_⟩
    rw [does]
    exact agrees

/-- Branches on a condition and on all its parts go the right way exactly if none of them clashes,
and so does a branch on any condition of truth values. -/
theorem tests_parts_iff (addressing : Bool) (m : Storage) (x : Condition) :
    ((∀ y ∈ x.parts, Tests addressing m y) ↔ ∀ y ∈ x.parts, ¬ y.Clashes m) ∧
      (x.isCareful = true → Tests addressing m x) := by
  constructor
  · simp only [tests_iff, x.agrees_parts_iff]
  · intro careful
    have apart := (Condition.not_clashes_of_isCareful (m := m) careful).1
    exact (tests_iff addressing m x).mpr (x.agrees_parts_iff.mpr apart x x.self_mem_parts)

def belowTen (symbol : Symbol) : Condition :=
  .and (.compare ⟨.lt, rfl⟩ (.var symbol) (.const 10)) (.not (.not (.var symbol)))

theorem tests_belowTen :
    (belowTen ⟨.global 0, ascii "a"⟩).isCareful = true ∧
      Tests true ⟨fun _ => 6, fun _ => 0⟩ (belowTen ⟨.global 0, ascii "a"⟩) :=
  ⟨by decide, (tests_parts_iff true _ _).2 (by decide)⟩

/-- One and two are both true, but have no bit in common. -/
theorem tests_one_and_two :
    (Condition.and (.const 1) (.const 2)).value ⟨fun _ => 0, fun _ => 0⟩ = 1 ∧
      ¬ Tests true ⟨fun _ => 0, fun _ => 0⟩ (.and (.const 1) (.const 2)) := by
  rw [tests_iff, Condition.Agrees]
  decide

end Select

end Codegen
