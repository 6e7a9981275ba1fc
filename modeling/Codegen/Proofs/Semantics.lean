import Codegen.Instr.Basic
import Codegen.Proofs.Run

/-! What programs and instructions mean. Numbers wrap around; what the operators compute
beyond sums, differences and products is left open. A body and code can be compared by what
they do to storage, write by write, and by how they end. -/
namespace Codegen

/-- What is left open: operators, and where symbols are placed. -/
structure World where
  arith : ArithOp → Int64 → Int64 → Int64
  cmp : CmpOp → Int64 → Int64 → Int64
  complement : Int64 → Int64
  place : Symbol → Int64
  and_comm : ∀ x y, arith .and x y = arith .and y x
  or_comm : ∀ x y, arith .or x y = arith .or y x
  xor_comm : ∀ x y, arith .xor x y = arith .xor y x
  eq_comm : ∀ x y, cmp .eq x y = cmp .eq y x
  ne_comm : ∀ x y, cmp .ne x y = cmp .ne y x

structure Storage where
  cells : Symbol → Int64
  heap : Int64 → Int64

namespace Storage

def setCell (m : Storage) (symbol : Symbol) (value : Int64) : Storage :=
  { m with cells := fun other => if other = symbol then value else m.cells other }

def setHeap (m : Storage) (address value : Int64) : Storage :=
  { m with heap := fun other => if other = address then value else m.heap other }

end Storage

inductive Conclusion
  | returned (value : Option Int64)
  /-- By a jump to a label that is not there. -/
  | left (label : Bytes)
  | fellOff
  deriving DecidableEq, Repr

/-- What can be seen of a run after some steps: storage after each write, in the order of the
writes, storage now, and how the run ended, if it did. -/
structure Observation where
  writes : List Storage := []
  storage : Storage
  conclusion : Option Conclusion := none

def Observation.after (o : Observation) (m : Storage) : Observation :=
  { o with writes := m :: o.writes }

section Programs

variable (w : World)

/-- Truth values are combined bit by bit. -/
def World.binary : BinaryOp → Int64 → Int64 → Int64
  | .add, x, y => x + y
  | .sub, x, y => x - y
  | .mul, x, y => x * y
  | .div, x, y => w.arith .div x y
  | .mod, x, y => w.arith .mod x y
  | .bitAnd, x, y | .logicAnd, x, y => w.arith .and x y
  | .bitOr, x, y | .logicOr, x, y => w.arith .or x y
  | .bitXor, x, y => w.arith .xor x y
  | .shl, x, y => w.arith .sal x y
  | .shr, x, y => w.arith .sar x y
  | .eq, x, y => w.cmp .eq x y
  | .ne, x, y => w.cmp .ne x y
  | .lt, x, y => w.cmp .lt x y
  | .le, x, y => w.cmp .le x y
  | .gt, x, y => w.cmp .gt x y
  | .ge, x, y => w.cmp .ge x y
  | .unknown _, _, _ => 0

def World.unary : UnaryOp → Int64 → Int64
  | .neg, x => -x
  | .bitNot, x => w.complement x
  | .logicNot, x => w.cmp .eq x 0
  | .unknown _, _ => 0

/-- The value of an expression. What is missing counts as zero. -/
def Node.eval (m : Storage) : Node → Int64
  | .const c => c
  | .text (some symbol) => w.place symbol
  | .var (some symbol) => m.cells symbol
  | .mem address => m.heap (address.eval m)
  | .binary op left right => w.binary op (left.eval m) (right.eval m)
  | .unary op x => w.unary op (x.eval m)
  | _ => 0

/-- An expression without calls and without addresses of variables. -/
def Node.isValue : Node → Bool
  | .missing | .const _ | .text _ | .var _ => true
  | .mem address => address.isValue
  | .binary _ left right => left.isValue && right.isValue
  | .unary _ x => x.isValue
  | _ => false

/-- A statement over such expressions. An address can only be assigned to. -/
def Node.isStatement : Node → Bool
  | .assign (.addr _) source => source.isValue
  | .assign target source => target.isValue && source.isValue
  | .label _ | .jump _ => true
  | .branch condition _ _ => condition.isValue
  | .ret x => x.isValue
  | x => x.isValue

/-- Storage after an assignment, which writes a variable or the heap. -/
def Node.assigned (target : Node) (value : Int64) (m : Storage) : Storage :=
  match target with
  | .var (some symbol) | .addr (some symbol) => m.setCell symbol value
  | target => m.setHeap (target.eval w m) value

namespace Body

def after? (label : Bytes) : List Node → Option (List Node)
  | [] => none
  | .label name :: rest => if name = label then some rest else after? label rest
  | _ :: rest => after? label rest

def goTo (body : List Node) (target : Bytes) (m : Storage) (goOn : List Node → Observation) :
    Observation :=
  match after? target body with
  | some rest => goOn rest
  | none => { storage := m, conclusion := some (.left target) }

def run (body : List Node) : Nat → List Node → Storage → Observation
  | 0, _, m => { storage := m }
  | _ + 1, [], m => { storage := m, conclusion := some .fellOff }
  | n + 1, x :: rest, m =>
    match x with
    | .assign target source =>
      let m := target.assigned w (source.eval w m) m
      (run body n rest m).after m
    | .jump target => goTo body target m fun rest => run body n rest m
    | .branch condition ifTrue ifFalse =>
      goTo body (if condition.eval w m ≠ 0 then ifTrue else ifFalse) m fun rest =>
        run body n rest m
    | .ret .missing => { storage := m, conclusion := some (.returned none) }
    | .ret x => { storage := m, conclusion := some (.returned (some (x.eval w m))) }
    | _ => run body n rest m

end Body

end Programs

structure Machine where
  registers : Nat → Int64
  storage : Storage

namespace Machine

variable (w : World) (s : Machine)

def setRegister (key : Nat) (value : Int64) : Machine :=
  { s with registers := fun other => if other = key then value else s.registers other }

def read : Operand → Int64
  | .absent => 0
  | .imm value => value
  | .temp t => s.registers t.key
  | .addr _ (some symbol) _ _ _ _ => s.storage.cells symbol
  | .addr _ none base index scale offset =>
    s.storage.heap (read base + read index * Int64.ofInt scale + offset)

def address : Operand → Int64
  | .addr _ (some symbol) _ _ _ _ => w.place symbol
  | .addr _ none base index scale offset =>
    s.read base + s.read index * Int64.ofInt scale + offset
  | _ => 0

def write (target : Operand) (value : Int64) : Machine :=
  match target with
  | .temp t => s.setRegister t.key value
  | .addr _ (some symbol) _ _ _ _ => { s with storage := s.storage.setCell symbol value }
  | .addr object none base index scale offset =>
    { s with storage :=
        s.storage.setHeap (s.address w (.addr object none base index scale offset)) value }
  | _ => s

end Machine

def World.calculate (w : World) : ArithOp → Int64 → Int64 → Int64
  | .add, x, y => x + y
  | .sub, x, y => x - y
  | .mul, x, y => x * y
  | op, x, y => w.arith op x y

/-- What a plain instruction does. Calls are not covered. -/
def Instr.effect (w : World) (x : Instr) (s : Machine) : Machine :=
  match x with
  | .move target source => s.write w target (s.read source)
  | .arith op target source => s.write w target (w.calculate op (s.read target) (s.read source))
  | .cmp op target source => s.write w target (w.cmp op (s.read target) (s.read source))
  | .lea target source => s.write w target (s.address w source)
  | .neg target => s.write w target (-s.read target)
  | .not target => s.write w target (w.complement (s.read target))
  | _ => s

def World.meaning (w : World) : Run.Meaning Machine where
  effect := Instr.effect w
  holds condition s := s.read condition != 0

def Instr.stores (x : Instr) : Bool :=
  x.operands.any fun
    | (.write, .addr ..) | (.update, .addr ..) => true
    | _ => false

namespace Machine

def conclusion (s : Machine) : Run.Ending → Conclusion
  | .returned _ .absent => .returned none
  | .returned _ value => .returned (some (s.read value))
  | .left label => .left label
  | .fellOff => .fellOff

theorem conclusion_returned {x : Operand} (present : x ≠ .absent) (position : Nat)
    (s : Machine) : s.conclusion (.returned position x) = .returned (some (s.read x)) := by
  cases x <;> first | rfl | contradiction

def observe (p : Run.Progress Machine) : Observation where
  writes := p.trace.filterMap fun event =>
    if event.line.instr.stores then some event.after.storage else none
  storage := p.state.storage
  conclusion := p.ending.map p.state.conclusion

end Machine

end Codegen
