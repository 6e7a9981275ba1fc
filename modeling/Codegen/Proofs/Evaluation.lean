import Codegen.Proofs.Semantics

/-! Expressions with calls. A call may change storage, so that it matters when an operand is
read: in its turn, or not before it is used. -/
namespace Codegen

/-- What calls do is left open too: from the arguments and storage they give a result and new
storage. -/
structure Environment extends World where
  call : Symbol → List Int64 → Storage → Int64 × Storage

/-- Calls write to symbols at most. -/
def Environment.KeepsHeap (env : Environment) : Prop :=
  ∀ callee args m, (env.call callee args m).2.heap = m.heap

namespace Node

inductive Computed : Node → Prop
  | const (c : Int64) : Computed (.const c)
  | text (symbol : Option Symbol) : Computed (.text symbol)
  | var (symbol : Option Symbol) : Computed (.var symbol)
  | mem {x : Node} : Computed x → Computed (.mem x)
  | unary (op : UnaryOp) {x : Node} : Computed x → Computed (.unary op x)
  | binary (op : BinaryOp) {left right : Node} :
      Computed left → Computed right → Computed (.binary op left right)
  | call (callee : Option Symbol) {args : List Node} :
      (∀ x ∈ args, Computed x) → Computed (.call callee args)

section Evaluation

variable (env : Environment)

mutual

/-- The value of an expression and storage after it. Operands are evaluated completely from
left to right. -/
def evaluate : Node → Storage → Int64 × Storage
  | .const c, m => (c, m)
  | .text (some symbol), m => (env.place symbol, m)
  | .var (some symbol), m => (m.cells symbol, m)
  | .mem address, m =>
    let place := address.evaluate m
    (place.2.heap place.1, place.2)
  | .unary op x, m =>
    let a := x.evaluate m
    (env.unary op a.1, a.2)
  | .binary op left right, m =>
    let a := left.evaluate m
    let b := right.evaluate a.2
    (env.binary op a.1 b.1, b.2)
  | .call (some callee) args, m =>
    let all := evaluateAll args m
    env.call callee all.1 all.2
  | _, m => (0, m)

def evaluateAll : List Node → Storage → List Int64 × Storage
  | [], m => ([], m)
  | x :: xs, m =>
    let first := x.evaluate m
    let others := evaluateAll xs first.2
    (first.1 :: others.1, others.2)

end

mutual

/-- What an operand will hold, depending on storage at the time when it is used, and storage
after the expression. Memory is not read before. -/
def perform : Node → Storage → (Storage → Int64) × Storage
  | .const c, m => (fun _ => c, m)
  | .text (some symbol), m => (fun _ => env.place symbol, m)
  | .var (some symbol), m => (fun _ => m.cells symbol, m)
  | .mem address, m =>
    let place := address.perform m
    (fun later => later.heap (place.1 place.2), place.2)
  | .unary op x, m =>
    let a := x.perform m
    (fun _ => env.unary op (a.1 a.2), a.2)
  | .binary op left right, m =>
    let a := left.perform m
    let b := right.perform a.2
    (fun _ => env.binary op (a.1 b.2) (b.1 b.2), b.2)
  | .call (some callee) args, m =>
    let all := performAll args m
    let result := env.call callee (all.1.map fun value => value all.2) all.2
    (fun _ => result.1, result.2)
  | _, m => (fun _ => 0, m)

def performAll : List Node → Storage → List (Storage → Int64) × Storage
  | [], m => ([], m)
  | x :: xs, m =>
    let first := x.perform m
    let others := performAll xs first.2
    (first.1 :: others.1, others.2)

end

def defer (x : Node) (m : Storage) : Int64 × Storage :=
  let result := x.perform env m
  (result.1 result.2, result.2)

end Evaluation

def isMem : Node → Bool
  | .mem _ => true
  | _ => false

mutual

/-- No operand that is memory stands to the left of one with a call. -/
def settled : Node → Bool
  | .mem x | .unary _ x => x.settled
  | .binary _ left right => left.settled && right.settled && (!left.isMem || right.isValue)
  | .call _ args => settledAll args
  | _ => true

def settledAll : List Node → Bool
  | [] => true
  | x :: xs => x.settled && settledAll xs && (!x.isMem || xs.all isValue)

end

variable {env : Environment} {x : Node}

/-- Without calls, the expression has its value in storage, which stays as it is. -/
theorem evaluate_of_isValue (isValue : x.isValue = true) (m : Storage) :
    x.evaluate env m = (x.eval env.toWorld m, m) := by
  fun_induction Node.isValue x with
  | case1 | case2 => rfl
  | case3 symbol | case4 symbol => cases symbol <;> rfl
  | case5 address ih => simp [evaluate, eval, ih isValue]
  | case6 op left right ihLeft ihRight =>
    obtain ⟨inLeft, inRight⟩ := Bool.and_eq_true_iff.mp isValue
    simp [evaluate, eval, ihLeft inLeft, ihRight inRight]
  | case7 op x ih => simp [evaluate, eval, ih isValue]
  | case8 => contradiction

theorem evaluateAll_of_isValue {xs : List Node} (values : ∀ x ∈ xs, x.isValue = true)
    (m : Storage) : (evaluateAll env xs m).2 = m := by
  induction xs with
  | nil => rfl
  | cons x xs ih =>
    obtain ⟨first, others⟩ := List.forall_mem_cons.mp values
    simp [evaluateAll, evaluate_of_isValue first, ih others]

theorem evaluateAll_heap {xs : List Node}
    (keep : ∀ x ∈ xs, ∀ m, (x.evaluate env m).2.heap = m.heap) (m : Storage) :
    (evaluateAll env xs m).2.heap = m.heap := by
  induction xs generalizing m with
  | nil => rfl
  | cons x xs ih =>
    obtain ⟨first, others⟩ := List.forall_mem_cons.mp keep
    simp [evaluateAll, ih others, first]

theorem evaluate_heap (keeps : env.KeepsHeap) (computed : x.Computed) (m : Storage) :
    (x.evaluate env m).2.heap = m.heap := by
  induction computed generalizing m with
  | const c => rfl
  | text symbol | var symbol => cases symbol <;> rfl
  | mem _ ih | unary _ _ ih => exact ih m
  | binary op _ _ ihLeft ihRight => exact (ihRight _).trans (ihLeft m)
  | call callee _ ih =>
    cases callee with
    | none => rfl
    | some callee => exact (keeps ..).trans (evaluateAll_heap ih m)

/-- An operand holds its value while the heap stays as it is, and ever after if it is not
memory. -/
structure Settles (env : Environment) (x : Node) (m : Storage) : Prop where
  storage : (x.perform env m).2 = (x.evaluate env m).2
  value : ∀ later, later.heap = (x.evaluate env m).2.heap →
    (x.perform env m).1 later = (x.evaluate env m).1
  lasting : x.isMem = false → ∀ later, (x.perform env m).1 later = (x.evaluate env m).1

theorem Settles.of_lasting {m : Storage} (storage : (x.perform env m).2 = (x.evaluate env m).2)
    (lasting : ∀ later, (x.perform env m).1 later = (x.evaluate env m).1) : Settles env x m :=
  ⟨storage, fun later _ => lasting later, fun _ => lasting⟩

/-- What comes after an operand does not reach it. -/
theorem Settles.still {m later : Storage} (settles : Settles env x m)
    (apart : x.isMem = false ∨ later.heap = (x.evaluate env m).2.heap) :
    (x.perform env m).1 later = (x.evaluate env m).1 := by
  rcases apart with noMem | same
  · exact settles.lasting noMem later
  · exact settles.value later same

/-- The first operand is not memory, or the others leave the heap alone. -/
theorem ordered_cons {xs : List Node} (computed : ∀ y ∈ xs, y.Computed)
    (ordered : settledAll (x :: xs) = true ∨ env.KeepsHeap) :
    (x.settled = true ∨ env.KeepsHeap) ∧ (settledAll xs = true ∨ env.KeepsHeap) ∧
      (x.isMem = false ∨ ∀ m, (evaluateAll env xs m).2.heap = m.heap) := by
  rcases ordered with settled | keeps
  · simp only [settledAll, Bool.and_eq_true, Bool.or_eq_true, Bool.not_eq_true',
      List.all_eq_true] at settled
    obtain ⟨⟨settledFirst, settledOthers⟩, apart⟩ := settled
    refine ⟨.inl settledFirst, .inl settledOthers, apart.imp_right fun values m => ?_⟩
    rw [evaluateAll_of_isValue values]
  · exact ⟨.inr keeps, .inr keeps,
      .inr (evaluateAll_heap fun y inside => evaluate_heap keeps (computed y inside))⟩

/-- Operands hold their values when the last one has been computed. -/
theorem settles_all {xs : List Node} (computed : ∀ x ∈ xs, x.Computed)
    (ordered : settledAll xs = true ∨ env.KeepsHeap)
    (settles : ∀ x ∈ xs, x.settled = true ∨ env.KeepsHeap → ∀ m, Settles env x m) (m : Storage) :
    (performAll env xs m).2 = (evaluateAll env xs m).2 ∧
      (performAll env xs m).1.map (fun value => value (evaluateAll env xs m).2) =
        (evaluateAll env xs m).1 := by
  induction xs generalizing m with
  | nil => exact ⟨rfl, rfl⟩
  | cons x xs ih =>
    obtain ⟨_, computedOthers⟩ := List.forall_mem_cons.mp computed
    obtain ⟨settlesFirst, settlesOthers⟩ := List.forall_mem_cons.mp settles
    obtain ⟨orderedFirst, orderedOthers, apart⟩ := ordered_cons computedOthers ordered
    have first := settlesFirst orderedFirst m
    obtain ⟨storage, values⟩ := ih computedOthers orderedOthers settlesOthers (x.evaluate env m).2
    have same := first.still (apart.imp_right fun keep => keep (x.evaluate env m).2)
    simp [performAll, evaluateAll, first.storage, storage, values, same]

theorem settles (computed : x.Computed) (ordered : x.settled = true ∨ env.KeepsHeap)
    (m : Storage) : Settles env x m := by
  induction computed generalizing m with
  | const c => exact .of_lasting rfl fun _ => rfl
  | text symbol | var symbol => cases symbol <;> exact .of_lasting rfl fun _ => rfl
  | @mem x _ ih =>
    have place := ih ordered m
    have noMem : (Node.mem x).isMem ≠ false := by simp [isMem]
    refine ⟨place.storage, fun later same => ?_, fun isNot => absurd isNot noMem⟩
    simp [perform, evaluate, place.storage, place.value, same]
  | unary op _ ih =>
    have operand := ih ordered m
    apply Settles.of_lasting
    · exact operand.storage
    · simp [perform, evaluate, operand.storage, operand.value]
  | @binary op left right computedLeft computedRight ihLeft ihRight =>
    -- The two operands are treated as a call treats its arguments.
    have both : settledAll [left, right] = (Node.binary op left right).settled := by
      simp [settledAll, Node.settled]
    have computed : ∀ x ∈ [left, right], x.Computed := by simp [computedLeft, computedRight]
    obtain ⟨storage, values⟩ :=
      settles_all computed (both ▸ ordered) (by simpa using ⟨ihLeft, ihRight⟩) m
    simp only [performAll, evaluateAll, List.map_cons, List.map_nil, List.cons.injEq, and_true]
      at storage values
    apply Settles.of_lasting <;> simp [perform, evaluate, storage, values]
  | call callee computed ih =>
    cases callee with
    | none => exact .of_lasting rfl fun _ => rfl
    | some callee =>
      obtain ⟨storage, values⟩ := settles_all computed ordered ih m
      apply Settles.of_lasting <;> simp [perform, evaluate, storage, values]

/-- Operands are read from left to right, unless memory is read after a call to the right of
it that writes to the heap. -/
theorem defer_eq_evaluate (computed : x.Computed) (ordered : x.settled = true ∨ env.KeepsHeap)
    (m : Storage) : x.defer env m = x.evaluate env m := by
  have same := settles computed ordered m
  simp only [defer, same.storage, same.value]

end Node

namespace Environment

variable (env : Environment)

/-- What a plain instruction does. A call reads its arguments and storage at the same time, and
leaves the registers of its caller alone. -/
def effect (x : Instr) (s : Machine) : Machine :=
  match x with
  | .call (some callee) args result =>
    let done := env.call callee (args.map s.read) s.storage
    Machine.write env.toWorld ⟨s.registers, done.2⟩ result done.1
  | x => x.effect env.toWorld s

def meaning : Run.Meaning Machine where
  effect := env.effect
  holds condition s := s.read condition != 0

end Environment

def Returns (env : Environment) (code : List Line) (start : Machine) (outcome : Int64 × Storage) :
    Prop :=
  ∃ k, let o := Machine.observe (Run.runCode env.meaning code k code start)
    o.conclusion = some (.returned (some outcome.1)) ∧ o.storage = outcome.2

end Codegen
