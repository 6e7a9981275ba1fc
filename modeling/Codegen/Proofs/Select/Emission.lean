import Codegen.Proofs.Evaluation
import Codegen.Proofs.Select.Behaviour
import Codegen.Proofs.Select.Checked
import Codegen.Proofs.Select.Generates

/-! What selection does for a node, one rule for each way that code is generated, with the node
that each instruction is for. Whatever holds of all code can be shown rule by rule. The rules say
nothing of how the arguments of a call were computed, so that is kept along with them. -/
namespace Codegen

def Instr.isCall : Instr → Bool
  | .call _ _ _ => true
  | _ => false

namespace Select

structure Emitted where
  used : Bool
  node : Node
  instr : Instr

def emitted (used : Bool) (x : Node) (code : List Instr) : List Emitted :=
  code.map (⟨used, x, ·⟩)

namespace Selection

def put (s : Selection) (x : Instr) : Selection :=
  { s with code := s.code.push x }

def take (s : Selection) : Selection :=
  { s with temps := max s.temps (s.top + 1), top := s.top + 1 }

def make (s : Selection) : Selection :=
  { s with objects := s.objects + 1 }

def free (s : Selection) (top : Nat) : Selection :=
  { s with top }

end Selection

/-- A value is brought to register `n` by the given code. -/
inductive Loads : Option Value → Selection → Nat → Selection → List Instr → Prop
  | held (n : Nat) (s : Selection) : Loads (some (.temp n)) s n s []
  | fetched {v : Value} (s : Selection) : v.operand.temps = [] →
      Loads (some v) s s.top (s.take.put (.move (register s.top) v.operand))
        [.move (register s.top) v.operand]
  | read (object n : Nat) (s : Selection) :
      Loads (some (.deref object n)) s n
        (s.put (.move (register n) (Value.deref object n).operand))
        [.move (register n) (Value.deref object n).operand]

theorem loads_of_ok {v : Option Value} {s t : Selection} {n : Nat}
    (done : inRegister v s = .ok (n, t)) : ∃ own, Loads v s n t own := by
  cases v with
  | none => contradiction
  | some value =>
    cases value with
    | temp n =>
      cases done
      exact ⟨_, .held n s⟩
    | imm c | cell object symbol =>
      cases done
      exact ⟨_, .fetched s rfl⟩
    | deref object n =>
      cases done
      exact ⟨_, .read object n s⟩

inductive Settles : Option Value → Selection → Option Value → Selection → List Instr → Prop
  | number (c : Int64) (s : Selection) :
      Settles (some (.imm c)) s (some (.temp s.top))
        (s.take.put (.move (register s.top) (.imm c))) [.move (register s.top) (.imm c)]
  | other {v : Option Value} (s : Selection) : (∀ c, v ≠ some (.imm c)) → Settles v s v s []

theorem settles_of_ok {v v' : Option Value} {s t : Selection}
    (done : settle v s = .ok (v', t)) : ∃ own, Settles v s v' t own := by
  unfold settle at done
  split at done
  · cases done
    exact ⟨_, .number _ s⟩
  next other =>
    cases done
    exact ⟨_, .other s other⟩

inductive Indexes : Option Value → Selection → Operand → Selection → List Instr → Prop
  | none (s : Selection) : Indexes none s .absent s []
  | some {v : Value} {s t : Selection} {n : Nat} {own : List Instr} :
      Loads (some v) s n t own → Indexes (some v) s (register n) t own

theorem indexes_of_ok {v : Option Value} {s t : Selection} {j : Operand}
    (done : indexOperand v s = .ok (j, t)) : ∃ own, Indexes v s j t own := by
  cases v with
  | none =>
    cases done
    exact ⟨_, .none s⟩
  | some v =>
    obtain ⟨n, loaded, rfl⟩ := gen_map_ok done
    obtain ⟨own, loads⟩ := loads_of_ok (within_ok loaded)
    exact ⟨own, .some loads⟩

/-- The nodes that code for an address is generated for: an index may be missing. -/
def Address.parts (a : Address) : List Node :=
  if a.index.isMissing then [a.base] else [a.base, a.index]

def addressInstr (loads : Bool) (object n : Nat) (j : Operand) (a : Address) : Instr :=
  let source : Operand := .addr object none (register n) j a.scale a.offset
  if loads then .move (register n) source else .lea (register n) source

/-- Code is generated for nodes one after the other, with `vs` for their values. -/
inductive Selects (addressing : Bool) : Bool → List Node → Selection → List (Option Value) →
    Selection → List Emitted → Prop
  | nil (s : Selection) : Selects addressing true [] s [] s []
  | cons {x : Node} {xs : List Node} {s t u : Selection} {v : Option Value}
      {vs : List (Option Value)} {log log' : List Emitted} :
      Selects addressing true [x] s [v] t log → Selects addressing true xs t vs u log' →
      Selects addressing true (x :: xs) s (v :: vs) u (log ++ log')
  | const (used : Bool) (c : Int64) (s : Selection) :
      Selects addressing used [.const c] s [some (.imm c)] s []
  | text (used : Bool) (symbol : Symbol) (s : Selection) :
      Selects addressing used [.text (some symbol)] s [some (.temp s.top)]
        (s.take.make.put (.lea (register s.top) (.cell s.objects symbol)))
        (emitted used (.text (some symbol)) [.lea (register s.top) (.cell s.objects symbol)])
  | var (used : Bool) (symbol : Symbol) (s : Selection) :
      Selects addressing used [.var (some symbol)] s [some (.temp s.top)]
        (s.make.take.put (.move (register s.top) (.cell s.objects symbol)))
        (emitted used (.var (some symbol)) [.move (register s.top) (.cell s.objects symbol)])
  | addr (used : Bool) (symbol : Symbol) (s : Selection) :
      Selects addressing used [.addr (some symbol)] s [some (.cell s.objects symbol)] s.make []
  | mem {used : Bool} {x : Node} {s t u : Selection} {v : Option Value} {n : Nat}
      {log : List Emitted} {own : List Instr} :
      fusion? addressing used (.mem x) = none →
      Selects addressing true [x] s [v] t log → Loads v t n u own →
      Selects addressing used [.mem x] s [some (.deref u.objects n)] u.make
        (log ++ emitted used (.mem x) own)
  | fused {used : Bool} {x y : Node} {a : Address} {s t u w : Selection} {b : Option Value}
      {rest : List (Option Value)} {n : Nat} {j : Operand} {log : List Emitted}
      {own own' : List Instr} :
      fusion? addressing used x = some (y, a) →
      Selects addressing true a.parts s (b :: rest) t log → Loads b t n u own →
      Indexes rest.head?.join u j w own' →
      Selects addressing used [x] s [some (.temp n)]
        ((w.make.put (addressInstr x.isMem w.objects n j a)).free
          (if s.top ≤ n then n + 1 else w.top))
        (log ++ emitted used x (own ++ own' ++ [addressInstr x.isMem w.objects n j a]))
  | immediate {used : Bool} {op : BinaryOp} {left right : Node} {c : Int64} {s t u : Selection}
      {v : Option Value} {n : Nat} {z : Instr} {log : List Emitted} {own : List Instr} :
      fusion? addressing used (.binary op left right) = none →
      (immediate op left right = .left c ∨ immediate op left right = .right c) →
      Selects addressing true [Node.accumulator op left right] s [v] t log →
      kindOf v = .number → Loads v t n u own → binaryInstr? op (register n) (.imm c) = some z →
      Selects addressing used [.binary op left right] s [some (.temp n)] (u.put z)
        (log ++ emitted used (.binary op left right) (own ++ [z]))
  | binary {used : Bool} {op : BinaryOp} {left right : Node} {s t t' u w : Selection}
      {l l' r : Option Value} {n : Nat} {z : Instr} {log log' : List Emitted}
      {own own' : List Instr} :
      fusion? addressing used (.binary op left right) = none →
      immediate op left right = .neither →
      Selects addressing true [left] s [l] t log → Settles l t l' t' own →
      Selects addressing true [right] t' [r] u log' → kindOf l' = .number →
      Loads l' u n w own' → binaryInstr? op (register n) (operand r) = some z →
      Selects addressing used [.binary op left right] s [some (.temp n)] ((w.put z).free t'.top)
        (log ++ emitted used (.binary op left right) own ++
          (log' ++ emitted used (.binary op left right) (own' ++ [z])))
  | unary {used : Bool} {op : UnaryOp} {x : Node} {s t u : Selection} {v : Option Value} {n : Nat}
      {z : Instr} {log : List Emitted} {own : List Instr} :
      Selects addressing true [x] s [v] t log → Loads v t n u own →
      unaryInstr? op (register n) = some z →
      Selects addressing used [.unary op x] s [some (.temp n)] (u.put z)
        (log ++ emitted used (.unary op x) (own ++ [z]))
  | call {callee : Symbol} {args : List Node} {s t : Selection} {vs : List (Option Value)}
      {log : List Emitted} :
      Selects addressing true args s vs t log →
      Selects addressing true [.call (some callee) args] s [some (.temp s.top)]
        ((t.free s.top).take.put (.call (some callee) (vs.map operand) (register s.top)))
        (log ++ emitted true (.call (some callee) args)
          [.call (some callee) (vs.map operand) (register s.top)])
  | callStatement {callee : Symbol} {args : List Node} {s t : Selection}
      {vs : List (Option Value)} {log : List Emitted} :
      Selects addressing true args s vs t log →
      Selects addressing false [.call (some callee) args] s [none]
        ((t.free s.top).put (.call (some callee) (vs.map operand) .absent))
        (log ++ emitted false (.call (some callee) args)
          [.call (some callee) (vs.map operand) .absent])
  | assignSymbol {used : Bool} {target source : Node} {symbol : Symbol} {s t : Selection}
      {v : Option Value} {log : List Emitted} :
      target = .var (some symbol) ∨ target = .addr (some symbol) →
      Selects addressing true [source] s.make [v] t log →
      Selects addressing used [.assign target source] s [none]
        (t.put (.move (.cell s.objects symbol) (operand v)))
        (log ++ emitted used (.assign target source) [.move (.cell s.objects symbol) (operand v)])
  | assign {used : Bool} {target source : Node} {s t u w : Selection} {l v : Option Value} {n : Nat}
      {log log' : List Emitted} {own : List Instr} :
      Selects addressing true [target] s [l] t log → Loads l t n u own →
      Selects addressing true [source] u.make [v] w log' →
      Selects addressing used [.assign target source] s [none]
        (w.put (.move (Value.deref u.objects n).operand (operand v)))
        (log ++ emitted used (.assign target source) own ++ (log' ++
          emitted used (.assign target source)
            [.move (Value.deref u.objects n).operand (operand v)]))
  | label (used : Bool) (name : Bytes) (s : Selection) :
      Selects addressing used [.label name] s [none] (s.put (.label name))
        (emitted used (.label name) [.label name])
  | jump (used : Bool) (target : Bytes) (s : Selection) :
      Selects addressing used [.jump target] s [none] (s.put (.jump target))
        (emitted used (.jump target) [.jump target])
  | branch {used : Bool} {condition : Node} {s t : Selection} {v : Option Value}
      {log : List Emitted} (ifTrue ifFalse : Bytes) :
      Selects addressing true [condition] s [v] t log →
      Selects addressing used [.branch condition ifTrue ifFalse] s [none]
        (t.put (.branch (operand v) ifTrue ifFalse []))
        (log ++ emitted used (.branch condition ifTrue ifFalse)
          [.branch (operand v) ifTrue ifFalse []])
  | retNothing (used : Bool) (s : Selection) :
      Selects addressing used [.ret .missing] s [none] (s.put (.ret .absent))
        (emitted used (.ret .missing) [.ret .absent])
  | ret {used : Bool} {x : Node} {s t : Selection} {v : Option Value} {log : List Emitted} :
      x ≠ .missing → Selects addressing true [x] s [v] t log →
      Selects addressing used [.ret x] s [none] (t.put (.ret (operand v)))
        (log ++ emitted used (.ret x) [.ret (operand v)])

section Code

variable {addressing used : Bool} {xs : List Node} {s t : Selection} {v v' : Option Value}
  {own : List Instr} {log : List Emitted}

@[simp] theorem map_instr_emitted (used : Bool) (x : Node) (code : List Instr) :
    (emitted used x code).map Emitted.instr = code := by
  simp [emitted, Function.comp_def]

theorem Loads.code {n : Nat} (loads : Loads v s n t own) :
    t.code.toList = s.code.toList ++ own := by
  cases loads <;> simp [Selection.put, Selection.take]

theorem Settles.code (settles : Settles v s v' t own) :
    t.code.toList = s.code.toList ++ own := by
  cases settles <;> simp [Selection.put, Selection.take]

theorem Indexes.code {j : Operand} (indexes : Indexes v s j t own) :
    t.code.toList = s.code.toList ++ own := by
  cases indexes with
  | none => simp
  | some loads => exact loads.code

/-- The instructions of the log are the code that is added. -/
theorem Selects.code {vs : List (Option Value)} (selects : Selects addressing used xs s vs t log) :
    t.code.toList = s.code.toList ++ log.map Emitted.instr := by
  induction selects with
  | nil s | const used c s | addr used symbol s => simp [Selection.make]
  | cons first second ih ih' => simp [ih, ih']
  | text used symbol s | var used symbol s =>
    simp [Selection.put, Selection.take, Selection.make]
  | label used name s | jump used target s | retNothing used s => simp [Selection.put]
  | mem absent part loads ih => simp [Selection.make, loads.code, ih]
  | fused found parts loads indexes ih =>
    simp [Selection.put, Selection.make, Selection.free, indexes.code, loads.code, ih]
  | immediate absent found part number loads instr ih | unary part loads instr ih =>
    simp [Selection.put, loads.code, ih]
  | binary absent found inLeft settles inRight number loads instr ih ih' =>
    simp [Selection.put, Selection.free, loads.code, ih', settles.code, ih]
  | call args ih | callStatement args ih =>
    simp [Selection.put, Selection.take, Selection.free, ih]
  | assignSymbol place source ih => simp [Selection.put, Selection.make, ih]
  | assign target loads source ih ih' =>
    simp [Selection.put, ih', Selection.make, loads.code, ih]
  | branch ifTrue ifFalse part ih | ret present part ih => simp [Selection.put, ih]

theorem Selects.length {vs : List (Option Value)}
    (selects : Selects addressing used xs s vs t log) : vs.length = xs.length := by
  induction selects with
  | cons first second ih ih' => simp [ih']
  | _ => rfl

end Code

section Calls

/-- The values of nodes one after the other, each found where the one before leaves off. -/
inductive Passes (addressing : Bool) :
    List Node → Selection → List (Option Value) → Selection → Prop
  | nil (s : Selection) : Passes addressing [] s [] s
  | cons {x : Node} {xs : List Node} {s t u : Selection} {v : Option Value}
      {vs : List (Option Value)} : value addressing x s = .ok (v, t) →
      Passes addressing xs t vs u → Passes addressing (x :: xs) s (v :: vs) u

/-- The instruction of a call, right after the code of its arguments, with the operand of each one's
value in their order. The result goes to the first register that was free before the arguments; a
call that is a statement has none. -/
inductive Answers (addressing : Bool) (before : List Instr) : Emitted → Prop
  | result {callee : Symbol} {args : List Node} {s t : Selection} {vs : List (Option Value)} :
      Passes addressing args s vs t → t.code.toList = before → Answers addressing before
        ⟨true, .call (some callee) args, .call (some callee) (vs.map operand) (register s.top)⟩
  | nothing {callee : Symbol} {args : List Node} {s t : Selection} {vs : List (Option Value)} :
      Passes addressing args s vs t → t.code.toList = before → Answers addressing before
        ⟨false, .call (some callee) args, .call (some callee) (vs.map operand) .absent⟩

/-- All calls of a log that comes after the given code. -/
def Answered (addressing : Bool) (before : List Instr) : List Emitted → Prop
  | [] => True
  | e :: log => (e.instr.isCall = true → Answers addressing before e) ∧
    Answered addressing (before ++ [e.instr]) log

def Quiet (code : List Instr) : Prop :=
  ∀ z ∈ code, z.isCall = false

variable {addressing used : Bool} {before code own own' : List Instr} {log log' : List Emitted}
  {x : Node} {s t : Selection} {v v' : Option Value} {n : Nat}

theorem quiet_nil : Quiet [] := by
  simp [Quiet]

theorem quiet_one {z : Instr} (other : z.isCall = false) : Quiet [z] := by
  simpa [Quiet] using other

theorem Quiet.append (quiet : Quiet own) (quiet' : Quiet own') : Quiet (own ++ own') :=
  List.forall_mem_append.mpr ⟨quiet, quiet'⟩

theorem Loads.quiet (loads : Loads v s n t own) : Quiet own := by
  cases loads with
  | held n s => exact quiet_nil
  | fetched s none | read object n s => exact quiet_one rfl

theorem Settles.quiet (settles : Settles v s v' t own) : Quiet own := by
  cases settles with
  | number c s => exact quiet_one rfl
  | other s placed => exact quiet_nil

theorem Indexes.quiet {j : Operand} (indexes : Indexes v s j t own) : Quiet own := by
  cases indexes with
  | none s => exact quiet_nil
  | some loads => exact loads.quiet

theorem binaryInstr?_quiet {op : BinaryOp} {target source : Operand} {z : Instr}
    (found : binaryInstr? op target source = some z) : z.isCall = false := by
  cases op <;> cases found <;> rfl

theorem unaryInstr?_quiet {op : UnaryOp} {target : Operand} {z : Instr}
    (found : unaryInstr? op target = some z) : z.isCall = false := by
  cases op <;> cases found <;> rfl

theorem addressInstr_quiet (loads : Bool) (object n : Nat) (j : Operand) (a : Address) :
    (addressInstr loads object n j a).isCall = false := by
  cases loads <;> rfl

theorem answered_append : Answered addressing before (log ++ log') ↔
    Answered addressing before log ∧
      Answered addressing (before ++ log.map Emitted.instr) log' := by
  induction log generalizing before with
  | nil => simp [Answered]
  | cons e log ih => simp [Answered, ih, and_assoc]

theorem answered_emitted (quiet : Quiet own) :
    Answered addressing before (emitted used x own) := by
  induction own generalizing before with
  | nil => trivial
  | cons z own ih =>
    obtain ⟨other, others⟩ := List.forall_mem_cons.mp quiet
    exact ⟨by simp [other], ih others⟩

theorem Answered.emitted (answered : Answered addressing before log) (quiet : Quiet own) :
    Answered addressing before (log ++ emitted used x own) :=
  answered_append.mpr ⟨answered, answered_emitted quiet⟩

theorem Answered.next (answered : Answered addressing s.code.toList log)
    (code : t.code.toList = s.code.toList ++ log.map Emitted.instr)
    (answered' : Answered addressing t.code.toList log') :
    Answered addressing s.code.toList (log ++ log') :=
  answered_append.mpr ⟨answered, code ▸ answered'⟩

end Calls

section Inversion

variable {addressing used : Bool} {x y left right : Node} {op : BinaryOp} {s t u : Selection}
  {v v' : Option Value}

theorem combine_loads {right : Operand} (done : combine op v right s = .ok (v', t)) :
    kindOf v = .number ∧ ∃ n middle z own, Loads v s n middle own ∧
      binaryInstr? op (register n) right = some z ∧ v' = some (.temp n) ∧ t = middle.put z := by
  have number := ((generates_combine op right rfl).of_ok done).1.1
  obtain ⟨n, middle, z, loaded, found, rfl, rfl⟩ := combine_ok done
  obtain ⟨own, loads⟩ := loads_of_ok loaded
  exact ⟨number, n, middle, z, own, loads, found, rfl, rfl⟩

theorem applyUnary_loads {op : UnaryOp} (done : applyUnary op v s = .ok (v', t)) :
    ∃ n middle z own, Loads v s n middle own ∧
      unaryInstr? op (register n) = some z ∧ v' = some (.temp n) ∧ t = middle.put z := by
  obtain ⟨n, middle, z, loaded, found, rfl, rfl⟩ := applyUnary_ok done
  obtain ⟨own, loads⟩ := loads_of_ok loaded
  exact ⟨n, middle, z, own, loads, found, rfl, rfl⟩

theorem computeAddress_loads {loads : Bool} {a : Address} {top : Nat} {b i : Option Value}
    (done : computeAddress loads a.scale a.offset top b i s = .ok (v, t)) :
    ∃ n middle j last own own', Loads b s n middle own ∧ Indexes i middle j last own' ∧
      v = some (.temp n) ∧ t = (last.make.put (addressInstr loads last.objects n j a)).free
        (if top ≤ n then n + 1 else last.top) := by
  unfold computeAddress at done
  obtain ⟨n, middle, loaded, done⟩ := gen_bind_ok done
  obtain ⟨j, last, indexed, done⟩ := gen_bind_ok done
  obtain ⟨own, loads⟩ := loads_of_ok (within_ok loaded)
  obtain ⟨own', indexes⟩ := indexes_of_ok indexed
  refine ⟨n, middle, j, last, own, own', loads, indexes, ?_⟩
  by_cases above : top ≤ n
  · simp only [above, if_true] at done ⊢
    cases done
    exact ⟨rfl, rfl⟩
  · simp only [above, if_false] at done ⊢
    cases done
    exact ⟨rfl, rfl⟩

theorem lowered_fused_eq {a : Address} (found : fusion? addressing used x = some (y, a)) :
    lowered addressing used x = fused addressing x.isMem a := by
  rcases fusion?_some found with ⟨rfl, selected⟩ | ⟨rfl, rfl, selected⟩
  · cases used with
    | true => exact (value_plain (by cases addressing <;> rfl)).trans (node_mem_fused selected)
    | false => exact node_mem_fused selected
  · have noMem : x.isMem = false := by
      rcases selected?_summed selected with ⟨_ | _ | _⟩ | _ | _ <;> rfl
    rw [noMem]
    exact value_fused selected

structure Traced (addressing used : Bool) (xs : List Node) (s : Selection)
    (vs : List (Option Value)) (t : Selection) (log : List Emitted) : Prop where
  selects : Selects addressing used xs s vs t log
  answered : Answered addressing s.code.toList log

def Known (addressing : Bool) (x : Node) : Prop :=
  ∀ {s t v}, value addressing x s = .ok (v, t) → ∃ log, Traced addressing true [x] s [v] t log

theorem Traced.cons {xs : List Node} {vs : List (Option Value)} {log log' : List Emitted}
    (first : Traced addressing true [x] s [v] t log)
    (second : Traced addressing true xs t vs u log') :
    Traced addressing true (x :: xs) s (v :: vs) u (log ++ log') where
  selects := .cons first.selects second.selects
  answered := first.answered.next first.selects.code second.answered

theorem traced_parts {a : Address} {b i : Option Value} (base : Known addressing a.base)
    (index : Known addressing a.index) (doneBase : value addressing a.base s = .ok (b, t))
    (doneIndex : indexValue addressing a.index t = .ok (i, u)) :
    ∃ rest log, Traced addressing true a.parts s (b :: rest) u log ∧ rest.head?.join = i := by
  obtain ⟨log, traced⟩ := base doneBase
  by_cases missing : a.index = .missing
  · rw [missing, indexValue] at doneIndex
    cases doneIndex
    refine ⟨[], log, ?_, rfl⟩
    rw [Address.parts, missing]
    exact traced
  · have present : a.index.isMissing = false := by
      cases found : a.index <;> first | rfl | exact absurd found missing
    rw [indexValue] at doneIndex
    · obtain ⟨log', traced'⟩ := index doneIndex
      refine ⟨[i], log ++ log', ?_, rfl⟩
      rw [Address.parts, present]
      exact traced.cons traced'
    · exact missing

theorem traced_arguments {callee : Symbol} {args : List Node} {i : Nat}
    {vs : List (Option Value)} (known : ∀ y ∈ args, Known addressing y)
    (done : arguments addressing callee i args s = .ok (vs, t)) :
    ∃ log, Traced addressing true args s vs t log := by
  induction args generalizing i s vs with
  | nil =>
    rw [arguments] at done
    cases done
    exact ⟨_, .nil _, trivial⟩
  | cons x args ih =>
    obtain ⟨first, others⟩ := List.forall_mem_cons.mp known
    rw [arguments] at done
    obtain ⟨v, middle, doneFirst, done⟩ := gen_bind_ok done
    obtain ⟨vs, last, doneOthers, done⟩ := gen_bind_ok done
    cases done
    obtain ⟨log, traced⟩ := first (within_ok doneFirst)
    obtain ⟨log', traced'⟩ := ih others doneOthers
    exact ⟨_, traced.cons traced'⟩

theorem passes_of_ok {callee : Symbol} {args : List Node} {i : Nat} {vs : List (Option Value)}
    (done : arguments addressing callee i args s = .ok (vs, t)) :
    Passes addressing args s vs t := by
  induction args generalizing i s vs with
  | nil =>
    rw [arguments] at done
    cases done
    exact .nil _
  | cons x args ih =>
    rw [arguments] at done
    obtain ⟨v, middle, doneFirst, done⟩ := gen_bind_ok done
    obtain ⟨vs, last, doneOthers, done⟩ := gen_bind_ok done
    cases done
    exact .cons (within_ok doneFirst) (ih doneOthers)

theorem traced_immediate {c : Int64}
    (absent : fusion? addressing used (.binary op left right) = none)
    (found : immediate op left right = .left c ∨ immediate op left right = .right c)
    (known : Known addressing (Node.accumulator op left right))
    (doneFirst : value addressing (Node.accumulator op left right) s = .ok (v, t))
    (done : combine op v (.imm c) t = .ok (v', u)) :
    ∃ log, Traced addressing used [.binary op left right] s [v'] u log := by
  obtain ⟨number, n, last, z, own, loads, instr, rfl, rfl⟩ := combine_loads done
  obtain ⟨log, traced⟩ := known doneFirst
  exact ⟨_, .immediate absent found traced.selects number loads instr,
    traced.answered.emitted (loads.quiet.append (quiet_one (binaryInstr?_quiet instr)))⟩

theorem traced_binary (absent : fusion? addressing used (.binary op left right) = none)
    (inLeft : Known addressing left) (inRight : Known addressing right)
    (done : node addressing used (.binary op left right) s = .ok (v, t)) :
    ∃ log, Traced addressing used [.binary op left right] s [v] t log := by
  cases found : immediate op left right with
  | left c =>
    rw [node, found] at done
    obtain ⟨r, middle, doneRight, done⟩ := gen_bind_ok done
    have accumulator : Node.accumulator op left right = right := by rw [Node.accumulator, found]
    rw [← accumulator] at inRight doneRight
    exact traced_immediate absent (.inl found) inRight doneRight done
  | right c =>
    rw [node, found] at done
    obtain ⟨l, middle, doneLeft, done⟩ := gen_bind_ok done
    have accumulator : Node.accumulator op left right = left := by rw [Node.accumulator, found]
    rw [← accumulator] at inLeft doneLeft
    exact traced_immediate absent (.inr found) inLeft doneLeft done
  | neither =>
    rw [node, found] at done
    obtain ⟨l, first, doneLeft, done⟩ := gen_bind_ok done
    obtain ⟨l', second, settled, done⟩ := gen_bind_ok done
    obtain ⟨_, _, marked, done⟩ := gen_bind_ok done
    cases marked
    obtain ⟨r, third, doneRight, done⟩ := gen_bind_ok done
    obtain ⟨result, fourth, combined, done⟩ := gen_bind_ok done
    cases done
    obtain ⟨own, settles⟩ := settles_of_ok settled
    obtain ⟨number, n, last, z, own', loads, instr, rfl, rfl⟩ := combine_loads combined
    obtain ⟨log, traced⟩ := inLeft doneLeft
    obtain ⟨log', traced'⟩ := inRight doneRight
    refine ⟨_, .binary absent found traced.selects settles traced'.selects number loads instr, ?_⟩
    refine (traced.answered.emitted settles.quiet).next ?_
      (traced'.answered.emitted (loads.quiet.append (quiet_one (binaryInstr?_quiet instr))))
    simp [settles.code, traced.selects.code]

theorem traced_call {callee : Symbol} {args : List Node} (known : ∀ y ∈ args, Known addressing y)
    (done : node addressing used (.call (some callee) args) s = .ok (v, t)) :
    ∃ log, Traced addressing used [.call (some callee) args] s [v] t log := by
  rw [node] at done
  obtain ⟨_, _, marked, done⟩ := gen_bind_ok done
  cases marked
  obtain ⟨vs, middle, doneArgs, done⟩ := gen_bind_ok done
  obtain ⟨log, traced⟩ := traced_arguments known doneArgs
  have passes := passes_of_ok doneArgs
  have code := traced.selects.code
  cases used with
  | true =>
    cases done
    exact ⟨_, .call traced.selects, answered_append.mpr
      ⟨traced.answered, fun _ => .result passes code, trivial⟩⟩
  | false =>
    cases done
    exact ⟨_, .callStatement traced.selects, answered_append.mpr
      ⟨traced.answered, fun _ => .nothing passes code, trivial⟩⟩

theorem traced_assign {target source : Node} (inTarget : Known addressing target)
    (inSource : Known addressing source)
    (done : node addressing used (.assign target source) s = .ok (v, t)) :
    ∃ log, Traced addressing used [.assign target source] s [v] t log := by
  rw [node] at done
  obtain ⟨place, middle, placed, done⟩ := gen_bind_ok done
  obtain ⟨v', last, doneSource, done⟩ := gen_bind_ok done
  cases done
  obtain ⟨log', traced'⟩ := inSource (within_ok doneSource)
  cases target with
  | var symbol =>
    cases symbol <;> rw [assignTarget] at placed <;> cases placed
    exact ⟨_, .assignSymbol (.inl rfl) traced'.selects, traced'.answered.emitted (quiet_one rfl)⟩
  | addr symbol =>
    cases symbol <;> rw [assignTarget] at placed <;> cases placed
    exact ⟨_, .assignSymbol (.inr rfl) traced'.selects, traced'.answered.emitted (quiet_one rfl)⟩
  | const c | text symbol | missing =>
    rw [assignTarget] at placed
    cases placed
  | _ =>
    rw [assignTarget] at placed
    · obtain ⟨l, first, doneTarget, placed⟩ := gen_bind_ok placed
      obtain ⟨n, second, loaded, placed⟩ := gen_bind_ok placed
      cases placed
      obtain ⟨log, traced⟩ := inTarget (within_ok doneTarget)
      obtain ⟨own, loads⟩ := loads_of_ok (within_ok loaded)
      refine ⟨_, .assign traced.selects loads traced'.selects, ?_⟩
      refine (traced.answered.emitted loads.quiet).next ?_
        (traced'.answered.emitted (quiet_one rfl))
      simp [loads.code, traced.selects.code]
    all_goals simp

theorem traced_node (absent : fusion? addressing used x = none)
    (below : ∀ y ∈ x.children, Known addressing y)
    (done : node addressing used x s = .ok (v, t)) :
    ∃ log, Traced addressing used [x] s [v] t log := by
  cases x with
  | missing =>
    rw [node] at done
    cases done
  | const c =>
    rw [node] at done
    cases done
    exact ⟨_, .const used c s, trivial⟩
  | text symbol =>
    cases symbol <;> rw [node] at done <;> cases done
    exact ⟨_, .text used _ s, answered_emitted (quiet_one rfl)⟩
  | var symbol =>
    cases symbol <;> rw [node] at done <;> cases done
    exact ⟨_, .var used _ s, answered_emitted (quiet_one rfl)⟩
  | addr symbol =>
    cases symbol <;> rw [node] at done <;> cases done
    exact ⟨_, .addr used _ s, trivial⟩
  | mem x =>
    by_cases place : ∃ symbol, x = .addr symbol
    · obtain ⟨symbol, rfl⟩ := place
      rw [node] at done
      cases done
    · rw [node_mem_plain (fun symbol same => place ⟨symbol, same⟩)
        (Option.map_eq_none_iff.mp absent)] at done
      obtain ⟨v', middle, doneAddress, done⟩ := gen_bind_ok done
      obtain ⟨n, last, loaded, done⟩ := gen_bind_ok done
      cases done
      obtain ⟨log, traced⟩ := below x (by simp [Node.children]) (within_ok doneAddress)
      obtain ⟨own, loads⟩ := loads_of_ok (within_ok loaded)
      exact ⟨_, .mem absent traced.selects loads, traced.answered.emitted loads.quiet⟩
  | binary op left right =>
    exact traced_binary absent (below left (by simp [Node.children]))
      (below right (by simp [Node.children])) done
  | unary op x =>
    rw [node] at done
    obtain ⟨v', middle, doneOperand, done⟩ := gen_bind_ok done
    obtain ⟨log, traced⟩ := below x (by simp [Node.children]) doneOperand
    obtain ⟨n, last, z, own, loads, instr, rfl, rfl⟩ := applyUnary_loads done
    exact ⟨_, .unary traced.selects loads instr,
      traced.answered.emitted (loads.quiet.append (quiet_one (unaryInstr?_quiet instr)))⟩
  | call callee args =>
    cases callee with
    | none =>
      rw [node] at done
      cases done
    | some callee => exact traced_call below done
  | assign target source =>
    exact traced_assign (below target (by simp [Node.children]))
      (below source (by simp [Node.children])) done
  | label name =>
    rw [node] at done
    cases done
    exact ⟨_, .label used name s, answered_emitted (quiet_one rfl)⟩
  | jump target =>
    rw [node] at done
    cases done
    exact ⟨_, .jump used target s, answered_emitted (quiet_one rfl)⟩
  | branch condition ifTrue ifFalse =>
    rw [node] at done
    obtain ⟨v', middle, doneCondition, done⟩ := gen_bind_ok done
    cases done
    obtain ⟨log, traced⟩ := below condition (by simp [Node.children]) (within_ok doneCondition)
    exact ⟨_, .branch ifTrue ifFalse traced.selects, traced.answered.emitted (quiet_one rfl)⟩
  | ret x =>
    by_cases missing : x = .missing
    · subst missing
      rw [node] at done
      cases done
      exact ⟨_, .retNothing used s, answered_emitted (quiet_one rfl)⟩
    · rw [Node.children_ret missing] at below
      rw [node] at done
      · obtain ⟨v', middle, doneValue, done⟩ := gen_bind_ok done
        cases done
        obtain ⟨log, traced⟩ := below x (by simp) (within_ok doneValue)
        exact ⟨_, .ret missing traced.selects, traced.answered.emitted (quiet_one rfl)⟩
      · exact missing

/-- All that is ever done to generate code for a node is told by the rules, and its calls come
after the code of their arguments. -/
theorem traced_of_ok (done : lowered addressing used x s = .ok (v, t)) :
    ∃ log, Traced addressing used [x] s [v] t log := by
  induction used, x using fusion_induction addressing generalizing s v t with
  | fused used x y a found base index =>
    rw [lowered_fused_eq found] at done
    obtain ⟨_, _, marked, done⟩ := gen_bind_ok done
    cases marked
    obtain ⟨b, middle, doneBase, done⟩ := gen_bind_ok done
    obtain ⟨i, last, doneIndex, done⟩ := gen_bind_ok done
    obtain ⟨rest, log, traced, rfl⟩ :=
      traced_parts base index (within_ok doneBase) (within_ok doneIndex)
    obtain ⟨n, _, j, _, own, own', loads, indexes, rfl, rfl⟩ := computeAddress_loads done
    exact ⟨_, .fused found traced.selects loads indexes, traced.answered.emitted
      ((loads.quiet.append indexes.quiet).append (quiet_one (addressInstr_quiet ..)))⟩
  | plain used x absent below =>
    rw [lowered_plain absent] at done
    exact traced_node absent (fun y child => below y child) done

theorem selects_of_ok (done : lowered addressing used x s = .ok (v, t)) :
    ∃ log, Selects addressing used [x] s [v] t log := by
  obtain ⟨log, traced⟩ := traced_of_ok done
  exact ⟨log, traced.selects⟩

end Inversion

section Bodies

variable {addressing : Bool} {body : List Node} {s t : Selection} {logs : List (List Emitted)}

inductive SelectsBody (addressing : Bool) : List Node → Selection → Selection →
    List (List Emitted) → Prop
  | nil (s : Selection) : SelectsBody addressing [] s s []
  | cons {x : Node} {xs : List Node} {s t u : Selection} {v : Option Value} {log : List Emitted}
      {logs : List (List Emitted)} :
      Selects addressing false [x] (s.free 0) [v] t log → SelectsBody addressing xs t u logs →
      SelectsBody addressing (x :: xs) s u (log :: logs)

theorem tracedBody_of_ok {i : Nat} (done : statements addressing i body s = .ok ((), t)) :
    ∃ logs, SelectsBody addressing body s t logs ∧
      Answered addressing s.code.toList logs.flatten := by
  induction body generalizing i s with
  | nil =>
    cases done
    exact ⟨_, .nil _, trivial⟩
  | cons x xs ih =>
    obtain ⟨_, _, released, done⟩ := gen_bind_ok done
    cases released
    obtain ⟨v, middle, doneFirst, done⟩ := gen_bind_ok done
    have doneFirst : lowered addressing false x _ = .ok (v, middle) := within_ok doneFirst
    obtain ⟨log, traced⟩ := traced_of_ok doneFirst
    obtain ⟨logs, others, answered⟩ := ih done
    exact ⟨_, .cons traced.selects others, traced.answered.next traced.selects.code answered⟩

theorem SelectsBody.code (selects : SelectsBody addressing body s t logs) :
    t.code.toList = s.code.toList ++ logs.flatten.map Emitted.instr := by
  induction selects with
  | nil s => simp
  | cons first others ih => simp [ih, first.code, Selection.free]

/-- The instructions of a routine, statement by statement. A function that is expanded at its calls
has none. -/
inductive Logged (options : Options) (f : Func) : Routine → List (List Emitted) → Prop
  | expanded : (options.inline && f.inlined) = true →
      Logged options f { routine f {} with inlined := true } []
  | selected {t : Selection} {logs : List (List Emitted)} :
      (options.inline && f.inlined) = false →
      SelectsBody options.addressing f.body {} t logs → Logged options f (routine f t) logs

variable {options : Options} {f : Func} {r : Routine}

/-- A function is expanded at its calls, or has the code of its statements. -/
theorem generateFunc_cases (generated : generateFunc options f = .ok r) :
    ((options.inline && f.inlined) = true ∧ r = { routine f {} with inlined := true }) ∨
      ((options.inline && f.inlined) = false ∧
        ∃ t, statements options.addressing 0 f.body {} = .ok ((), t) ∧ r = routine f t) := by
  cases expanded : options.inline && f.inlined with
  | true =>
    have empty : generateFunc options f = .ok { routine f {} with inlined := true } :=
      if_pos expanded
    cases generated.symm.trans empty
    exact .inl ⟨rfl, rfl⟩
  | false =>
    rcases generateFunc_ok generated with ⟨inline, inlined, _⟩ | selected
    · simp [inline, inlined] at expanded
    · exact .inr ⟨rfl, selected⟩

theorem answered_of_ok (generated : generateFunc options f = .ok r) :
    ∃ logs, Logged options f r logs ∧ Answered options.addressing [] logs.flatten := by
  rcases generateFunc_cases generated with ⟨expanded, rfl⟩ | ⟨called, t, done, rfl⟩
  · exact ⟨[], .expanded expanded, trivial⟩
  · obtain ⟨logs, selects, answered⟩ := tracedBody_of_ok done
    exact ⟨logs, .selected called selects, answered⟩

theorem logged_of_ok (generated : generateFunc options f = .ok r) :
    ∃ logs, Logged options f r logs := by
  obtain ⟨logs, logged, _⟩ := answered_of_ok generated
  exact ⟨logs, logged⟩

theorem Logged.lines (logged : Logged options f r logs) :
    r.lines.map Line.instr = logs.flatten.map Emitted.instr := by
  cases logged with
  | expanded => rfl
  | selected called selects =>
    rw [routine_lines, selects.code]
    rfl

end Bodies

end Select

end Codegen
