import Codegen.Proofs.Evaluation
import Codegen.Proofs.Select.Behaviour

/-! The order of evaluation around calls. Code computes operands from left to right, but an
operand in memory is not read before it is used, and a call in between may have changed it. -/
namespace Codegen

namespace Environment

variable (env : Environment)

def execute (code : List Instr) (s : Machine) : Machine :=
  code.foldl (fun s x => env.effect x s) s

theorem effect_of_quiet {x : Instr} (quiet : x.quiet = true) (s : Machine) :
    env.effect x s = x.effect env.toWorld s := by
  cases x <;> first | rfl | contradiction

theorem execute_of_quiet {code : List Instr} (quiet : ∀ x ∈ code, x.quiet = true) (s : Machine) :
    env.execute code s = Codegen.execute env.toWorld code s := by
  induction code generalizing s with
  | nil => rfl
  | cons x code ih =>
    obtain ⟨first, others⟩ := List.forall_mem_cons.mp quiet
    change env.execute code (env.effect x s) = _
    rw [effect_of_quiet env first]
    exact ih others _

end Environment

namespace Select

variable {env : Environment} {s t u : Selection} {P Q : Machine → Machine → Prop}

/-- Plain instructions are added, and what they do is known. -/
def Does (env : Environment) (s t : Selection) (P : Machine → Machine → Prop) : Prop :=
  ∃ code, t.code.toList = s.code.toList ++ code ∧ (∀ x ∈ code, x.control = .plain) ∧
    ∀ m, P m (env.execute code m)

theorem Does.none (same : t.code = s.code) (holds : ∀ m, P m m) : Does env s t P :=
  ⟨[], by simp [same], by simp, holds⟩

theorem Does.push {x : Instr} (added : t.code = s.code.push x) (plain : x.control = .plain)
    (holds : ∀ m, P m (env.effect x m)) : Does env s t P :=
  ⟨[x], by simp [added], by simpa using plain, holds⟩

theorem Does.weaken (does : Does env s t P) (implies : ∀ m m', P m m' → Q m m') :
    Does env s t Q := by
  obtain ⟨code, added, plain, holds⟩ := does
  exact ⟨code, added, plain, fun m => implies m _ (holds m)⟩

/-- Nothing but code counts. -/
theorem Does.congr (does : Does env s t P) (same : u.code = t.code) : Does env s u P := by
  obtain ⟨code, added, known⟩ := does
  exact ⟨code, by rw [same, added], known⟩

theorem Does.trans {R : Machine → Machine → Prop} (first : Does env s t P)
    (second : Does env t u Q) (combine : ∀ m₁ m₂ m₃, P m₁ m₂ → Q m₂ m₃ → R m₁ m₃) :
    Does env s u R := by
  obtain ⟨code, added, plain, holds⟩ := first
  obtain ⟨code', added', plain', holds'⟩ := second
  refine ⟨code ++ code', by rw [added', added, List.append_assoc], ?_, fun m => ?_⟩
  · exact fun x inside => (List.mem_append.mp inside).elim (plain x) (plain' x)
  · have both := combine m _ _ (holds m) (holds' _)
    rwa [Environment.execute, List.foldl_append]

/-- Code that writes registers only. -/
theorem Emits.does (emits : Emits env.toWorld s t P) :
    Does env s t fun m m' => m'.storage = m.storage ∧ P m m' := by
  obtain ⟨code, added, quiet, holds⟩ := emits.with_storage
  refine ⟨code, added, fun x inside => Instr.control_of_quiet (quiet x inside), fun m => ?_⟩
  rw [env.execute_of_quiet quiet]
  exact holds m

/-- Code leaves an operand in registers that were free, and keeps the others. What the operand
will hold depends on storage at the time. -/
structure Performs (env : Environment) (p : Storage → (Storage → Int64) × Storage)
    (s t : Selection) (v : Option Value) : Prop where
  rises : s.top ≤ t.top
  held : Held s.top t.top v
  does : Does env s t fun m m' => (∀ k < s.top, m'.registers k = m.registers k) ∧
    m'.storage = (p m.storage).2 ∧
    ∀ later, Machine.read ⟨m'.registers, later⟩ (operand v) = (p m.storage).1 later

section Operands

variable {p q : Storage → (Storage → Int64) × Storage} {n : Nat} {v v' : Option Value}

/-- An operand is used up in its register. -/
theorem Performs.sets {f : Int64 → Int64} (performs : Performs env p s t v)
    (lands : Lands s.top t.top v t u n)
    (sets : Emits env.toWorld t u (Sets n fun m => f (m.read (operand v)))) :
    Performs env (fun m => (fun _ => f ((p m).1 (p m).2), (p m).2)) s u (some (.temp n)) := by
  obtain ⟨rises, held, does⟩ := performs
  obtain ⟨above, below⟩ : s.top ≤ n ∧ n < u.top := by
    rcases lands with ⟨above, below, top⟩ | ⟨rfl, top, _⟩ <;> omega
  refine ⟨by omega, ⟨above, below⟩, does.trans sets.does ?_⟩
  rintro m₁ m₂ m₃ ⟨kept, storage, read⟩ ⟨same, got, others⟩
  refine ⟨fun k inside => ?_, same.trans storage, fun later => ?_⟩
  · rw [others k (by omega), kept k inside]
  · rw [← storage, ← read]
    exact got

theorem Performs.inRegister (performs : Performs env p s t v)
    (done : inRegister v t = .ok (n, u)) :
    Performs env (fun m => (fun _ => (p m).1 (p m).2, (p m).2)) s u (some (.temp n)) := by
  obtain ⟨lands, sets⟩ := inRegister_spec (w := env.toWorld) performs.held done
  exact performs.sets (f := id) lands sets

/-- Memory is left where it is. -/
theorem Performs.newDeref {value : Value} {address : Storage → Int64} {after : Storage → Storage}
    (performs : Performs env (fun m => (fun _ => address m, after m)) s t (some (.temp n)))
    (done : newDeref n t = .ok (value, u)) :
    Performs env (fun m => (fun later => later.heap (address m), after m)) s u (some value) := by
  cases done
  obtain ⟨rises, held, does⟩ := performs
  refine ⟨rises, held, (does.weaken ?_).congr rfl⟩
  rintro m m' ⟨kept, storage, read⟩
  refine ⟨kept, storage, fun later => ?_⟩
  simp_all [operand, Value.operand, Machine.read]

/-- The first of two operands stays where it is. -/
theorem Performs.pair (first : Performs env p s t v) (second : Performs env q t u v') :
    Does env s u fun m m' => (∀ k < s.top, m'.registers k = m.registers k) ∧
      m'.storage = (q (p m.storage).2).2 ∧
      ∀ later, Machine.read ⟨m'.registers, later⟩ (operand v) = (p m.storage).1 later ∧
        Machine.read ⟨m'.registers, later⟩ (operand v') = (q (p m.storage).2).1 later := by
  obtain ⟨rises, held, does⟩ := first
  obtain ⟨_, _, does'⟩ := second
  refine does.trans does' ?_
  rintro m₁ m₂ m₃ ⟨kept, storage, read⟩ ⟨kept', storage', read'⟩
  rw [storage] at storage' read'
  refine ⟨fun k below => ?_, storage', fun later => ⟨?_, read' later⟩⟩
  · rw [kept' k (by omega), kept k below]
  · rw [← read later]
    exact held.read_eq (fun k _ below => kept' k below) rfl

/-- A number does not depend on storage. -/
theorem Performs.number {c : Int64} (performs : Performs env p s t (some (.imm c)))
    (m later : Storage) :
    (p m).1 later = c := by
  obtain ⟨_, _, code, _, _, holds⟩ := performs
  exact ((holds ⟨fun _ => 0, m⟩).2.2 later).symm

theorem Performs.settle (performs : Performs env p s t v) (done : settle v t = .ok (v', u)) :
    Performs env p s u v' ∧ ∀ c, v' ≠ some (.imm c) := by
  unfold Select.settle at done
  split at done
  · obtain ⟨n, loaded, rfl⟩ := gen_map_ok done
    have constant : (fun m => (fun _ => (p m).1 (p m).2, (p m).2)) = p := by
      funext m
      exact Prod.ext (funext fun later => by simp only [performs.number]) rfl
    have loads := performs.inRegister loaded
    rw [constant] at loads
    exact ⟨loads, by simp⟩
  next noNumber =>
    cases done
    exact ⟨performs, noNumber⟩

end Operands

section Expressions

variable {used : Bool} {x left right : Node} {op : BinaryOp} {v : Option Value}

def Performed (env : Environment) (x : Node) : Prop :=
  ∀ s t v, value false x s = .ok (v, t) → v ≠ none ∧ Performs env (x.perform env) s t v

theorem binary_performs (inLeft : Performed env left) (inRight : Performed env right)
    (done : node false used (.binary op left right) s = .ok (v, t)) :
    v ≠ none ∧ Performs env ((Node.binary op left right).perform env) s t v := by
  cases found : immediate op left right with
  | left c =>
    obtain ⟨rfl, commutative⟩ := immediate_left found
    rw [node, found] at done
    obtain ⟨r, middle, doneRight, done⟩ := gen_bind_ok done
    have performs := (inRight _ _ _ doneRight).2
    obtain ⟨n, rfl, lands, sets⟩ := combine_spec (w := env.toWorld) performs.held done
    have exchanged := (sets (steady_imm n c)).weaken
      (Q := Sets n fun m => env.binary op c (m.read (operand r)))
      fun m m' got => ⟨got.1.trans (binary_comm env.toWorld commutative _ _), got.2⟩
    exact ⟨Option.some_ne_none _, performs.sets lands exchanged⟩
  | right c =>
    obtain rfl := immediate_right found
    rw [node, found] at done
    obtain ⟨l, middle, doneLeft, done⟩ := gen_bind_ok done
    have performs := (inLeft _ _ _ doneLeft).2
    obtain ⟨n, rfl, lands, sets⟩ := combine_spec (w := env.toWorld) performs.held done
    exact ⟨Option.some_ne_none _,
      performs.sets (f := fun a => env.binary op a c) lands (sets (steady_imm n c))⟩
  | neither =>
    rw [node, found] at done
    obtain ⟨l, first, doneLeft, done⟩ := gen_bind_ok done
    obtain ⟨l', second, settled, done⟩ := gen_bind_ok done
    obtain ⟨_, _, marked, done⟩ := gen_bind_ok done
    cases marked
    obtain ⟨r, third, doneRight, done⟩ := gen_bind_ok done
    obtain ⟨result, fourth, combined, done⟩ := gen_bind_ok done
    cases done
    obtain ⟨performsLeft, noNumber⟩ := (inLeft _ _ _ doneLeft).2.settle settled
    have performsRight := (inRight _ _ _ doneRight).2
    obtain ⟨n, rfl, lands, sets⟩ := combine_spec (w := env.toWorld) performsLeft.held combined
    rcases lands with ⟨above, below, top⟩ | ⟨_, _, c, number⟩
    · have steady := performsRight.held.steady (.inl below)
      refine ⟨Option.some_ne_none _, performsLeft.rises, ⟨above, below⟩,
        ((performsLeft.pair performsRight).trans (sets steady).does ?_).congr rfl⟩
      rintro m₁ m₂ m₃ ⟨kept, storage, reads⟩ ⟨same, got, others⟩
      refine ⟨fun k inside => ?_, same.trans storage, fun later => ?_⟩
      · rw [others k (by omega), kept k inside]
      · -- Both operands are read only here, in storage as the code of the right one left it.
        obtain ⟨readLeft, readRight⟩ := reads m₂.storage
        dsimp only at got
        rw [readLeft, readRight, storage] at got
        exact got
    · exact absurd number (noNumber c)

theorem mem_performs (computed : x.Computed) (inAddress : Performed env x)
    (done : node false used (.mem x) s = .ok (v, t)) :
    v ≠ none ∧ Performs env ((Node.mem x).perform env) s t v := by
  have noPlace : ∀ symbol, x ≠ .addr symbol := by
    rintro symbol rfl
    cases computed
  rw [node_mem_plain noPlace rfl] at done
  obtain ⟨v', middle, doneAddress, done⟩ := gen_bind_ok done
  obtain ⟨n, last, loaded, done⟩ := gen_bind_ok done
  obtain ⟨place, made, rfl⟩ := gen_map_ok done
  have performs := (inAddress _ _ _ (within_ok doneAddress)).2
  exact ⟨Option.some_ne_none _, (performs.inRegister (within_ok loaded)).newDeref made⟩

/-- Arguments are computed one after the other and stay where they are. -/
theorem arguments_perform {callee : Symbol} {i : Nat} {xs : List Node} {vs : List (Option Value)}
    (performed : ∀ x ∈ xs, Performed env x) (done : arguments false callee i xs s = .ok (vs, t)) :
    s.top ≤ t.top ∧ Does env s t fun m m' => (∀ k < s.top, m'.registers k = m.registers k) ∧
      m'.storage = (Node.performAll env xs m.storage).2 ∧
      ∀ later, vs.map (fun v => Machine.read ⟨m'.registers, later⟩ (operand v)) =
        (Node.performAll env xs m.storage).1.map fun value => value later := by
  induction xs generalizing i s vs with
  | nil =>
    rw [arguments] at done
    cases done
    exact ⟨Nat.le_refl _, .none rfl fun m => ⟨fun _ _ => rfl, rfl, fun _ => rfl⟩⟩
  | cons x xs ih =>
    obtain ⟨first, others⟩ := List.forall_mem_cons.mp performed
    rw [arguments] at done
    obtain ⟨v, middle, doneFirst, done⟩ := gen_bind_ok done
    obtain ⟨vs, last, doneOthers, done⟩ := gen_bind_ok done
    cases done
    obtain ⟨rises, held, does⟩ := (first _ _ _ (within_ok doneFirst)).2
    obtain ⟨rises', does'⟩ := ih others doneOthers
    refine ⟨rises.trans rises', does.trans does' ?_⟩
    rintro m₁ m₂ m₃ ⟨kept, storage, read⟩ ⟨kept', storage', reads⟩
    rw [storage] at storage' reads
    refine ⟨fun k below => ?_, storage', fun later => ?_⟩
    · rw [kept' k (by omega), kept k below]
    · have stays : Machine.read ⟨m₃.registers, later⟩ (operand v) =
          Machine.read ⟨m₂.registers, later⟩ (operand v) :=
        held.read_eq (fun k _ below => kept' k below) rfl
      rw [List.map_cons, stays, read later, reads later]
      rfl

theorem call_performs {callee : Symbol} {args : List Node} (performed : ∀ x ∈ args, Performed env x)
    (done : node false true (.call (some callee) args) s = .ok (v, t)) :
    v ≠ none ∧ Performs env ((Node.call (some callee) args).perform env) s t v := by
  rw [node] at done
  obtain ⟨_, _, marked, done⟩ := gen_bind_ok done
  cases marked
  obtain ⟨vs, last, doneArgs, done⟩ := gen_bind_ok done
  cases done
  obtain ⟨rises, does⟩ := arguments_perform performed doneArgs
  let call : Instr := .call (some callee) (vs.map operand) (register s.top)
  have calls : Does env last { last with code := last.code.push call } fun m m' =>
      m' = env.effect call m :=
    .push rfl rfl fun _ => rfl
  refine ⟨Option.some_ne_none _, Nat.le_succ _, ⟨Nat.le_refl _, Nat.lt_succ_self _⟩,
    (does.trans calls ?_).congr rfl⟩
  rintro m₁ m₂ m₃ ⟨kept, storage, reads⟩ rfl
  have values : (vs.map operand).map m₂.read =
      (Node.performAll env args m₁.storage).1.map fun value =>
        value (Node.performAll env args m₁.storage).2 := by
    rw [List.map_map, ← storage]
    exact reads m₂.storage
  let done := env.call callee ((vs.map operand).map m₂.read) m₂.storage
  have same : done = env.call callee ((Node.performAll env args m₁.storage).1.map fun value =>
      value (Node.performAll env args m₁.storage).2) (Node.performAll env args m₁.storage).2 := by
    simp only [done, values, storage]
  obtain ⟨got, others⟩ := sets_write env.toWorld s.top (fun _ => done.1) ⟨m₂.registers, done.2⟩
  refine ⟨fun k below => ?_, congrArg Prod.snd same, fun later => ?_⟩
  · exact (others k (by omega)).trans (kept k below)
  · exact got.trans (congrArg Prod.fst same)

/-- A register gets what a symbol stands for. -/
theorem symbol_performs {z : Instr} {value : Storage → Int64}
    (code : t.code = s.code.push z) (top : t.top = s.top + 1) (quiet : z.quiet = true)
    (does : ∀ m, z.effect env.toWorld m =
      m.write env.toWorld (register s.top) (value m.storage)) :
    Performs env (fun m => (fun _ => value m, m)) s t (some (.temp s.top)) := by
  refine ⟨by omega, ⟨Nat.le_refl _, by omega⟩, (Emits.sets code quiet does).does.weaken ?_⟩
  rintro m m' ⟨storage, got, others⟩
  exact ⟨fun k below => others k (by omega), storage, fun _ => got⟩

theorem performed (computed : x.Computed) : Performed env x := by
  induction computed with
  | const c =>
    intro s t v done
    rw [value_plain rfl, node] at done
    cases done
    exact ⟨Option.some_ne_none _, Nat.le_refl _, trivial,
      .none rfl fun m => ⟨fun _ _ => rfl, rfl, fun _ => rfl⟩⟩
  | text symbol | var symbol =>
    intro s t v done
    cases symbol <;> rw [value_plain rfl, node] at done <;> cases done
    exact ⟨Option.some_ne_none _, symbol_performs rfl rfl rfl (fun _ => rfl)⟩
  | mem computed ih =>
    intro s t v done
    rw [value_plain rfl] at done
    exact mem_performs computed ih done
  | unary op _ ih =>
    intro s t v done
    rw [value_plain rfl, node] at done
    obtain ⟨v', middle, doneOperand, done⟩ := gen_bind_ok done
    have performs := (ih _ _ _ doneOperand).2
    obtain ⟨n, rfl, lands, sets⟩ := applyUnary_spec (w := env.toWorld) performs.held done
    exact ⟨Option.some_ne_none _, performs.sets (f := env.unary op) lands sets⟩
  | binary op _ _ ihLeft ihRight =>
    intro s t v done
    rw [value_plain rfl] at done
    exact binary_performs ihLeft ihRight done
  | call callee _ ih =>
    intro s t v done
    rw [value_plain rfl] at done
    cases callee with
    | none =>
      rw [node] at done
      cases done
    | some callee => exact call_performs ih done

end Expressions

section Returning

variable {code lines : List Line} {k : Nat}

theorem run_plain {σ : Type} (m : Run.Meaning σ) (enter : Bytes → Option (List Line))
    (rest : List Line) (plain : ∀ line ∈ lines, line.instr.control = .plain) (k : Nat) (s : σ) :
    ∃ trace, Run.run m enter (lines.length + k) (lines ++ rest) s =
      let p := Run.run m enter k rest (lines.foldl (fun s line => m.effect line.instr s) s)
      { p with trace := trace ++ p.trace } := by
  induction lines generalizing s with
  | nil => exact ⟨[], by simp⟩
  | cons line lines ih =>
    obtain ⟨first, others⟩ := List.forall_mem_cons.mp plain
    obtain ⟨trace, same⟩ := ih others (m.effect line.instr s)
    refine ⟨⟨line, m.effect line.instr s⟩ :: trace, ?_⟩
    rw [List.length_cons, Nat.add_right_comm, List.cons_append, Run.run, first]
    simp only [same, Run.Progress.after, List.foldl_cons, List.cons_append]

theorem run_short {σ : Type} (m : Run.Meaning σ) (enter : Bytes → Option (List Line))
    (rest : List Line) (plain : ∀ line ∈ lines, line.instr.control = .plain)
    (short : k ≤ lines.length) (s : σ) :
    (Run.run m enter k (lines ++ rest) s).ending = none := by
  induction lines generalizing k s with
  | nil =>
    obtain rfl := Nat.le_zero.mp short
    rfl
  | cons line lines ih =>
    obtain ⟨first, others⟩ := List.forall_mem_cons.mp plain
    cases k with
    | zero => rfl
    | succ k =>
      rw [List.cons_append, Run.run, first]
      exact ih others (Nat.le_of_succ_le_succ short) _

/-- Plain code that ends with a return always returns, and in one way only. -/
theorem returns_iff {instrs : List Instr} {x : Operand} (plain : ∀ y ∈ instrs, y.control = .plain)
    (present : x ≠ .absent) (shape : code.map Line.instr = instrs ++ [.ret x]) (start : Machine)
    (outcome : Int64 × Storage) : Returns env code start outcome ↔
      outcome = ((env.execute instrs start).read x, (env.execute instrs start).storage) := by
  obtain ⟨lines, ends, rfl, rfl, same⟩ := List.map_eq_append_iff.mp shape
  obtain ⟨last, rfl, isReturn⟩ := List.map_eq_singleton_iff.mp same
  have plain := List.forall_mem_map.mp plain
  let enter := (Run.after? · (lines ++ [last]))
  have returned (k : Nat) (s : Machine) : Run.run env.meaning enter (k + 1) [last] s =
      { state := s, ending := some (.returned last.position x) } := by
    simp only [Run.run, isReturn, Instr.control]
  have ended (k : Nat) : ∃ trace, Run.run env.meaning enter (lines.length + (k + 1))
      (lines ++ [last]) start = ⟨trace, env.execute (lines.map Line.instr) start,
        some (.returned last.position x)⟩ := by
    obtain ⟨trace, run⟩ := run_plain env.meaning enter [last] plain (k + 1) start
    refine ⟨trace, run.trans ?_⟩
    rw [returned, Environment.execute, List.foldl_map]
    simp only [List.append_nil]
    rfl
  constructor
  · rintro ⟨k, conclusion, storage⟩
    by_cases short : k ≤ lines.length
    · have runs := run_short env.meaning enter [last] plain short start
      simp [Machine.observe, Run.runCode, enter, runs] at conclusion
    · obtain ⟨j, rfl⟩ := Nat.exists_eq_add_of_lt (Nat.lt_of_not_le short)
      obtain ⟨trace, run⟩ := ended j
      rw [Nat.add_assoc, Run.runCode, run] at conclusion storage
      simp only [Machine.observe, Option.map_some, Machine.conclusion_returned present,
        Option.some.injEq, Conclusion.returned.injEq] at conclusion storage
      exact Prod.ext conclusion.symm storage.symm
  · rintro rfl
    obtain ⟨trace, run⟩ := ended 0
    refine ⟨lines.length + 1, ?_⟩
    rw [Run.runCode, run]
    simp [Machine.observe, Machine.conclusion_returned present]

/-- The code of a function that returns an expression. -/
theorem generateFunc_returning (env : Environment) {inline : Bool} {f : Func} {r : Routine}
    {e : Node} (generated : generateFunc ⟨false, inline⟩ f = .ok r)
    (called : (inline && f.inlined) = false) (body : f.body = [.ret e]) (computed : e.Computed) :
    ∃ instrs x, (∀ y ∈ instrs, y.control = .plain) ∧ x ≠ .absent ∧
      r.lines.map Line.instr = instrs ++ [.ret x] ∧
      ∀ m, e.defer env m.storage =
        ((env.execute instrs m).read x, (env.execute instrs m).storage) := by
  have present : e ≠ .missing := by
    rintro rfl
    cases computed
  rcases generateFunc_ok generated with ⟨isInline, inlined, _⟩ | ⟨s, done, rfl⟩
  · simp_all
  rw [body] at done
  obtain ⟨_, _, released, done⟩ := gen_bind_ok done
  cases released
  obtain ⟨_, _, emitted, done⟩ := gen_bind_ok done
  cases done
  replace emitted := within_ok emitted
  rw [node] at emitted
  · obtain ⟨v, middle, doneValue, emitted⟩ := gen_bind_ok emitted
    cases emitted
    obtain ⟨hasValue, _, _, instrs, added, plain, holds⟩ :=
      performed computed _ _ _ (within_ok doneValue)
    refine ⟨instrs, operand v, plain, operand_ne_absent hasValue, ?_, fun m => ?_⟩
    · rw [routine_lines]
      simp [added]
    · obtain ⟨_, storage, read⟩ := holds m
      rw [Node.defer, ← storage, ← read]
  · exact present

theorem returns_defer_iff (env : Environment) {inline : Bool} {f : Func} {r : Routine}
    {e : Node} (generated : generateFunc ⟨false, inline⟩ f = .ok r)
    (called : (inline && f.inlined) = false) (body : f.body = [.ret e]) (computed : e.Computed)
    (start : Machine) (outcome : Int64 × Storage) :
    Returns env r.lines start outcome ↔ outcome = e.defer env start.storage := by
  obtain ⟨instrs, x, plain, present, shape, holds⟩ :=
    generateFunc_returning env generated called body computed
  rw [holds start]
  exact returns_iff plain present shape start outcome

/-- The code of an expression returns what the expression comes to if memory is read where it
is used. That is its value from left to right, unless a memory operand stands left of a call
and calls write to the heap. -/
theorem returns_generateFunc_iff (env : Environment) {inline : Bool} {f : Func} {r : Routine}
    {e : Node} (generated : generateFunc ⟨false, inline⟩ f = .ok r)
    (called : (inline && f.inlined) = false) (body : f.body = [.ret e]) (computed : e.Computed)
    (start : Machine) :
    (∀ outcome, Returns env r.lines start outcome ↔ outcome = e.defer env start.storage) ∧
      (e.settled = true ∨ env.KeepsHeap →
        e.defer env start.storage = e.evaluate env start.storage) := by
  constructor
  · exact returns_defer_iff env generated called body computed start
  · exact fun ordered => Node.defer_eq_evaluate computed ordered start.storage

/-- Calls return their first argument and write to the start of the heap. -/
def writing : Environment :=
  { standard with call := fun _ args m => (args.headD 1, m.setHeap 0 7) }

def started : Machine :=
  ⟨fun _ => 0, ⟨fun _ => 0, fun _ => 3⟩⟩

def ordered : Node :=
  .binary .add (globalCall 0 "g" [.mem (globalVar 1 "p")]) (.mem (globalVar 2 "q"))

theorem computed_ordered : ordered.Computed := by
  apply Node.Computed.binary
  · apply Node.Computed.call
    rw [List.forall_mem_singleton]
    exact .mem (.var _)
  · exact .mem (.var _)

theorem returns_generateFunc_ordered : ∃ r,
    generateFunc { addressing := false } (returning ordered) = .ok r ∧
      ∃ storage, Returns writing r.lines started (10, storage) := by
  obtain ⟨r, generated⟩ :=
    exists_ok (x := generateFunc { addressing := false } (returning ordered)) (by cbv)
  obtain ⟨returns, same⟩ :=
    returns_generateFunc_iff writing generated rfl rfl computed_ordered started
  have value : (ordered.evaluate writing started.storage).1 = 10 := by decide
  refine ⟨r, generated, (ordered.evaluate writing started.storage).2, (returns _).mpr ?_⟩
  rw [same (.inl (by decide)), ← value]

/-- Memory is read after a call that stands to the right of it. -/
def waiting : Node :=
  .binary .add (.mem (globalVar 0 "p")) (globalCall 1 "g" [])

theorem computed_waiting : waiting.Computed := by
  apply Node.Computed.binary
  · exact .mem (.var _)
  · apply Node.Computed.call
    simp

theorem returns_generateFunc_waiting : ∃ r,
    generateFunc { addressing := false } (returning waiting) = .ok r ∧
      (∃ storage, Returns writing r.lines started (8, storage)) ∧
      (waiting.evaluate writing started.storage).1 = 4 ∧
      ¬ Returns writing r.lines started (waiting.evaluate writing started.storage) := by
  obtain ⟨r, generated⟩ :=
    exists_ok (x := generateFunc { addressing := false } (returning waiting)) (by cbv)
  have returns := returns_defer_iff writing generated rfl rfl computed_waiting started
  refine ⟨r, generated, ⟨(waiting.defer writing started.storage).2, ?_⟩, by decide, ?_⟩
  · rw [returns]
    rfl
  · rw [returns]
    intro same
    have values := congrArg Prod.fst same
    revert values
    decide

end Returning

end Select

end Codegen
