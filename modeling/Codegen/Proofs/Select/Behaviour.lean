import Codegen.Proofs.Select.Statement

/-! Generated code behaves as the body that it was generated from: whatever can be seen of
one after some steps can be seen of the other. -/
namespace Codegen.Select

open Run (runCode)

variable {w : World} {body rest : List Node} {code lines : List Line}

inductive Compiled (w : World) : List Node → List Line → Prop
  | nil : Compiled w [] []
  | expression {x : Node} {xs : List Node} {segment lines : List Line} :
      x.isValue = true → (∀ line ∈ segment, line.instr.quiet = true) → Compiled w xs lines →
      Compiled w (x :: xs) (segment ++ lines)
  | statement {x : Node} {xs : List Node} {segment lines : List Line} {last : Line} :
      (∀ line ∈ segment, line.instr.quiet = true) →
      Finishes w (segment.map Line.instr) x last.instr → Compiled w xs lines →
      Compiled w (x :: xs) (segment ++ last :: lines)

theorem Compiled.cons {x : Node} {segment : List Line}
    (translates : Translates w x (segment.map Line.instr)) (compiled : Compiled w rest lines) :
    Compiled w (x :: rest) (segment ++ lines) := by
  generalize same : segment.map Line.instr = instrs at translates
  cases translates with
  | expression isValue quiet =>
    subst same
    exact .expression isValue (List.forall_mem_map.mp quiet) compiled
  | statement quiet finishes =>
    obtain ⟨before, atEnd, rfl, rfl, ended⟩ := List.map_eq_append_iff.mp same
    obtain ⟨last, rfl, rfl⟩ := List.map_eq_singleton_iff.mp ended
    rw [List.append_assoc]
    exact .statement (List.forall_mem_map.mp quiet) finishes compiled

theorem compiled_of_statements {addressing : Bool} {i : Nat} {s t : Selection}
    (allowed : ∀ x ∈ body, x.isStatement = true)
    (done : statements addressing i body s = .ok ((), t)) :
    ∃ instrs, t.code.toList = s.code.toList ++ instrs ∧
      ∀ lines : List Line, lines.map Line.instr = instrs → Compiled w body lines := by
  induction body generalizing i s with
  | nil =>
    cases done
    refine ⟨[], by simp, fun lines same => ?_⟩
    rw [List.map_eq_nil_iff.mp same]
    exact .nil
  | cons x xs ih =>
    obtain ⟨_, _, released, done⟩ := gen_bind_ok done
    cases released
    obtain ⟨v, middle, doneFirst, done⟩ := gen_bind_ok done
    obtain ⟨first, others⟩ := List.forall_mem_cons.mp allowed
    obtain ⟨instrs, added, translates⟩ := node_adds (w := w) first (within_ok doneFirst)
    obtain ⟨instrs', added', compiled⟩ := ih others done
    refine ⟨instrs ++ instrs', by rw [added', added, List.append_assoc], fun lines same => ?_⟩
    obtain ⟨segment, rest, rfl, rfl, rfl⟩ := List.map_eq_append_iff.mp same
    exact .cons translates (compiled rest rfl)

theorem after?_quiet {segment : List Line} (quiet : ∀ line ∈ segment, line.instr.quiet = true)
    (label : Bytes) (lines : List Line) :
    Run.after? label (segment ++ lines) = Run.after? label lines := by
  induction segment with
  | nil => rfl
  | cons line segment ih =>
    obtain ⟨first, others⟩ := List.forall_mem_cons.mp quiet
    simp [Run.after?, Instr.control_of_quiet first, ih others]

/-- A label of the body is a label of the code, with the code of what follows it. -/
theorem Compiled.after? (compiled : Compiled w body code) (label : Bytes) :
    (Body.after? label body = none ∧ Run.after? label code = none) ∨
      ∃ rest lines, Body.after? label body = some rest ∧ Run.after? label code = some lines ∧
        Compiled w rest lines := by
  induction compiled with
  | nil => exact .inl ⟨rfl, rfl⟩
  | @expression x xs segment lines isValue quiet compiled ih =>
    have skipped : Body.after? label (x :: xs) = Body.after? label xs := by
      cases x <;> first | rfl | contradiction
    rwa [skipped, after?_quiet quiet]
  | @statement x xs segment lines last quiet finishes compiled ih =>
    rw [after?_quiet quiet]
    obtain ⟨position, instr⟩ := last
    cases finishes with
    | label name =>
      by_cases found : name = label
      · refine .inr ⟨xs, lines, ?_, ?_, compiled⟩
        · simp [Body.after?, found]
        · simp [Run.after?, Instr.control, found]
      · simpa [Body.after?, Run.after?, Instr.control, found] using ih
    | assign plain _ _ => simpa [Body.after?, Run.after?, plain] using ih
    | _ => simpa [Body.after?, Run.after?, Instr.control] using ih

def seen (w : World) (code : List Line) (k : Nat) (lines : List Line) (s : Machine) : Observation :=
  Machine.observe (runCode w.meaning code k lines s)

theorem observe_after_quiet {line : Line} (quiet : line.instr.stores = false)
    (p : Run.Progress Machine) (s : Machine) :
    Machine.observe (p.after ⟨line, s⟩) = Machine.observe p := by
  simp [Machine.observe, Run.Progress.after, quiet]

theorem observe_after_stores {line : Line} (stores : line.instr.stores = true)
    (p : Run.Progress Machine) (s : Machine) :
    Machine.observe (p.after ⟨line, s⟩) = (Machine.observe p).after s.storage := by
  simp [Machine.observe, Run.Progress.after, Observation.after, stores]

theorem seen_quiet_step {line : Line} (quiet : line.instr.quiet = true) (k : Nat) (s : Machine) :
    seen w code (k + 1) (line :: lines) s = seen w code k lines (line.instr.effect w s) := by
  simp only [seen, runCode, Run.run, Instr.control_of_quiet quiet]
  exact observe_after_quiet (Instr.stores_of_quiet quiet) _ _

/-- Nothing is seen of code that writes registers only. -/
theorem seen_quiet {segment : List Line} (quiet : ∀ line ∈ segment, line.instr.quiet = true)
    (k : Nat) (s : Machine) :
    seen w code (segment.length + k) (segment ++ lines) s =
      seen w code k lines (execute w (segment.map Line.instr) s) := by
  induction segment generalizing s with
  | nil => simp
  | cons line segment ih =>
    obtain ⟨first, others⟩ := List.forall_mem_cons.mp quiet
    rw [List.length_cons, Nat.add_right_comm, List.cons_append, seen_quiet_step first, ih others]
    rfl

theorem seen_quiet_short {segment : List Line} (quiet : ∀ line ∈ segment, line.instr.quiet = true)
    {k : Nat} (short : k < segment.length) (s : Machine) :
    seen w code k (segment ++ lines) s = { storage := s.storage } := by
  induction segment generalizing k s with
  | nil => contradiction
  | cons line segment ih =>
    obtain ⟨first, others⟩ := List.forall_mem_cons.mp quiet
    cases k with
    | zero => rfl
    | succ k =>
      rw [List.cons_append, seen_quiet_step first, ih others (Nat.lt_of_succ_lt_succ short),
        Instr.storage_of_quiet first]

/-- A step of a body and the steps of code that are to match it. In the fewer steps nothing
is seen of the code. -/
inductive Matched (w : World) (body : List Node) (code : List Line) (rest : List Node)
    (lines : List Line) (s : Machine) : Prop
  | ends (cost : Nat) (o : Observation)
      (waits : ∀ k < cost, seen w code k lines s = { storage := s.storage })
      (left : ∀ n, Body.run w body (n + 1) rest s.storage = o)
      (right : ∀ k, seen w code (cost + k) lines s = o)
  | goesOn (cost : Nat) (rest' : List Node) (lines' : List Line) (s' : Machine)
      (effect : Observation → Observation)
      (waits : ∀ k < cost, seen w code k lines s = { storage := s.storage })
      (compiled : Compiled w rest' lines') (progress : 0 < cost ∨ rest'.length < rest.length)
      (left : ∀ n, Body.run w body (n + 1) rest s.storage =
        effect (Body.run w body n rest' s'.storage))
      (right : ∀ k, seen w code (cost + k) lines s = effect (seen w code k lines' s'))

theorem Matched.after_quiet {segment : List Line} {s : Machine}
    (quiet : ∀ line ∈ segment, line.instr.quiet = true)
    (matched : Matched w body code rest lines (execute w (segment.map Line.instr) s)) :
    Matched w body code rest (segment ++ lines) s := by
  have storage := execute_storage w (List.forall_mem_map.mpr quiet) s
  have waits' {cost : Nat} (waits : ∀ k < cost,
      seen w code k lines (execute w (segment.map Line.instr) s) = { storage := s.storage }) :
      ∀ k < segment.length + cost, seen w code k (segment ++ lines) s = { storage := s.storage } := by
    intro k below
    by_cases short : k < segment.length
    · exact seen_quiet_short quiet short s
    · obtain ⟨k, rfl⟩ := Nat.exists_eq_add_of_le (Nat.le_of_not_lt short)
      rw [seen_quiet quiet, waits k (by omega)]
  cases matched with
  | ends cost o waits left right =>
    rw [storage] at waits left
    refine .ends (segment.length + cost) o (waits' waits) left fun k => ?_
    rw [Nat.add_assoc, seen_quiet quiet, right]
  | goesOn cost rest' lines' s' effect waits compiled progress left right =>
    rw [storage] at waits left
    refine .goesOn (segment.length + cost) rest' lines' s' effect (waits' waits) compiled
      (by omega) left fun k => ?_
    rw [Nat.add_assoc, seen_quiet quiet, right]

theorem waits_one (s : Machine) : ∀ k < 1, seen w code k lines s = { storage := s.storage } := by
  intro k below
  obtain rfl : k = 0 := by omega
  rfl

/-- A jump goes to the same label in body and code, or leaves both. -/
theorem Matched.goTo {s : Machine} (whole : Compiled w body code) (target : Bytes)
    (left : ∀ n, Body.run w body (n + 1) rest s.storage =
      Body.goTo body target s.storage fun rest => Body.run w body n rest s.storage)
    (right : ∀ k, runCode w.meaning code (k + 1) lines s =
      Run.goTo (Run.after? · code) target s fun rest => runCode w.meaning code k rest s) :
    Matched w body code rest lines s := by
  rcases whole.after? target with ⟨absent, absent'⟩ | ⟨next, next', found, found', compiled⟩
  · refine .ends 1 { storage := s.storage, conclusion := some (.left target) } (waits_one s) ?_ ?_
    · intro n
      rw [left, Body.goTo, absent]
    · intro k
      rw [seen, Nat.add_comm, right, Run.goTo, absent']
      rfl
  · refine .goesOn 1 next next' s id (waits_one s) compiled (.inl Nat.one_pos) ?_ ?_
    · intro n
      rw [left, Body.goTo, found]
      rfl
    · intro k
      rw [seen, Nat.add_comm, right, Run.goTo, found']
      rfl

theorem run_ret {x : Node} (present : x ≠ .missing) (n : Nat) (m : Storage) :
    Body.run w body (n + 1) (.ret x :: rest) m =
      { storage := m, conclusion := some (.returned (some (x.eval w m))) } := by
  cases x <;> first | rfl | contradiction

theorem matched_of_finishes {instrs : List Instr} {x : Node} {last : Line} {s : Machine}
    (whole : Compiled w body code) (quiet : ∀ y ∈ instrs, y.quiet = true)
    (finishes : Finishes w instrs x last.instr) (compiled : Compiled w rest lines) :
    Matched w body code (x :: rest) (last :: lines) (execute w instrs s) := by
  have storage := execute_storage w quiet s
  obtain ⟨position, instr⟩ := last
  cases finishes with
  | @assign target source _ plain stores does =>
    have written := does s
    rw [← storage] at written
    refine .goesOn 1 rest lines (instr.effect w (execute w instrs s))
      (·.after (target.assigned w (source.eval w (execute w instrs s).storage)
        (execute w instrs s).storage)) (waits_one _) compiled (.inl Nat.one_pos) ?_ ?_
    · intro n
      rw [written]
      rfl
    · intro k
      simp only [seen, Nat.add_comm 1, runCode, Run.run, plain]
      rw [observe_after_stores stores, ← written]
      rfl
  | label name =>
    refine .goesOn 1 rest lines (execute w instrs s) id (waits_one _) compiled
      (.inl Nat.one_pos) (fun n => rfl) fun k => ?_
    rw [Nat.add_comm]
    rfl
  | jump target => exact .goTo whole target (fun n => rfl) fun k => rfl
  | @branch condition x ifTrue ifFalse does =>
    have tested := does s
    rw [← storage] at tested
    refine .goTo whole _ (fun n => rfl) fun k => ?_
    simp [runCode, Run.run, Instr.control, World.meaning, tested]
  | retNothing =>
    refine .ends 1 _ (waits_one _) (fun n => rfl) fun k => ?_
    rw [Nat.add_comm]
    rfl
  | @ret value x present present' does =>
    have returned := does s
    rw [← storage] at returned
    refine .ends 1 _ (waits_one _) (fun n => run_ret present n _) fun k => ?_
    rw [← returned, Nat.add_comm, ← Machine.conclusion_returned present' position]
    rfl

theorem run_value {x : Node} (isValue : x.isValue = true) (n : Nat) (m : Storage) :
    Body.run w body (n + 1) (x :: rest) m = Body.run w body n rest m := by
  cases x <;> first | rfl | contradiction

theorem matched (whole : Compiled w body code) (compiled : Compiled w rest lines) (s : Machine) :
    Matched w body code rest lines s := by
  cases compiled with
  | nil =>
    refine .ends 1 _ (waits_one s) (fun n => rfl) fun k => ?_
    rw [Nat.add_comm]
    rfl
  | @expression x xs segment lines isValue quiet compiled =>
    refine .after_quiet quiet (.goesOn 0 xs lines _ id (by simp) compiled
      (.inr (Nat.lt_succ_self _)) (fun n => run_value isValue n _) fun k => ?_)
    rw [Nat.zero_add]
    rfl
  | statement quiet finishes compiled =>
    exact .after_quiet quiet
      (matched_of_finishes whole (List.forall_mem_map.mpr quiet) finishes compiled)

/-- What is seen of a body after some steps is seen of its code as well. -/
theorem seen_of_run (whole : Compiled w body code) (n : Nat) (compiled : Compiled w rest lines)
    (s : Machine) : ∃ k, seen w code k lines s = Body.run w body n rest s.storage := by
  induction n generalizing rest lines s with
  | zero => exact ⟨0, rfl⟩
  | succ n ih =>
    cases matched whole compiled s with
    | ends cost o _ left right => exact ⟨cost + 0, by rw [right, left]⟩
    | goesOn cost rest' lines' s' effect _ compiled' _ left right =>
      obtain ⟨k, same⟩ := ih compiled' s'
      exact ⟨cost + k, by rw [right, left, same]⟩

/-- And the other way round. Either code is used up or, by an expression without code, the
body. -/
theorem run_of_seen {rest : List Node} {lines : List Line} (whole : Compiled w body code)
    (k : Nat) (compiled : Compiled w rest lines) (s : Machine) :
    ∃ n, Body.run w body n rest s.storage = seen w code k lines s := by
  cases matched whole compiled s with
  | ends cost o waits left right =>
    by_cases short : k < cost
    · exact ⟨0, (waits k short).symm⟩
    · obtain ⟨k, rfl⟩ := Nat.exists_eq_add_of_le (Nat.le_of_not_lt short)
      exact ⟨1, by rw [right, left]⟩
  | goesOn cost rest' lines' s' effect waits compiled' progress left right =>
    by_cases short : k < cost
    · exact ⟨0, (waits k short).symm⟩
    · obtain ⟨j, rfl⟩ := Nat.exists_eq_add_of_le (Nat.le_of_not_lt short)
      obtain ⟨n, same⟩ := run_of_seen whole j compiled' s'
      exact ⟨n + 1, by rw [right, left, same]⟩
termination_by (k, rest.length)
decreasing_by
  rw [Prod.lex_def]
  omega

theorem filterMap_range {α : Type} (xs : List α) :
    (List.range xs.length).filterMap (fun i => xs[i]?) = xs := by
  induction xs with
  | nil => rfl
  | cons x xs ih =>
    rw [List.length_cons, List.range_succ_eq_map, List.filterMap_cons, List.filterMap_map]
    exact congrArg (x :: ·) ih

theorem routine_lines (f : Func) (s : Selection) :
    (routine f s).lines.map Line.instr = s.code.toList := by
  have instr (i : Nat) :
      ((routine f s).instr? i).map (Line.instr ∘ Line.mk i) = s.code.toList[i]? := by
    simp [routine, Routine.instr?, Function.comp_def]
  simp only [Routine.lines, List.map_filterMap, Option.map_map, instr]
  exact filterMap_range s.code.toList

/-- The code of a function, with whole addresses in one instruction or without, behaves as its
body, as long as no values come from calls: the same writes to storage one after the other, and
the same return, exit or endless run. A function that is expanded at its calls has no code. -/
theorem observe_generateFunc_iff (w : World) {options : Options} {f : Func} {r : Routine}
    (generated : generateFunc options f = .ok r) (called : (options.inline && f.inlined) = false)
    (allowed : ∀ x ∈ f.body, x.isStatement = true) (registers : Nat → Int64) (storage : Storage)
    (o : Observation) :
    (∃ n, Body.run w f.body n f.body storage = o) ↔
      ∃ k, Machine.observe (runCode w.meaning r.lines k r.lines ⟨registers, storage⟩) = o := by
  rcases generateFunc_ok generated with ⟨inline, inlined, _⟩ | ⟨s, done, rfl⟩
  · simp [inline, inlined] at called
  obtain ⟨instrs, added, compiled⟩ := compiled_of_statements (w := w) allowed done
  have whole : Compiled w f.body (routine f s).lines :=
    compiled _ (by rw [routine_lines, added]; rfl)
  constructor
  · rintro ⟨n, rfl⟩
    exact seen_of_run whole n whole ⟨registers, storage⟩
  · rintro ⟨k, rfl⟩
    exact run_of_seen whole k whole ⟨registers, storage⟩

def standard : World where
  arith
    | .div, x, y => x / y
    | .mod, x, y => x % y
    | .and, x, y => x &&& y
    | .or, x, y => x ||| y
    | .xor, x, y => x ^^^ y
    | .sal, x, y => x <<< y
    | .sar, x, y => x >>> y
    | _, _, _ => 0
  cmp
    | .eq, x, y => if x = y then 1 else 0
    | .ne, x, y => if x = y then 0 else 1
    | .lt, x, y => if x < y then 1 else 0
    | .le, x, y => if x ≤ y then 1 else 0
    | .gt, x, y => if y < x then 1 else 0
    | .ge, x, y => if y ≤ x then 1 else 0
    | .unknown _, _, _ => 0
  complement x := ~~~x
  place _ := 0
  and_comm := Int64.and_comm
  or_comm := Int64.or_comm
  xor_comm := Int64.xor_comm
  eq_comm x y := by simp [eq_comm]
  ne_comm x y := by simp [eq_comm]

def globalVar (i : Nat) (name : String) : Node :=
  .var (some ⟨.global i, ascii name⟩)

def globalCall (i : Nat) (name : String) (args : List Node) : Node :=
  .call (some ⟨.global i, ascii name⟩) args

def returning (x : Node) : Func :=
  { name := ascii "f", body := [.ret x] }

/-- Fills three places of the heap with falling numbers and adds them up. -/
def summing : Func :=
  let place : Node := .binary .add (globalVar 0 "a") (.binary .mul (globalVar 1 "i") (.const 8))
  { name := ascii "f"
    body := [.assign (globalVar 1 "i") (.const 0), .label (ascii "L"),
      .assign (.binary .add (.const 16) place) (.binary .sub (.const 10) (globalVar 1 "i")),
      .assign (globalVar 2 "s")
        (.binary .add (globalVar 2 "s") (.mem (.binary .add place (.const 16)))),
      .assign (globalVar 1 "i") (.binary .add (.const 1) (globalVar 1 "i")),
      .branch (.binary .lt (globalVar 1 "i") (.const 3)) (ascii "L") (ascii "E"),
      .label (ascii "E"), .ret (.unary .neg (globalVar 2 "s"))] }

theorem observe_generateFunc_summing : ∃ r k, generateFunc {} summing = .ok r ∧
    (Machine.observe (runCode standard.meaning r.lines k r.lines
      ⟨fun _ => 7, ⟨fun _ => 0, fun _ => 0⟩⟩)).conclusion = some (.returned (some (-27))) := by
  have succeeds : (generateFunc {} summing).toOption.isSome = true := by cbv
  cases generated : generateFunc {} summing with
  | error e => simp [generated, Except.toOption] at succeeds
  | ok r =>
    obtain ⟨k, same⟩ := (observe_generateFunc_iff standard generated rfl (by decide)
      (fun _ => 7) ⟨fun _ => 0, fun _ => 0⟩ _).mp ⟨30, rfl⟩
    refine ⟨r, k, rfl, ?_⟩
    rw [same]
    decide

end Codegen.Select
