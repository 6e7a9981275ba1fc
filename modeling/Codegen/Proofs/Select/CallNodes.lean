import Codegen.Proofs.Select.Emission

/-! The calls of a body and those of its code. There is one call instruction for each call node,
with the callee of the node and an operand for each of its arguments. Without addresses the
instructions have the order of the nodes. -/
namespace Codegen

namespace Node

mutual

/-- The call nodes in a node from left to right, each one after those in its arguments, with
whether their results are used. -/
def calls (used : Bool) : Node → List (Bool × Node)
  | .mem x | .unary _ x | .branch x _ _ | .ret x => x.calls true
  | .binary _ left right | .assign left right => left.calls true ++ right.calls true
  | .call callee args => callsOf args ++ [(used, .call callee args)]
  | _ => []

def callsOf : List Node → List (Bool × Node)
  | [] => []
  | x :: xs => x.calls true ++ callsOf xs

end

theorem callsOf_eq (xs : List Node) : callsOf xs = xs.flatMap (calls true) := by
  induction xs with
  | nil => rfl
  | cons x xs ih => rw [callsOf, ih, List.flatMap_cons]

end Node

def Func.calls (inline : Bool) (f : Func) : List (Bool × Node) :=
  if inline && f.inlined then [] else f.body.flatMap (Node.calls false)

/-- The call instructions of a routine with their positions. -/
def Routine.calls (r : Routine) : List (Instr × Nat) :=
  (r.lines.map Line.instr).zipIdx.filter fun place => place.1.isCall

namespace Select

/-- The same calls, in the same order where there are no addresses. -/
def Reorders (addressing : Bool) (xs ys : List (Bool × Node)) : Prop :=
  xs.Perm ys ∧ (addressing = false → xs = ys)

def Emitted.call? (e : Emitted) : Option (Bool × Node) :=
  if e.instr.isCall then some (e.used, e.node) else none

section Order

variable {addressing used : Bool} {x y : Node} {xs ys xs' ys' : List (Bool × Node)} {a : Address}
  {own : List Instr}

theorem reorders_refl (xs : List (Bool × Node)) : Reorders addressing xs xs :=
  ⟨.refl xs, fun _ => rfl⟩

theorem Reorders.trans {zs : List (Bool × Node)} (first : Reorders addressing xs ys)
    (second : Reorders addressing ys zs) : Reorders addressing xs zs :=
  ⟨first.1.trans second.1, fun plain => (first.2 plain).trans (second.2 plain)⟩

theorem Reorders.append (first : Reorders addressing xs ys) (second : Reorders addressing xs' ys') :
    Reorders addressing (xs ++ xs') (ys ++ ys') := by
  refine ⟨first.1.append second.1, fun plain => ?_⟩
  rw [first.2 plain, second.2 plain]

theorem filterMap_emitted (quiet : Quiet own) :
    (emitted used x own).filterMap Emitted.call? = [] := by
  rw [emitted, List.filterMap_map, List.filterMap_eq_nil_iff]
  intro z inside
  simp [Emitted.call?, quiet z inside]

theorem reorders_emitted (quiet : Quiet own) :
    Reorders addressing ((emitted used x own).filterMap Emitted.call?) [] := by
  rw [filterMap_emitted quiet]
  exact reorders_refl []

theorem Reorders.emitted {log : List Emitted}
    (reorders : Reorders addressing (log.filterMap Emitted.call?) ys) (quiet : Quiet own) :
    Reorders addressing ((log ++ emitted used x own).filterMap Emitted.call?) ys := by
  rwa [List.filterMap_append, filterMap_emitted quiet, List.append_nil]

theorem calls_parts (a : Address) :
    a.parts.flatMap (Node.calls true) = a.base.calls true ++ a.index.calls true := by
  unfold Address.parts
  split
  next missing =>
    have none : a.index.calls true = [] := by
      cases found : a.index <;> simp_all [Node.isMissing, Node.calls]
    simp [none]
  next => simp

theorem calls_accumulator {op : BinaryOp} {left right : Node} {c : Int64}
    (found : immediate op left right = .left c ∨ immediate op left right = .right c) :
    (Node.binary op left right).calls used = (Node.accumulator op left right).calls true := by
  rcases found with found | found
  · obtain ⟨rfl, _⟩ := immediate_left found
    simp [Node.accumulator, found, Node.calls]
  · obtain rfl := immediate_right found
    simp [Node.accumulator, found, Node.calls]

theorem reorders_fused (found : fusion? addressing used x = some (y, a)) :
    Reorders addressing (a.base.calls true ++ a.index.calls true) (x.calls used) := by
  constructor
  · have whole : x.calls used = y.calls true := by
      rcases fusion?_some found with ⟨rfl, _⟩ | ⟨rfl, rfl, _⟩
      · rw [Node.calls]
      · rfl
    have summed : Summed a.base a.index y := by
      rcases fusion?_some found with ⟨_, selected⟩ | ⟨_, _, selected⟩ <;>
        exact selected?_summed selected
    rw [whole]
    -- The base is computed first, also where the index stands left of it.
    rcases summed.split (g := Node.calls true) (by simp [Node.calls]) (by simp [Node.calls]) with
      same | same
    · rw [same]
    · rw [same]
      exact List.perm_append_comm
  · rintro rfl
    rw [fusion?_off] at found
    contradiction

/-- Every call node has one instruction. -/
theorem Selects.calls {nodes : List Node} {s t : Selection} {vs : List (Option Value)}
    {log : List Emitted} (selects : Selects addressing used nodes s vs t log) :
    Reorders addressing (log.filterMap Emitted.call?) (nodes.flatMap (Node.calls used)) := by
  induction selects with
  | nil s | const used c s | addr used symbol s => exact reorders_refl []
  | text used symbol s | var used symbol s | label used name s | jump used target s
  | retNothing used s => exact reorders_emitted (quiet_one rfl)
  | cons first second ih ih' =>
    rw [List.filterMap_append]
    exact Reorders.append (by simpa using ih) ih'
  | mem absent part loads ih => exact ih.emitted loads.quiet
  | fused found parts loads indexes ih =>
    rw [calls_parts] at ih
    have whole := ih.trans (reorders_fused found)
    rw [List.flatMap_singleton]
    exact whole.emitted
      ((loads.quiet.append indexes.quiet).append (quiet_one (addressInstr_quiet ..)))
  | immediate absent found part number loads instr ih =>
    rw [List.flatMap_singleton] at ih ⊢
    rw [calls_accumulator found]
    exact ih.emitted (loads.quiet.append (quiet_one (binaryInstr?_quiet instr)))
  | binary absent found inLeft settles inRight number loads instr ih ih' =>
    rw [List.flatMap_singleton] at ih ih' ⊢
    rw [List.filterMap_append, Node.calls]
    exact (ih.emitted settles.quiet).append
      (ih'.emitted (loads.quiet.append (quiet_one (binaryInstr?_quiet instr))))
  | unary part loads instr ih =>
    exact ih.emitted (loads.quiet.append (quiet_one (unaryInstr?_quiet instr)))
  | call part ih | callStatement part ih =>
    rw [List.filterMap_append, List.flatMap_singleton, Node.calls, Node.callsOf_eq]
    exact ih.append (reorders_refl [_])
  | assignSymbol place part ih =>
    rw [List.flatMap_singleton] at ih ⊢
    rcases place with rfl | rfl
    · exact ih.emitted (quiet_one rfl)
    · exact ih.emitted (quiet_one rfl)
  | assign inTarget loads inSource ih ih' =>
    rw [List.flatMap_singleton] at ih ih' ⊢
    rw [List.filterMap_append, Node.calls]
    exact (ih.emitted loads.quiet).append (ih'.emitted (quiet_one rfl))
  | branch ifTrue ifFalse part ih | ret present part ih => exact ih.emitted (quiet_one rfl)

theorem SelectsBody.calls {body : List Node} {s t : Selection} {logs : List (List Emitted)}
    (selects : SelectsBody addressing body s t logs) :
    Reorders addressing (logs.flatten.filterMap Emitted.call?)
      (body.flatMap (Node.calls false)) := by
  induction selects with
  | nil s => exact reorders_refl []
  | cons first others ih =>
    rw [List.flatten_cons, List.filterMap_append, List.flatMap_cons]
    exact Reorders.append (by simpa using first.calls) ih

theorem Logged.calls {options : Options} {f : Func} {r : Routine} {logs : List (List Emitted)}
    (logged : Logged options f r logs) :
    Reorders options.addressing (logs.flatten.filterMap Emitted.call?)
      (f.calls options.inline) := by
  cases logged with
  | expanded expanded =>
    rw [Func.calls, if_pos expanded]
    exact reorders_refl []
  | selected called selects =>
    rw [Func.calls, called]
    exact selects.calls

/-- The calls of a log at their positions in the code. -/
theorem Answered.places {before : List Instr} {log : List Emitted}
    (answered : Answered addressing before log) : List.Forall₂
      (fun place x => Answers addressing ((before ++ log.map Emitted.instr).take place.2)
        ⟨x.1, x.2, place.1⟩)
      (((log.map Emitted.instr).zipIdx before.length).filter fun place => place.1.isCall)
      (log.filterMap Emitted.call?) := by
  induction log generalizing before with
  | nil => exact .nil
  | cons e log ih =>
    obtain ⟨own, others⟩ := answered
    have later := ih others
    simp only [List.append_assoc, List.singleton_append, List.length_append,
      List.length_singleton] at later
    rw [List.map_cons, List.zipIdx_cons]
    cases call : e.instr.isCall with
    | false =>
      have none : e.call? = none := by simp [Emitted.call?, call]
      rw [List.filter_cons_of_neg (by simp [call]), List.filterMap_cons_none none]
      exact later
    | true =>
      have found : e.call? = some (e.used, e.node) := by simp [Emitted.call?, call]
      rw [List.filter_cons_of_pos (by simp [call]), List.filterMap_cons_some found]
      refine .cons ?_ later
      rw [List.take_left]
      exact own call

/-- The call instructions of a function and the call nodes of its body are one to one. Each has
the callee and the arguments of its node, and a result unless the node is a statement. Without
addresses they come in the same order. -/
theorem generateFunc_calls {options : Options} {f : Func} {r : Routine}
    (generated : generateFunc options f = .ok r) : ∃ nodes,
      List.Forall₂ (fun place x => Answers options.addressing
        ((r.lines.map Line.instr).take place.2) ⟨x.1, x.2, place.1⟩) r.calls nodes ∧
      nodes.Perm (f.calls options.inline) ∧
      (options.addressing = false → nodes = f.calls options.inline) := by
  obtain ⟨logs, logged, answered⟩ := answered_of_ok generated
  refine ⟨logs.flatten.filterMap Emitted.call?, ?_, logged.calls⟩
  have places := answered.places
  rw [Routine.calls, logged.lines]
  exact places

end Order

/-- Calls in an argument, in a base and in an index that stands left of it. -/
def nesting : Func :=
  { name := ascii "f"
    body := [globalCall 0 "g" [globalCall 1 "h" [], .const 1],
      .ret (.mem (.binary .add (.binary .mul (globalCall 2 "a" []) (.const 4))
        (globalCall 3 "b" [])))] }

/-- The argument that is a call is passed in the register of its result, and the constant after
it as it is. -/
theorem generateFunc_calls_nesting : ∃ r nodes, generateFunc {} nesting = .ok r ∧
    r.calls = [(.call (some ⟨.global 1, ascii "h"⟩) [] (register 0), 0),
      (.call (some ⟨.global 0, ascii "g"⟩) [register 0, .imm 1] .absent, 1),
      (.call (some ⟨.global 3, ascii "b"⟩) [] (register 0), 2),
      (.call (some ⟨.global 2, ascii "a"⟩) [] (register 1), 3)] ∧
    List.Forall₂ (fun place x => Answers true ((r.lines.map Line.instr).take place.2)
      ⟨x.1, x.2, place.1⟩) r.calls nodes ∧
    nodes.Perm [(true, globalCall 1 "h" []),
      (false, globalCall 0 "g" [globalCall 1 "h" [], .const 1]),
      (true, globalCall 2 "a" []), (true, globalCall 3 "b" [])] := by
  obtain ⟨r, generated⟩ := exists_ok (x := generateFunc {} nesting) (by cbv)
  obtain ⟨nodes, answers, perm, _⟩ := generateFunc_calls generated
  have calls : (generateFunc {} nesting).toOption.map (·.calls) = some r.calls := by
    rw [generated]
    rfl
  refine ⟨r, nodes, generated, Option.some.inj (calls.symm.trans ?_), answers, perm⟩
  cbv

end Select

end Codegen
