import Codegen.Proofs.Select.Emission

/-! Missing operands. A statement has no value, and it is refused where a value goes to a register.
Where an operand is handed to an instruction as it is, a statement leaves it missing, and then
a call has no text. -/
namespace Codegen

namespace Node

/-- The parts of a node whose operands go to its instruction as they are. -/
def handed : Node → List Node
  | .binary _ _ right => [right]
  | .call _ args => args
  | .assign _ source => [source]
  | .branch condition _ _ => [condition]
  | .ret .missing => []
  | .ret x => [x]
  | _ => []

theorem handed_ret {x : Node} (present : x ≠ .missing) : (Node.ret x).handed = [x] := by
  cases x <;> first | rfl | contradiction

end Node

def Instr.present (z : Instr) : Bool :=
  z.operands.all fun slot => !slot.2.isAbsent

namespace Select

namespace Emitted

/-- What a return without a value reads, and what a call as a statement writes, may be missing. -/
def excuses (e : Emitted) (access : Access) : Bool :=
  match e.instr, e.node, access with
  | .ret _, .ret .missing, .read => true
  | .call _ _ _, .call _ _, .write => !e.used
  | _, _, _ => false

/-- No other operand is missing. -/
def complete (e : Emitted) : Bool :=
  e.instr.operands.all fun slot => !slot.2.isAbsent || e.excuses slot.1

theorem complete_of_present {e : Emitted} (present : e.instr.present = true) :
    e.complete = true := by
  refine List.all_eq_true.mpr fun slot member => ?_
  rw [List.all_eq_true.mp present slot member, Bool.true_or]

/-- A complete instruction can be written down. -/
theorem text?_of_complete {e : Emitted} (complete : e.complete = true) :
    e.instr.text?.isSome = true := by
  obtain ⟨used, x, z⟩ := e
  cases z with
  | call callee args result =>
    have given : args.any Operand.isAbsent = false := by
      refine List.any_eq_false.mpr fun y member absent => ?_
      have slot := List.all_eq_true.mp complete (.read, y) (by simp [Instr.operands, member])
      simp [absent, excuses] at slot
    simp [Instr.text?, given]
  | _ => rfl

end Emitted

/-- Every operand that goes to an instruction as it is comes from a node with a value. -/
def filled (addressing used : Bool) (x : Node) : Bool :=
  fold addressing (fun _ _ base index => base && index)
    (fun _ x parts => x.handed.all (·.kind != .nothing) && parts.all id) used x

section Filled

variable {addressing used : Bool} {x y : Node} {a : Address}

theorem filled_fused (found : fusion? addressing used x = some (y, a)) :
    filled addressing used x = (filled addressing true a.base && filled addressing true a.index) :=
  fold_fused found

theorem filled_plain (absent : fusion? addressing used x = none) :
    filled addressing used x =
      (x.handed.all (·.kind != .nothing) && x.children.all (filled addressing true)) := by
  rw [filled, fold_plain absent, List.all_map]
  rfl

/-- Only sums and what is read from memory are computed as one address. -/
theorem filled_other (noMem : ∀ y, x ≠ .mem y)
    (noBinary : ∀ op left right, x ≠ .binary op left right) : filled addressing used x =
      (x.handed.all (·.kind != .nothing) && x.children.all (filled addressing true)) := by
  refine filled_plain ?_
  cases x with
  | mem y => exact absurd rfl (noMem y)
  | binary op left right => exact absurd rfl (noBinary op left right)
  | _ => cases addressing <;> cases used <;> rfl

theorem filled_leaf (addressing used : Bool) (alone : x.children = []) (handed : x.handed = []) :
    filled addressing used x = true := by
  rw [filled_plain (fusion?_leaf _ _ alone), alone, handed]
  rfl

theorem filled_parts (a : Address) :
    a.parts.all (filled addressing true) =
      (filled addressing true a.base && filled addressing true a.index) := by
  unfold Address.parts
  cases found : a.index with
  | missing => simp [Node.isMissing, filled_leaf (x := .missing) addressing true rfl rfl]
  | _ => simp [Node.isMissing]

end Filled

section Present

variable {v v' : Option Value} {s t : Selection} {n : Nat} {own : List Instr}

theorem isAbsent_operand (v : Option Value) :
    (!(operand v).isAbsent) = (kindOf v != .nothing) := by
  rcases v with _ | (c | n | ⟨object, symbol⟩ | ⟨object, n⟩) <;> rfl

theorem Loads.present (loads : Loads v s n t own) : own.all Instr.present = true := by
  cases loads with
  | held n s => rfl
  | @fetched value s none => cases value <;> rfl
  | read object n s => rfl

theorem Settles.present (settles : Settles v s v' t own) : own.all Instr.present = true := by
  cases settles <;> rfl

theorem Indexes.present {j : Operand} (indexes : Indexes v s j t own) :
    own.all Instr.present = true := by
  cases indexes with
  | none s => rfl
  | some loads => exact loads.present

theorem addressInstr_present (loads : Bool) (object n : Nat) (j : Operand) (a : Address) :
    (addressInstr loads object n j a).present = true := by
  cases loads <;> rfl

theorem unaryInstr?_present {op : UnaryOp} {z : Instr}
    (found : unaryInstr? op (register n) = some z) : z.present = true := by
  cases op <;> cases found <;> rfl

/-- Nothing excuses an operator. -/
theorem binaryInstr?_complete {op : BinaryOp} {source : Operand} {z : Instr} (used : Bool)
    (x : Node) (found : binaryInstr? op (register n) source = some z) :
    Emitted.complete ⟨used, x, z⟩ = !source.isAbsent := by
  cases op <;> cases found <;>
    simp [Emitted.complete, Emitted.excuses, Instr.operands, register, Operand.isAbsent]

theorem complete_emitted {code : List Instr} (used : Bool) (x : Node)
    (present : code.all Instr.present = true) :
    (emitted used x code).all Emitted.complete = true := by
  rw [emitted, List.all_map, List.all_eq_true]
  intro z member
  exact Emitted.complete_of_present (List.all_eq_true.mp present z member)

/-- The last instruction of a node decides. -/
theorem complete_emitted_last {z : Instr} (used : Bool) (x : Node)
    (present : own.all Instr.present = true) :
    (emitted used x (own ++ [z])).all Emitted.complete = Emitted.complete ⟨used, x, z⟩ := by
  have before := complete_emitted used x present
  simp_all [emitted]

theorem complete_emitted_one (used : Bool) (x : Node) (z : Instr) :
    (emitted used x [z]).all Emitted.complete = Emitted.complete ⟨used, x, z⟩ :=
  Bool.and_true _

theorem complete_move {target : Operand} (used : Bool) (x : Node) (source : Operand)
    (placed : target.isAbsent = false) :
    Emitted.complete ⟨used, x, .move target source⟩ = !source.isAbsent := by
  simp [Emitted.complete, Emitted.excuses, Instr.operands, placed]

theorem complete_branch {condition : Operand} (used : Bool) (x : Node)
    (ifTrue ifFalse next : Bytes) :
    Emitted.complete ⟨used, x, .branch condition ifTrue ifFalse next⟩ = !condition.isAbsent := by
  simp [Emitted.complete, Emitted.excuses, Instr.operands]

theorem complete_ret {x : Node} {source : Operand} (used : Bool) (present : x ≠ .missing) :
    Emitted.complete ⟨used, .ret x, .ret source⟩ = !source.isAbsent := by
  cases x <;> first
    | contradiction
    | simp [Emitted.complete, Emitted.excuses, Instr.operands]

theorem complete_call {used : Bool} (callee : Option Symbol) (parts : List Node)
    (args : List Operand) {result : Operand} (unused : result.isAbsent = true → used = false) :
    Emitted.complete ⟨used, .call callee parts, .call callee args result⟩ =
      args.all (!·.isAbsent) := by
  have written : (!result.isAbsent || !used) = true := by
    cases absent : result.isAbsent with
    | false => rfl
    | true =>
      rw [unused absent]
      rfl
  simp [Emitted.complete, Emitted.excuses, Instr.operands, Function.comp_def, written]

end Present

section Runs

variable {addressing used : Bool} {xs : List Node} {s t : Selection} {vs : List (Option Value)}
  {log : List Emitted}

/-- The value of a node that is used is of the kind of the node. -/
theorem Selects.kinds (selects : Selects addressing used xs s vs t log) (asked : used = true) :
    vs.map kindOf = xs.map Node.kind := by
  induction selects with
  | nil s => rfl
  | cons first second ih ih' =>
    rw [List.map_cons, List.map_cons, ih' rfl]
    exact congrArg (· :: _) (List.cons.inj (ih rfl)).1
  | @fused used x y a s t u w b rest n j log own own' found parts loads indexes ih =>
    rcases fusion?_some found with ⟨rfl, selected⟩ | ⟨rfl, _, selected⟩
    · rfl
    · rcases selected?_summed selected with ⟨_ | _ | _⟩ | _ | _ <;> rfl
  | callStatement args ih => contradiction
  | _ => rfl

theorem Selects.given (selects : Selects addressing true xs s vs t log) :
    vs.all (fun v => !(operand v).isAbsent) = xs.all (·.kind != .nothing) := by
  have kinds := congrArg (List.all · (· != .nothing)) (selects.kinds rfl)
  simp only [List.all_map] at kinds
  simpa only [isAbsent_operand, Function.comp_def] using kinds

theorem Selects.given_one {x : Node} {v : Option Value}
    (selects : Selects addressing true [x] s [v] t log) :
    (!(operand v).isAbsent) = (x.kind != .nothing) := by
  simpa using selects.given

/-- The code of nodes lacks no operand exactly if the nodes hand no statement to an
instruction. -/
theorem Selects.complete (selects : Selects addressing used xs s vs t log) :
    log.all Emitted.complete = xs.all (filled addressing used) := by
  induction selects with
  | nil s => rfl
  | cons first second ih ih' => simp_all
  | const used c s | addr used symbol s =>
    rw [List.all_cons, filled_leaf addressing used rfl rfl]
    rfl
  | text used symbol s | var used symbol s | label used name s | jump used target s =>
    rw [complete_emitted _ _ rfl, List.all_cons, filled_leaf addressing used rfl rfl]
    rfl
  | retNothing used s =>
    rw [List.all_cons, filled_leaf addressing used rfl rfl]
    rfl
  | mem absent part loads ih =>
    rw [List.all_append, complete_emitted _ _ loads.present, ih]
    simp [filled_plain absent, Node.handed, Node.children]
  | @fused used x y a s t u w b rest n j log own own' found parts loads indexes ih =>
    have present : (own ++ own' ++ [addressInstr x.isMem w.objects n j a]).all Instr.present =
        true := by
      simp [List.all_append, loads.present, indexes.present, addressInstr_present]
    rw [List.all_append, complete_emitted _ _ present, ih, filled_parts]
    simp [filled_fused found]
  | @immediate used op left right c s t u v n z log own absent found part number loads instr ih =>
    have whole : Emitted.complete ⟨used, .binary op left right, z⟩ = true :=
      binaryInstr?_complete used _ instr
    rw [List.all_append, complete_emitted_last _ _ loads.present, whole, ih]
    have kind := (List.cons.inj (part.kinds rfl)).1
    rw [number] at kind
    rcases found with found | found
    · obtain ⟨rfl, _⟩ := immediate_left found
      rw [Node.accumulator, found] at kind ⊢
      simp [filled_plain absent, Node.handed, Node.children, ← kind,
        filled_leaf (x := .const c) addressing true rfl rfl]
    · obtain rfl := immediate_right found
      rw [Node.accumulator, found]
      simp [filled_plain absent, Node.handed, Node.children, Node.kind,
        filled_leaf (x := .const c) addressing true rfl rfl]
  | @binary used op left right s t t' u w l l' r n z log log' own own' absent found inLeft settles
      inRight number loads instr ih ih' =>
    have whole : Emitted.complete ⟨used, .binary op left right, z⟩ = (right.kind != .nothing) :=
      (binaryInstr?_complete used _ instr).trans inRight.given_one
    rw [List.all_append, List.all_append, complete_emitted _ _ settles.present, List.all_append,
      complete_emitted_last _ _ loads.present, whole, ih, ih']
    simp [filled_plain absent, Node.handed, Node.children]
    ac_rfl
  | unary part loads instr ih =>
    rw [List.all_append, complete_emitted_last _ _ loads.present,
      Emitted.complete_of_present (unaryInstr?_present instr), ih]
    simp [filled_other, Node.handed, Node.children]
  | @call callee args s t vs log part ih =>
    have result : (register s.top).isAbsent = true → true = false := by
      simp [register, Operand.isAbsent]
    have whole := complete_call (some callee) args (vs.map operand) result
    rw [List.all_map, Function.comp_def, part.given] at whole
    rw [List.all_append, ih, complete_emitted_one, whole]
    simp [filled_other, Node.handed, Node.children, Bool.and_comm]
  | @callStatement callee args s t vs log part ih =>
    have whole := complete_call (some callee) args (vs.map operand)
      (fun _ : Operand.absent.isAbsent = true => rfl)
    rw [List.all_map, Function.comp_def, part.given] at whole
    rw [List.all_append, ih, complete_emitted_one, whole]
    simp [filled_other, Node.handed, Node.children, Bool.and_comm]
  | @assignSymbol used target source symbol s t v log place part ih =>
    have placed : (Operand.cell s.objects symbol).isAbsent = false := rfl
    have whole := (complete_move used (.assign target source) _ placed).trans part.given_one
    have leaf : filled addressing true target = true := by
      rcases place with rfl | rfl <;> exact filled_leaf addressing true rfl rfl
    rw [List.all_append, ih, complete_emitted_one, whole]
    simp [filled_other, Node.handed, Node.children, leaf, Bool.and_comm]
  | @assign used target source s t u w l v n log log' own inTarget loads inSource ih ih' =>
    have placed : (Value.deref u.objects n).operand.isAbsent = false := rfl
    have whole := (complete_move used (.assign target source) _ placed).trans inSource.given_one
    rw [List.all_append, List.all_append, complete_emitted _ _ loads.present, List.all_append,
      complete_emitted_one, whole, ih, ih']
    simp [filled_other, Node.handed, Node.children]
    ac_rfl
  | @branch used condition s t v log ifTrue ifFalse part ih =>
    have whole := (complete_branch used (.branch condition ifTrue ifFalse) ifTrue ifFalse []).trans
      part.given_one
    rw [List.all_append, ih, complete_emitted_one, whole]
    simp [filled_other, Node.handed, Node.children, Bool.and_comm]
  | @ret used x s t v log present part ih =>
    have whole := (complete_ret used present).trans part.given_one
    rw [List.all_append, ih, complete_emitted_one, whole]
    simp [filled_other, Node.handed_ret present, Node.children_ret present, Bool.and_comm]

end Runs

section Functions

variable {addressing : Bool} {body : List Node} {s t : Selection} {logs : List (List Emitted)}
  {options : Options} {f : Func} {r : Routine}

theorem SelectsBody.complete (selects : SelectsBody addressing body s t logs) :
    logs.flatten.all Emitted.complete = body.all (filled addressing false) := by
  induction selects with
  | nil s => rfl
  | cons first others ih =>
    have head := first.complete
    rw [List.flatten_cons, List.all_append, ih, head, List.all_cons, List.all_cons, List.all_nil,
      Bool.and_true]

theorem Logged.complete (logged : Logged options f r logs) :
    logs.flatten.all Emitted.complete =
      ((options.inline && f.inlined) || f.body.all (filled options.addressing false)) := by
  cases logged with
  | expanded expanded => rw [expanded, Bool.true_or]; rfl
  | selected called selects => rw [called, Bool.false_or, selects.complete]

/-- The code of a function lacks an operand, other than the value of a bare return and the result
of a call as a statement, exactly if its body hands a statement to an instruction. Otherwise all
instructions can be written down. -/
theorem generateFunc_complete_iff (generated : generateFunc options f = .ok r) :
    (∃ logs, Logged options f r logs) ∧ ∀ logs, Logged options f r logs →
      r.lines.map Line.instr = logs.flatten.map Emitted.instr ∧
      ((∀ e ∈ logs.flatten, e.complete = true) ↔
        (options.inline && f.inlined) = true ∨
          ∀ x ∈ f.body, filled options.addressing false x = true) ∧
      ((∀ e ∈ logs.flatten, e.complete = true) →
        ∀ line ∈ r.lines, line.instr.text?.isSome = true) := by
  refine ⟨logged_of_ok generated, fun logs logged => ⟨logged.lines, ?_, fun complete => ?_⟩⟩
  · rw [← List.all_eq_true, logged.complete, Bool.or_eq_true, List.all_eq_true]
  · intro line member
    have inCode := List.mem_map_of_mem (f := Line.instr) member
    rw [logged.lines] at inCode
    obtain ⟨e, emitted, same⟩ := List.mem_map.mp inCode
    rw [← same]
    exact Emitted.text?_of_complete (complete e emitted)

end Functions

def reporting : Func :=
  { name := ascii "f"
    body := [globalCall 0 "g" [globalCall 1 "h" [.const 1]], .ret .missing] }

theorem generateFunc_complete_reporting : ∃ r logs, generateFunc {} reporting = .ok r ∧
    Logged {} reporting r logs ∧ (∀ e ∈ logs.flatten, e.complete = true) ∧
    ∀ line ∈ r.lines, line.instr.text?.isSome = true := by
  have whole : reporting.body.all (filled true false) = true := by cbv
  obtain ⟨r, generated⟩ := exists_ok (x := generateFunc {} reporting) (by cbv)
  obtain ⟨⟨logs, logged⟩, known⟩ := generateFunc_complete_iff generated
  obtain ⟨_, iff, written⟩ := known logs logged
  have complete := iff.mpr (.inr (List.all_eq_true.mp whole))
  exact ⟨r, logs, generated, logged, complete, written complete⟩

def handingLabel : Func :=
  { name := ascii "f", body := [globalCall 0 "g" [.label (ascii "A")]] }

theorem call_lacks_argument : ∃ r, generateFunc {} handingLabel = .ok r ∧
    ∃ line ∈ r.lines, (.read, .absent) ∈ line.instr.operands ∧ line.instr.text? = none := by
  have generated : generateFunc {} handingLabel = .ok (routine handingLabel
      ⟨#[.label (ascii "A"), .call (some ⟨.global 0, ascii "g"⟩) [.absent] .absent], 0, 0, 0⟩) := by
    cbv
  refine ⟨_, generated, ⟨1, .call (some ⟨.global 0, ascii "g"⟩) [.absent] .absent⟩, ?_, ?_, rfl⟩
  · exact List.mem_of_getElem? (i := 1) (by cbv)
  · simp [Instr.operands]

end Select

end Codegen
