import Codegen.Proofs.Select.Acceptance

/-! What code gets for the symbols that a body mentions: the contents of a variable, and the place
of a string constant. The place of a variable is never what it gets, also where the body asks
for it. -/
namespace Codegen

variable (w : World) (m : Machine)

def Operand.supplied (x : Operand) : List (Symbol × Int64) :=
  match x with
  | .addr _ (some symbol) _ _ _ _ => [(symbol, m.read x)]
  | _ => []

/-- What an instruction gets for each symbol it mentions, with registers and storage as they
are. An operand that is only written supplies nothing. -/
def Instr.supplied : Instr → List (Symbol × Int64)
  | .lea _ (.addr object (some symbol) base index scale offset) =>
    [(symbol, m.address w (.addr object (some symbol) base index scale offset))]
  | .lea _ _ => []
  | x => x.operands.flatMap fun (access, y) => if access = .write then [] else y.supplied m

def Routine.supplied (r : Routine) : List (Symbol × Int64) :=
  r.lines.flatMap fun line => line.instr.supplied w m

inductive Mention
  | text (symbol : Symbol)
  | var (symbol : Symbol)
  | addr (symbol : Symbol)
  deriving DecidableEq, Repr

namespace Mention

/-- What is asked for: the contents of a variable, or a place. -/
def asked : Mention → Symbol × Int64
  | .text symbol | .addr symbol => (symbol, w.place symbol)
  | .var symbol => (symbol, m.storage.cells symbol)

def given : Mention → Symbol × Int64
  | .text symbol => (symbol, w.place symbol)
  | .var symbol | .addr symbol => (symbol, m.storage.cells symbol)

def isAddr : Mention → Bool
  | .addr _ => true
  | _ => false

end Mention

namespace Node

mutual

/-- The symbols that a node mentions where a value is expected. A variable that is assigned to
is not. -/
def mentions : Node → List Mention
  | .text (some symbol) => [.text symbol]
  | .var (some symbol) => [.var symbol]
  | .addr (some symbol) => [.addr symbol]
  | .mem x | .unary _ x | .branch x _ _ | .ret x => x.mentions
  | .binary _ left right => left.mentions ++ right.mentions
  | .call _ args => mentionsOf args
  | .assign (.var _) source | .assign (.addr _) source => source.mentions
  | .assign target source => target.mentions ++ source.mentions
  | _ => []

def mentionsOf : List Node → List Mention
  | [] => []
  | x :: xs => x.mentions ++ mentionsOf xs

end

/-- The mentions of a statement. Nobody asks for the value of an address that stands alone. -/
def demands : Node → List Mention
  | .addr _ => []
  | x => x.mentions

end Node

namespace Select

variable {α β : Type} {g : Gen α} {i j : Multiset (Symbol × Int64)}
  {o : α → Multiset (Symbol × Int64)}

def Selection.supplied (s : Selection) : Multiset (Symbol × Int64) :=
  ↑(s.code.toList.flatMap (Instr.supplied w m))

/-- What is to be supplied, `i`, is supplied by the code that is added, or left to be
supplied by the result. -/
def Supplies (g : Gen α) (i : Multiset (Symbol × Int64)) (o : α → Multiset (Symbol × Int64)) :
    Prop :=
  ∀ s a t, g s = .ok (a, t) → t.supplied w m + o a = s.supplied w m + i

variable {w m}

theorem Supplies.bind {f : α → Gen β} {p : β → Multiset (Symbol × Int64)}
    (first : Supplies w m g i o) (second : ∀ a, Supplies w m (f a) (o a + j) p) :
    Supplies w m (g >>= f) (i + j) p := by
  intro s b u done
  obtain ⟨a, t, doneFirst, doneSecond⟩ := gen_bind_ok done
  rw [second a t b u doneSecond, ← add_assoc, first s a t doneFirst, add_assoc]

/-- What is left alone stays to be supplied. -/
theorem Supplies.frame (supplies : Supplies w m g i o) (k : Multiset (Symbol × Int64)) :
    Supplies w m g (i + k) fun a => o a + k := by
  intro s a t done
  rw [← add_assoc, supplies s a t done, add_assoc]

theorem Supplies.congr (supplies : Supplies w m g i o) (same : i = j) : Supplies w m g j o :=
  same ▸ supplies

theorem Supplies.pure (a : α) : Supplies w m (pure a) (o a) o := by
  intro s a' t done
  cases done
  rfl

theorem Supplies.returns {f : α → β} {p : β → Multiset (Symbol × Int64)}
    (supplies : Supplies w m g i o) (same : ∀ a, o a = p (f a)) :
    Supplies w m (g >>= fun a => Pure.pure (f a)) i p := by
  have whole : Supplies w m (g >>= fun a => Pure.pure (f a)) (i + 0) p :=
    supplies.bind fun a => (Supplies.pure (f a)).congr (by rw [same, add_zero])
  rwa [add_zero] at whole

/-- A step that supplies nothing. -/
theorem Supplies.after {f : α → Gen β} {p : β → Multiset (Symbol × Int64)}
    (first : Supplies w m g 0 fun _ => 0) (second : ∀ a, Supplies w m (f a) i p) :
    Supplies w m (g >>= f) i p := by
  apply Supplies.congr _ (zero_add i)
  apply first.bind
  intro a
  exact (second a).congr (zero_add i).symm

theorem Supplies.within (supplies : Supplies w m g i o) (place : Inside) :
    Supplies w m (within place g) i o :=
  fun s a t done => supplies s a t (within_ok done)

theorem Supplies.fault (cause : Cause) : Supplies w m (fault cause : Gen α) i o := by
  intro s a t done
  cases done

/-- The code stays as it is. -/
theorem Supplies.silent (same : ∀ s a t, g s = .ok (a, t) → t.code = s.code) :
    Supplies w m g 0 fun _ => 0 := by
  intro s a t done
  rw [Selection.supplied, same s a t done, Selection.supplied]

theorem supplies_push (x : Instr) :
    Supplies w m (push x) (x.supplied w m : Multiset (Symbol × Int64)) fun _ => 0 := by
  intro s a t done
  cases done
  simp [Selection.supplied]

theorem supplies_fresh : Supplies w m fresh 0 fun _ => 0 :=
  .silent fun _ _ _ done => by cases done; rfl

theorem supplies_newObject : Supplies w m newObject 0 fun _ => 0 :=
  .silent fun _ _ _ done => by cases done; rfl

theorem supplies_mark : Supplies w m mark 0 fun _ => 0 :=
  .silent fun _ _ _ done => by cases done; rfl

theorem supplies_release (top : Nat) : Supplies w m (release top) 0 fun _ => 0 :=
  .silent fun _ _ _ done => by cases done; rfl

section Operations

def pending (m : Machine) (v : Option Value) : Multiset (Symbol × Int64) :=
  ↑((operand v).supplied m)

def OnlyCells (p : Option Value → Multiset (Symbol × Int64)) : Prop :=
  ∀ v, kindOf v ≠ .place → p v = 0

theorem OnlyCells.temp {p : Option Value → Multiset (Symbol × Int64)} (cells : OnlyCells p)
    (n : Nat) : 0 = p (some (.temp n)) :=
  (cells _ (by simp [kindOf])).symm

theorem onlyCells_pending : OnlyCells (pending m) := by
  intro v kind
  cases v with
  | none => rfl
  | some value =>
    cases value with
    | cell object symbol => exact absurd rfl kind
    | _ => rfl

theorem onlyCells_zero : OnlyCells fun _ => 0 := fun _ _ => rfl

theorem supplies_newCell (symbol : Symbol) : Supplies w m (newCell symbol)
    {(symbol, m.storage.cells symbol)} fun v => pending m (some v) := by
  intro s a t done
  cases done
  rfl

theorem supplies_intoFresh (x : Operand) :
    Supplies w m (intoFresh x) ↑(x.supplied m) fun _ => 0 := by
  intro s a t done
  cases done
  simp [Selection.supplied, Instr.supplied, Instr.operands]

theorem supplies_inRegister (v : Option Value) :
    Supplies w m (inRegister v) (pending m v) fun _ => 0 := by
  cases v with
  | none => exact .fault _
  | some value =>
    cases value with
    | imm c => exact supplies_intoFresh _
    | temp n => exact .pure n
    | cell object symbol => exact supplies_intoFresh _
    | deref object base => exact (supplies_push _).returns fun _ => rfl

variable {p : Option Value → Multiset (Symbol × Int64)} {v : Option Value}

theorem supplies_newDeref (cells : OnlyCells p) (n : Nat) :
    Supplies w m (some <$> newDeref n) 0 p := by
  intro s v t done
  cases done
  rw [cells _ (by simp [kindOf])]
  rfl

theorem binaryInstr?_supplied {op : BinaryOp} {n : Nat} {source : Operand} {x : Instr}
    (found : binaryInstr? op (register n) source = some x) : x.supplied w m = source.supplied m := by
  have single : ([] ++ (source.supplied m ++ []) : List (Symbol × Int64)) = source.supplied m := by
    rw [List.nil_append, List.append_nil]
  cases op <;> cases found <;> exact single

theorem supplies_operate (cells : OnlyCells p) (n : Nat) (cause : Cause) {z : Option Instr}
    {i : Multiset (Symbol × Int64)} (given : ∀ x, z = some x → ↑(x.supplied w m) = i) :
    Supplies w m (operate n cause z) i p := by
  cases z with
  | none => exact .fault _
  | some x => exact given x rfl ▸ (supplies_push x).returns fun _ => cells.temp n

theorem supplies_combine (cells : OnlyCells p) (op : BinaryOp) (right : Operand) :
    Supplies w m (combine op v right) (pending m v + ↑(right.supplied m)) p := by
  unfold combine
  split
  next => exact .fault _
  next =>
    apply ((supplies_inRegister v).within _).bind
    intro n
    apply Supplies.congr _ (zero_add _).symm
    exact supplies_operate cells n _ fun x found => by rw [binaryInstr?_supplied found]

theorem supplies_applyUnary (cells : OnlyCells p) (op : UnaryOp) :
    Supplies w m (applyUnary op v) (pending m v) p := by
  unfold applyUnary
  apply Supplies.congr _ (add_zero (pending m v))
  apply ((supplies_inRegister v).within _).bind
  intro n
  exact supplies_operate cells n _ fun x found => by cases op <;> cases found <;> rfl

theorem supplies_settle (v : Option Value) :
    Supplies w m (settle v) (pending m v) (pending m) := by
  unfold settle
  split
  · exact (supplies_intoFresh _).returns fun _ => rfl
  · exact .pure _

theorem supplies_indexOperand (v : Option Value) :
    Supplies w m (indexOperand v) (pending m v) fun _ => 0 := by
  cases v with
  | none => exact .pure _
  | some v => exact ((supplies_inRegister (some v)).within _).returns fun _ => rfl

theorem supplies_computeAddress (cells : OnlyCells p) (loads : Bool) (scale top : Nat)
    (offset : Int64) (i : Option Value) :
    Supplies w m (computeAddress loads scale offset top v i) (pending m v + pending m i) p := by
  unfold computeAddress
  apply ((supplies_inRegister v).within _).bind
  intro n
  apply Supplies.congr _ (add_comm (pending m i) 0)
  apply (supplies_indexOperand i).bind
  intro j
  rw [add_zero]
  apply supplies_newObject.after
  intro object
  have pushed : Supplies w m (push (if loads then .move (register n)
      (.addr object none (register n) j scale offset)
      else .lea (register n) (.addr object none (register n) j scale offset))) 0 fun _ => 0 := by
    cases loads <;> exact supplies_push _
  apply pushed.after
  intro _
  split
  · exact (supplies_release _).returns fun _ => cells.temp n
  · exact (Supplies.pure _).congr (cells.temp n).symm

end Operations

section Nodes

variable {addressing used : Bool} {x left right : Node}
  {p : Option Value → Multiset (Symbol × Int64)}

def given (w : World) (m : Machine) (rs : List Mention) : Multiset (Symbol × Int64) :=
  ↑(rs.map (Mention.given w m))

theorem given_append (rs us : List Mention) :
    given w m (rs ++ us) = given w m rs + given w m us := by
  simp [given]

def Supplied (w : World) (m : Machine) (addressing : Bool) (x : Node) : Prop :=
  Supplies w m (value addressing x) (given w m x.mentions) (pending m)

theorem supplies_indexValue (supplied : Supplied w m addressing x) :
    Supplies w m (indexValue addressing x) (given w m x.mentions) (pending m) := by
  by_cases missing : x = .missing
  · subst missing
    rw [indexValue]
    exact .pure _
  · rw [indexValue]
    · exact supplied
    · exact missing

theorem supplies_fused (cells : OnlyCells p) {a : Address} (loads : Bool)
    (base : Supplied w m addressing a.base) (index : Supplied w m addressing a.index) :
    Supplies w m (fused addressing loads a)
      (given w m a.base.mentions + given w m a.index.mentions) p := by
  unfold fused
  apply supplies_mark.after
  intro top
  apply (base.within _).bind
  intro b
  apply Supplies.congr _ (add_comm _ _)
  apply ((supplies_indexValue index).within _).bind
  intro i
  apply Supplies.congr _ (add_comm _ _)
  exact supplies_computeAddress cells loads a.scale top a.offset i

theorem supplies_mem (cells : OnlyCells p) (absent : fusion? addressing used (.mem x) = none)
    (supplied : Supplied w m addressing x) :
    Supplies w m (node addressing used (.mem x)) (given w m x.mentions) p := by
  by_cases place : ∃ symbol, x = .addr symbol
  · obtain ⟨symbol, rfl⟩ := place
    rw [node]
    exact .fault _
  · have computed : ∀ symbol, x ≠ .addr symbol := fun symbol same => place ⟨symbol, same⟩
    rw [node_mem_plain computed (Option.map_eq_none_iff.mp absent)]
    apply Supplies.congr _ (add_zero _)
    apply (supplied.within _).bind
    intro v
    apply ((supplies_inRegister v).within _).bind
    intro n
    apply Supplies.congr _ (add_zero _).symm
    exact supplies_newDeref cells n

theorem supplies_binary (cells : OnlyCells p) (op : BinaryOp) (used : Bool)
    (inLeft : Supplied w m addressing left) (inRight : Supplied w m addressing right) :
    Supplies w m (node addressing used (.binary op left right))
      (given w m left.mentions + given w m right.mentions) p := by
  cases found : immediate op left right with
  | left c =>
    obtain ⟨rfl, _⟩ := immediate_left found
    rw [node, found]
    apply Supplies.congr _ (add_comm _ _)
    apply inRight.bind
    intro v
    exact supplies_combine cells op _
  | right c =>
    obtain rfl := immediate_right found
    rw [node, found]
    apply inLeft.bind
    intro v
    exact supplies_combine cells op _
  | neither =>
    rw [node, found]
    apply inLeft.bind
    intro l
    apply (supplies_settle l).bind
    intro l
    apply supplies_mark.after
    intro top
    -- The left value is not touched while the right one is computed.
    rw [add_comm]
    apply Supplies.bind inRight
    intro r
    apply Supplies.congr (i := pending m l + pending m r + 0) _ (by abel)
    apply (supplies_combine cells op (operand r)).bind
    intro result
    apply (supplies_release top).after
    intro _
    exact (Supplies.pure result).congr (add_zero _).symm

theorem supplies_arguments (callee : Symbol) {args : List Node} (i : Nat)
    (supplied : ∀ y ∈ args, Supplied w m addressing y) :
    Supplies w m (arguments addressing callee i args) (given w m (Node.mentionsOf args))
      fun vs => ↑((vs.map operand).flatMap (Operand.supplied m)) := by
  induction args generalizing i with
  | nil =>
    rw [arguments]
    exact .pure []
  | cons x args ih =>
    obtain ⟨first, others⟩ := List.forall_mem_cons.mp supplied
    rw [arguments, Node.mentionsOf, given_append]
    apply (first.within _).bind
    intro v
    apply Supplies.congr _ (add_comm _ _)
    apply Supplies.returns ((ih (i + 1) others).frame (pending m v))
    intro vs
    rw [add_comm, List.map_cons, List.flatMap_cons, ← Multiset.coe_add]
    rfl

theorem supplied_call (callee : Option Symbol) (args : List Operand) (result : Operand) :
    (Instr.call callee args result).supplied w m = args.flatMap (Operand.supplied m) := by
  simp [Instr.supplied, Instr.operands, List.flatMap_map]

theorem supplies_callNode (cells : OnlyCells p) (callee : Symbol) {args : List Node}
    (supplied : ∀ y ∈ args, Supplied w m addressing y) :
    Supplies w m (node addressing used (.call (some callee) args))
      (given w m (Node.mentionsOf args)) p := by
  rw [node]
  apply supplies_mark.after
  intro top
  apply Supplies.congr _ (add_zero _)
  apply (supplies_arguments callee 0 supplied).bind
  intro vs
  apply (supplies_release top).after
  intro _
  rw [add_zero]
  cases used with
  | true =>
    apply supplies_fresh.after
    intro n
    rw [← supplied_call (some callee) (vs.map operand) (register n)]
    exact (supplies_push _).returns fun _ => cells.temp n
  | false =>
    rw [← supplied_call (some callee) (vs.map operand) .absent]
    exact (supplies_push _).returns fun _ => (cells none (by simp [kindOf])).symm

def isPlace : Node → Bool
  | .var _ | .addr _ => true
  | _ => false

theorem mentions_assign (target source : Node) : (Node.assign target source).mentions =
    (if isPlace target then [] else target.mentions) ++ source.mentions := by
  cases target <;> rfl

theorem supplies_assignTarget (supplied : Supplied w m addressing x) :
    Supplies w m (assignTarget addressing x)
      (given w m (if isPlace x then [] else x.mentions)) fun _ => 0 := by
  cases x with
  | var symbol | addr symbol =>
    cases symbol with
    | none =>
      rw [assignTarget]
      exact .fault _
    | some symbol =>
      rw [assignTarget]
      exact supplies_newObject.returns fun _ => rfl
  | const c | text symbol | missing =>
    rw [assignTarget]
    exact .fault _
  | _ =>
    rw [assignTarget]
    · apply Supplies.congr _ (add_zero _)
      apply (supplied.within _).bind
      intro v
      apply ((supplies_inRegister v).within _).bind
      intro n
      rw [add_zero]
      exact supplies_newObject.returns fun _ => rfl
    all_goals simp

/-- The instruction of a statement takes the value that was computed for it. -/
theorem supplies_last {z : Instr} {v : Option Value}
    (same : z.supplied w m = (operand v).supplied m) (nothing : p none = 0) :
    Supplies w m (do push z; return none) (pending m v) p := by
  rw [pending, ← same]
  exact (supplies_push z).returns fun _ => nothing.symm

/-- The plain way to generate code for a node supplies what its parts mention. -/
theorem supplies_node (cells : OnlyCells p) (known : (∃ symbol, x = .addr symbol) → p = pending m)
    (absent : fusion? addressing used x = none)
    (below : ∀ y ∈ x.children, Supplied w m addressing y) :
    Supplies w m (node addressing used x) (given w m x.mentions) p := by
  have nothing : p none = 0 := cells none (by simp [kindOf])
  cases x with
  | missing =>
    rw [node]
    exact .fault _
  | const c =>
    rw [node]
    exact (Supplies.pure _).congr (cells _ (by simp [kindOf]))
  | text symbol =>
    cases symbol <;> rw [node]
    · exact .fault _
    · intro s v t done
      cases done
      rw [← cells.temp]
      simp [Selection.supplied, Instr.supplied, given, Mention.given, Value.operand, Operand.cell,
        Machine.address, Node.mentions, ← Multiset.coe_add]
  | var symbol =>
    cases symbol <;> rw [node]
    · exact .fault _
    · apply Supplies.congr _ (add_zero _)
      apply (supplies_newCell _).bind
      intro v
      rw [add_zero]
      exact (supplies_intoFresh v.operand).returns fun n => cells.temp n
  | addr symbol =>
    cases symbol <;> rw [node]
    · exact .fault _
    · rw [known ⟨_, rfl⟩]
      exact (supplies_newCell _).returns fun _ => rfl
  | mem x => exact supplies_mem cells absent (below x (by simp [Node.children]))
  | binary op left right =>
    rw [Node.mentions, given_append]
    exact supplies_binary cells op used (below left (by simp [Node.children]))
      (below right (by simp [Node.children]))
  | unary op x =>
    rw [node]
    apply Supplies.congr _ (add_zero _)
    apply (below x (by simp [Node.children])).bind
    intro v
    rw [add_zero]
    exact supplies_applyUnary cells op
  | call callee args =>
    cases callee with
    | none =>
      rw [node]
      exact .fault _
    | some callee => exact supplies_callNode cells callee below
  | assign target source =>
    rw [node, mentions_assign, given_append]
    apply (supplies_assignTarget (below target (by simp [Node.children]))).bind
    intro place
    rw [zero_add]
    apply Supplies.congr _ (add_zero _)
    apply ((below source (by simp [Node.children])).within _).bind
    intro v
    rw [add_zero]
    exact supplies_last (by simp [Instr.supplied, Instr.operands]) nothing
  | label name | jump name =>
    rw [node]
    exact (supplies_push _).returns fun _ => nothing.symm
  | branch condition ifTrue ifFalse =>
    rw [node]
    apply Supplies.congr _ (add_zero _)
    apply ((below condition (by simp [Node.children])).within _).bind
    intro v
    rw [add_zero]
    exact supplies_last (by simp [Instr.supplied, Instr.operands]) nothing
  | ret x =>
    by_cases missing : x = .missing
    · subst missing
      rw [node]
      exact (supplies_push _).returns fun _ => nothing.symm
    · rw [Node.children_ret missing] at below
      rw [node]
      · apply Supplies.congr _ (add_zero _)
        apply ((below x (by simp)).within _).bind
        intro v
        rw [add_zero]
        exact supplies_last (by simp [Instr.supplied, Instr.operands]) nothing
      · exact missing

theorem mentions_of_summed {base index : Node} (summed : Summed base index x) :
    given w m x.mentions = given w m base.mentions + given w m index.mentions := by
  rcases summed.split (g := Node.mentions) (by simp [Node.mentions]) (by simp [Node.mentions]) with
    same | same
  · rw [same, given_append]
  · rw [same, given_append, add_comm]

theorem supplies_lowered (addressing used : Bool) (x : Node)
    {p : Option Value → Multiset (Symbol × Int64)} (cells : OnlyCells p)
    (known : (∃ symbol, x = .addr symbol) → p = pending m) :
    Supplies w m (lowered addressing used x) (given w m x.mentions) p := by
  induction used, x using fusion_induction addressing generalizing p with
  | fused used x y a found base index =>
    obtain ⟨_, loads, same⟩ := lowered_fused found
    have parts : given w m x.mentions =
        given w m a.base.mentions + given w m a.index.mentions := by
      rcases fusion?_some found with ⟨rfl, selected⟩ | ⟨rfl, _, selected⟩
      · rw [Node.mentions]
        exact mentions_of_summed (selected?_summed selected)
      · exact mentions_of_summed (selected?_summed selected)
    rw [same, parts]
    exact supplies_fused cells loads (base onlyCells_pending fun _ => rfl)
      (index onlyCells_pending fun _ => rfl)
  | plain used x absent below =>
    rw [lowered_plain absent]
    exact supplies_node cells known absent fun y child =>
      below y child onlyCells_pending fun _ => rfl

theorem supplies_statement (addressing : Bool) (x : Node) :
    Supplies w m (node addressing false x) (given w m x.demands) fun _ => 0 := by
  by_cases alone : ∃ symbol, x = .addr symbol
  · obtain ⟨symbol, rfl⟩ := alone
    cases symbol <;> rw [node]
    · exact .fault _
    · exact .silent fun _ _ _ done => by cases done; rfl
  · have demands : x.demands = x.mentions := by
      cases x with
      | addr symbol => exact absurd ⟨symbol, rfl⟩ alone
      | _ => rfl
    rw [demands]
    exact supplies_lowered addressing false x onlyCells_zero fun place => absurd place alone

theorem supplies_statements (addressing : Bool) (i : Nat) (body : List Node) :
    Supplies w m (statements addressing i body) (given w m (body.flatMap Node.demands))
      fun _ => 0 := by
  induction body generalizing i with
  | nil => exact .pure ()
  | cons x body ih =>
    rw [statements, List.flatMap_cons, given_append]
    apply (supplies_release 0).after
    intro _
    apply ((supplies_statement addressing x).within _).bind
    intro _
    rw [zero_add]
    exact ih (i + 1)

end Nodes

theorem routine_supplied (f : Func) (s : Selection) :
    ((routine f s).supplied w m : Multiset (Symbol × Int64)) = s.supplied w m := by
  rw [Selection.supplied, ← routine_lines f s, List.flatMap_map]
  rfl

/-- Code gets something for each symbol that a body mentions, the contents of a variable whose
place is asked for, and nothing else. -/
theorem generateFunc_supplied {options : Options} {f : Func} {r : Routine}
    (generated : generateFunc options f = .ok r) (called : (options.inline && f.inlined) = false)
    (w : World) (m : Machine) :
    (r.supplied w m).Perm ((f.body.flatMap Node.demands).map (Mention.given w m)) := by
  rcases generateFunc_ok generated with ⟨inline, inlined, _⟩ | ⟨s, done, rfl⟩
  · simp [inline, inlined] at called
  have supplied := supplies_statements (w := w) (m := m) _ 0 f.body _ _ _ done
  rw [← Multiset.coe_eq_coe, routine_supplied]
  simpa [given, Selection.supplied] using supplied

/-- With all contents zero and all places one, the mentions of addresses can be counted. -/
theorem countP_asked (rs : List Mention) (place : ∀ symbol, w.place symbol = 1)
    (cells : ∀ symbol, m.storage.cells symbol = 0) :
    (rs.map (Mention.asked w m)).countP (·.2 == 1) =
      (rs.map (Mention.given w m)).countP (·.2 == 1) + rs.countP Mention.isAddr := by
  induction rs with
  | nil => rfl
  | cons r rs ih =>
    simp only [List.map_cons, List.countP_cons, ih]
    cases r <;> simp [Mention.asked, Mention.given, Mention.isAddr, place, cells] <;> omega

/-- Code gets all that is asked for exactly if no place of a variable is, or else there is none:
the function is refused, or expanded at its calls. -/
theorem supplied_asked_iff (options : Options) (f : Func) :
    (∀ r, generateFunc options f = .ok r → r.inlined = false → ∀ w m,
        (r.supplied w m).Perm ((f.body.flatMap Node.demands).map (Mention.asked w m))) ↔
      (∃ e, generateFunc options f = .error e) ∨ (options.inline && f.inlined) = true ∨
        ∀ r ∈ f.body.flatMap Node.demands, r.isAddr = false := by
  by_cases expanded : (options.inline && f.inlined) = true
  · simp [generateFunc, expanded]
  rw [Bool.not_eq_true] at expanded
  cases generated : generateFunc options f with
  | error e => simp
  | ok r =>
    have called : r.inlined = false := by
      rcases generateFunc_ok generated with ⟨inline, inlined, _⟩ | ⟨s, _, rfl⟩
      · simp [inline, inlined] at expanded
      · rfl
    have supplied := generateFunc_supplied generated expanded
    simp only [Except.ok.injEq, forall_eq', called, forall_const, expanded, reduceCtorEq,
      exists_false, false_or]
    constructor
    · intro asked r inside
      let w : World := { standard with place := fun _ => 1 }
      let m : Machine := ⟨fun _ => 0, ⟨fun _ => 0, fun _ => 0⟩⟩
      have same := ((supplied w m).symm.trans (asked w m)).countP_eq (·.2 == 1)
      rw [countP_asked _ (fun _ => rfl) fun _ => rfl] at same
      have none : (f.body.flatMap Node.demands).countP Mention.isAddr = 0 := by omega
      simpa using List.countP_eq_zero.mp none r inside
    · intro numbers w m
      apply (supplied w m).trans
      rw [List.map_congr_left]
      intro r inside
      have number := numbers r inside
      cases r with
      | addr symbol => contradiction
      | _ => rfl

def storing : Func :=
  { name := ascii "f"
    body := [.assign (.addr (some ⟨.global 0, ascii "x"⟩))
      (globalCall 1 "g" [.text (some ⟨.global 2, ascii "s"⟩), globalVar 0 "x"]), .ret .missing] }

theorem supplied_asked_storing : ∃ r, generateFunc {} storing = .ok r ∧ ∀ w m,
    (r.supplied w m).Perm ((storing.body.flatMap Node.demands).map (Mention.asked w m)) := by
  obtain ⟨r, generated⟩ := exists_ok (x := generateFunc {} storing) (by cbv)
  have called : r.inlined = false := by
    rcases generateFunc_ok generated with ⟨_, inlined, _⟩ | ⟨s, _, rfl⟩
    · contradiction
    · rfl
  have numbers : ∀ r ∈ storing.body.flatMap Node.demands, r.isAddr = false := by decide
  exact ⟨r, generated, (supplied_asked_iff {} storing).mpr (.inr (.inr numbers)) r generated called⟩

/-- Asked for the place of a variable, here zero, the code returns the contents. -/
theorem returning_place_contents :
    standard.place ⟨.global 0, ascii "x"⟩ = 0 ∧
      (generateFunc {} (returning (.addr (some ⟨.global 0, ascii "x"⟩)))).toOption.map (fun r =>
        (Machine.observe (Run.runCode standard.meaning r.lines 1 r.lines
          ⟨fun _ => 0, ⟨fun _ => 7, fun _ => 0⟩⟩)).conclusion) =
      some (some (.returned (some 7))) := by
  constructor
  · rfl
  · cbv

end Select

end Codegen
