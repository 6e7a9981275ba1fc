import Codegen.Proofs.Select.Value

/-! Selection with each step checked that might be impossible: a register is taken from a table,
which has to reach that far, and an address has a scale, which has to be one of the machine. No
check ever fails, so the steps need not be checked. -/
namespace Codegen.Select

/-- How a checked selection ends without code: by a fault, or at a step that cannot be made. -/
inductive Stop
  | fault (f : Fault)
  | noRegister (n : Nat)
  | badScale (bad : Operand.BadScale)
  deriving DecidableEq, Repr

def Stop.inside (place : Inside) : Stop → Stop
  | fault f => fault (f.inside place)
  | stop => stop

/-- The table has the registers used so far, and grows by one where the next one is taken. -/
instance : Halting Stop where
  fault := .fault
  inside := Stop.inside
  noRegister? temps n := if n ≤ temps then none else some (.noRegister n)
  badScale? scale := (Operand.badScale? scale).map .badScale

abbrev Checking := Generation Stop

namespace Checked

def generateFuncs (options : Options) (fs : List Func) : Except Stop (List Routine) :=
  Select.generateFuncs options fs

def Below (high : Nat) : Option Value → Prop
  | some (.temp n) | some (.deref _ n) => n < high
  | _ => True

/-- A checked part ends as the part itself does, wherever the table of registers reaches up to the
top and has at least `low` of them. After a result it still does, and no register is lost. -/
def Agrees {α : Type} (low : Nat) (c : Checking α) (g : Gen α) (P : Nat → α → Prop) : Prop :=
  ∀ s : Selection, s.top ≤ s.temps → low ≤ s.temps →
    (∃ a t, c s = .ok (a, t) ∧ g s = .ok (a, t) ∧ t.top ≤ t.temps ∧ s.temps ≤ t.temps ∧
      P t.temps a) ∨
    ∃ f, c s = .error (.fault f) ∧ g s = .error f ∧ ∀ label, f.cause ≠ .emptyBlock label

section Steps

variable {α β : Type} {low : Nat} {c : Checking α} {g : Gen α} {P : Nat → α → Prop}
  {Q : Nat → β → Prop}

theorem Agrees.bind {c' : α → Checking β} {g' : α → Gen β} (first : Agrees low c g P)
    (second : ∀ m a, low ≤ m → P m a → Agrees m (c' a) (g' a) Q) :
    Agrees low (c >>= c') (g >>= g') Q := by
  intro s stacked enough
  change (∃ b u, (c s >>= fun (a, t) => c' a t) = .ok (b, u) ∧
      (g s >>= fun (a, t) => g' a t) = .ok (b, u) ∧ _) ∨
    ∃ f, (c s >>= fun (a, t) => c' a t) = .error (.fault f) ∧
      (g s >>= fun (a, t) => g' a t) = .error f ∧ _
  rcases first s stacked enough with ⟨a, t, done, done', stacked', grown, known⟩ |
    ⟨f, stops, fails, cause⟩
  · rw [done, done']
    -- The second part starts from the table that the first one leaves.
    rcases second _ a (enough.trans grown) known t stacked' le_rfl with
      ⟨b, u, done, done', stacked, grown', known⟩ | faults
    · exact .inl ⟨b, u, done, done', stacked, grown.trans grown', known⟩
    · exact .inr faults
  · rw [stops, fails]
    exact .inr ⟨f, rfl, rfl, cause⟩

theorem Agrees.pure {a : α} (known : ∀ m, low ≤ m → P m a) :
    Agrees low (pure a) (pure a) P :=
  fun s stacked enough => .inl ⟨a, s, rfl, rfl, stacked, le_rfl, known s.temps enough⟩

theorem Agrees.imp {P' : Nat → α → Prop} (agrees : Agrees low c g P)
    (implies : ∀ m a, low ≤ m → P m a → P' m a) : Agrees low c g P' := by
  intro s stacked enough
  rcases agrees s stacked enough with ⟨a, t, done, done', stacked', grown, known⟩ | faults
  · exact .inl ⟨a, t, done, done', stacked', grown, implies _ a (enough.trans grown) known⟩
  · exact .inr faults

/-- Nothing is left to do but to give a result. -/
theorem Agrees.returns {f : α → β} (agrees : Agrees low c g fun m a => Q m (f a)) :
    Agrees low (c >>= fun a => Pure.pure (f a)) (g >>= fun a => Pure.pure (f a)) Q := by
  intro s stacked enough
  change (∃ b u, (c s >>= fun (a, t) => .ok (f a, t)) = .ok (b, u) ∧
      (g s >>= fun (a, t) => .ok (f a, t)) = .ok (b, u) ∧ _) ∨
    ∃ e, (c s >>= fun (a, t) => .ok (f a, t)) = .error (.fault e) ∧
      (g s >>= fun (a, t) => .ok (f a, t)) = .error e ∧ _
  rcases agrees s stacked enough with ⟨a, t, done, done', rest⟩ | ⟨e, stops, fails, cause⟩
  · rw [done, done']
    exact .inl ⟨f a, t, rfl, rfl, rest⟩
  · rw [stops, fails]
    exact .inr ⟨e, rfl, rfl, cause⟩

theorem Agrees.map {f : α → β} (agrees : Agrees low c g fun m a => Q m (f a)) :
    Agrees low (f <$> c) (f <$> g) Q :=
  agrees.returns

theorem Agrees.within (agrees : Agrees low c g P) (place : Inside) :
    Agrees low (within place c) (within place g) P := by
  intro s stacked enough
  unfold Select.within
  rcases agrees s stacked enough with ⟨a, t, done, done', rest⟩ | ⟨f, stops, fails, cause⟩
  · rw [done, done']
    exact .inl ⟨a, t, rfl, rfl, rest⟩
  · rw [stops, fails]
    exact .inr ⟨f.inside place, rfl, rfl, cause⟩

theorem Agrees.fault {cause : Cause} (other : ∀ label, cause ≠ .emptyBlock label) :
    Agrees low (fault cause) (fault cause) P :=
  fun _ _ _ => .inr ⟨⟨[], cause⟩, rfl, rfl, other⟩

/-- A step that changes nothing but the code and the addresses made. -/
theorem Agrees.silent (done : ∀ s : Selection, s.top ≤ s.temps → low ≤ s.temps →
    ∃ a t, c s = .ok (a, t) ∧ g s = .ok (a, t) ∧ t.top = s.top ∧ t.temps = s.temps ∧
      P s.temps a) : Agrees low c g P := by
  intro s stacked enough
  obtain ⟨a, t, done, done', top, temps, known⟩ := done s stacked enough
  exact .inl ⟨a, t, done, done', by rwa [top, temps], temps.ge, by rwa [temps]⟩

theorem agrees_push (x : Instr) : Agrees low (push x) (push x) fun _ _ => True :=
  .silent fun _ _ _ => ⟨_, _, rfl, rfl, rfl, rfl, trivial⟩

/-- Where the scale is one that the machine has, an address is made. -/
theorem agrees_newObject {scale : Int} (valid : Operand.isScale scale = true) :
    Agrees low (newObject scale) (newObject scale) fun _ _ => True := by
  have known : (Halting.badScale? scale : Option Stop) = none := by
    simp [Halting.badScale?, Operand.badScale?, valid]
  refine .silent fun s _ _ => ⟨s.objects, _, ?_, rfl, rfl, rfl, trivial⟩
  unfold newObject
  rw [known]

theorem agrees_newCell (symbol : Symbol) :
    Agrees low (newCell symbol) (newCell symbol) fun m v => Below m (some v) :=
  ((agrees_newObject rfl).imp fun _ _ _ _ => trivial).returns

theorem agrees_newDeref {n : Nat} (inside : n < low) :
    Agrees low (newDeref n) (newDeref n) fun m v => Below m (some v) :=
  ((agrees_newObject rfl).imp fun _ _ more _ => Nat.lt_of_lt_of_le inside more).returns

theorem agrees_mark : Agrees low mark mark fun m top => top ≤ m :=
  .silent fun s stacked _ => ⟨s.top, s, rfl, rfl, rfl, rfl, stacked⟩

theorem agrees_release {top : Nat} (below : top ≤ low) :
    Agrees low (release top) (release top) fun _ _ => True :=
  fun s _ enough => .inl ⟨(), { s with top }, rfl, rfl, below.trans enough, le_rfl, trivial⟩

theorem agrees_fresh : Agrees low fresh fresh fun m n => n < m := by
  intro s stacked _
  have known : (Halting.noRegister? s.temps s.top : Option Stop) = none := if_pos stacked
  refine .inl ⟨s.top, _, ?_, rfl, le_max_right .., le_max_left .., ?_⟩
  · unfold fresh
    rw [known]
  · exact Nat.lt_of_succ_le (le_max_right ..)

theorem agrees_intoFresh (source : Operand) :
    Agrees low (intoFresh source) (intoFresh source) fun m n => n < m :=
  agrees_fresh.bind fun _ _ _ below => (agrees_push _).bind fun _ _ more _ =>
    .pure fun _ still => below.trans_le (more.trans still)

end Steps

section Operations

variable {low : Nat} {v : Option Value}

theorem Below.mono {m : Nat} (below : Below low v) (more : low ≤ m) : Below m v := by
  cases v with
  | none => trivial
  | some value =>
    cases value with
    | imm c => trivial
    | temp n => exact Nat.lt_of_lt_of_le below more
    | cell object symbol => trivial
    | deref object n => exact Nat.lt_of_lt_of_le below more

theorem agrees_inRegister (below : Below low v) :
    Agrees low (inRegister v) (inRegister v) fun m n => n < m := by
  cases v with
  | none => exact .fault (by simp)
  | some value =>
    cases value with
    | imm c => exact agrees_intoFresh (.imm c)
    | temp n => exact .pure fun m more => Nat.lt_of_lt_of_le below more
    | cell object symbol => exact agrees_intoFresh (.cell object symbol)
    | deref object n =>
      exact .silent fun s _ enough => ⟨n, _, rfl, rfl, rfl, rfl, Nat.lt_of_lt_of_le below enough⟩

theorem agrees_operate {n : Nat} (inside : n < low) (cause : Cause)
    (other : ∀ label, cause ≠ .emptyBlock label) (x : Option Instr) :
    Agrees low (operate n cause x) (operate n cause x) Below := by
  cases x with
  | none => exact .fault other
  | some x =>
    exact .silent fun s _ enough => ⟨some (.temp n), _, rfl, rfl, rfl, rfl, inside.trans_le enough⟩

theorem agrees_combine (op : BinaryOp) (right : Operand) (below : Below low v) :
    Agrees low (combine op v right) (combine op v right) Below := by
  have operates := ((agrees_inRegister below).within (.binary op)).bind fun m n _ inside =>
    agrees_operate inside (.unknownBinary op.code) (by simp) (binaryInstr? op (register n) right)
  cases v with
  | none => exact operates
  | some value =>
    cases value with
    | cell object symbol => exact .fault (by simp)
    | imm c => exact operates
    | temp n => exact operates
    | deref object n => exact operates

theorem agrees_applyUnary (op : UnaryOp) (below : Below low v) :
    Agrees low (applyUnary op v) (applyUnary op v) Below := by
  refine ((agrees_inRegister below).within _).bind fun m n _ inside => ?_
  exact agrees_operate inside (.unknownUnary op.code) (by simp) (unaryInstr? op (register n))

theorem agrees_settle (below : Below low v) :
    Agrees low (settle v) (settle v) Below := by
  have same : Agrees low (pure v) (pure v) Below := .pure fun m more => below.mono more
  cases v with
  | none => exact same
  | some value =>
    cases value with
    | imm c => exact (agrees_intoFresh (.imm c)).map
    | cell object symbol => exact same
    | temp n => exact same
    | deref object n => exact same

theorem agrees_indexOperand (below : Below low v) :
    Agrees low (indexOperand v) (indexOperand v) fun _ _ => True := by
  cases v with
  | none => exact .pure fun _ _ => trivial
  | some value => exact (((agrees_inRegister below).within _).imp fun _ _ _ _ => trivial).map

theorem agrees_computeAddress {scale : Nat} (valid : Operand.isScale scale = true) (loads : Bool)
    (offset : Int64) (top : Nat) {i : Option Value} (base : Below low v) (index : Below low i) :
    Agrees low (computeAddress loads scale offset top v i)
      (computeAddress loads scale offset top v i) Below := by
  unfold computeAddress
  refine ((agrees_inRegister base).within _).bind fun m n more inside => ?_
  refine (agrees_indexOperand (index.mono more)).bind fun m' j more' _ => ?_
  refine (agrees_newObject valid).bind fun _ object more'' _ => ?_
  refine (agrees_push _).bind fun last _ more''' _ => ?_
  have result : n < last := by omega
  -- The top goes right above the register of the result, which the table has.
  split
  · exact ((agrees_release result).imp fun _ _ still _ => Nat.lt_of_lt_of_le result still).returns
  · exact .pure fun _ still => Nat.lt_of_lt_of_le result still

end Operations

section Scales

variable {x base left right : Node} {a : Address}

theorem factor?_scale {scale : Nat} (found : factor? x = some scale) :
    Operand.isScale scale = true := by
  unfold factor? at found
  split at found
  · repeat
      split at found
      next => cases found; rfl
    contradiction
  · contradiction

theorem product?_scale (found : product? base left right = some a) :
    Operand.isScale a.scale = true := by
  unfold product? at found
  split at found
  next scale factor =>
    cases found
    exact factor?_scale factor
  next =>
    split at found
    next scale factor =>
      cases found
      exact factor?_scale factor
    next => contradiction

theorem indexedSum?_scale {plain : Bool} (found : indexedSum? plain x = some a) :
    Operand.isScale a.scale = true := by
  unfold indexedSum? at found
  split at found
  · exact product?_scale found
  · exact product?_scale found
  · split at found
    · cases found
      rfl
    · contradiction
  · contradiction

/-- An address that is recognized has a scale that the machine has. -/
theorem selected?_scale {addressing plain : Bool} (found : selected? addressing plain x = some a) :
    Operand.isScale a.scale = true := by
  unfold selected? address? at found
  split at found
  · split at found
    · obtain ⟨sum, summed, rfl⟩ := Option.map_eq_some_iff.mp found
      have scale := indexedSum?_scale summed
      exact scale
    · obtain ⟨sum, summed, rfl⟩ := Option.map_eq_some_iff.mp found
      have scale := indexedSum?_scale summed
      exact scale
    · exact indexedSum?_scale found
  · contradiction

end Scales

section Nodes

variable {addressing used : Bool} {low : Nat} {x : Node}

-- Each equation of the selection is used twice, for what stops with checks and for what stops
-- without them.

/-- The code of a node whose value is used is the same with checks and without. -/
def Agreed (addressing : Bool) (x : Node) : Prop :=
  ∀ low, Agrees low (value addressing x) (value addressing x) Below

theorem agrees_indexValue (agreed : Agreed addressing x) :
    Agrees low (indexValue addressing x) (indexValue addressing x) Below := by
  by_cases missing : x = .missing
  · subst missing
    rw [indexValue, indexValue]
    exact .pure fun _ _ => trivial
  · rw [indexValue, indexValue]
    · exact agreed low
    · exact missing
    · exact missing

theorem agrees_fused {plain : Bool} {y : Node} {a : Address}
    (found : selected? addressing plain y = some a) (loads : Bool) (base : Agreed addressing a.base)
    (index : Agreed addressing a.index) :
    Agrees low (fused addressing loads a) (fused addressing loads a) Below := by
  refine agrees_mark.bind fun m top _ _ => ?_
  refine ((base m).within _).bind fun m' b _ below => ?_
  refine ((agrees_indexValue index).within _).bind fun m'' i more below' => ?_
  exact agrees_computeAddress (selected?_scale found) loads a.offset top (below.mono more) below'

theorem agrees_arguments (callee : Symbol) {args : List Node} (i : Nat)
    (agreed : ∀ y ∈ args, Agreed addressing y) :
    Agrees low (arguments addressing callee i args) (arguments addressing callee i args)
      fun _ _ => True := by
  induction args generalizing i low with
  | nil =>
    rw [arguments, arguments]
    exact .pure fun _ _ => trivial
  | cons x args ih =>
    obtain ⟨first, others⟩ := List.forall_mem_cons.mp agreed
    rw [arguments, arguments]
    exact ((first low).within _).bind fun m v _ _ => (ih (i + 1) others).returns

theorem agrees_mem (below : ∀ y, sizeOf y < sizeOf (Node.mem x) → Agreed addressing y) :
    Agrees low (node addressing used (.mem x)) (node addressing used (.mem x)) Below := by
  by_cases place : ∃ symbol, x = .addr symbol
  · obtain ⟨symbol, rfl⟩ := place
    rw [node, node]
    exact .fault (by simp)
  · have computed : ∀ symbol, x ≠ .addr symbol := fun symbol same => place ⟨symbol, same⟩
    cases found : selected? addressing true x with
    | some a =>
      obtain ⟨base, index⟩ := selected?_size found
      rw [node_mem_fused found, node_mem_fused found]
      exact agrees_fused found true (below a.base (by simp; omega)) (below a.index (by simp; omega))
    | none =>
      rw [node_mem_plain computed found, node_mem_plain computed found]
      refine ((below x (by simp) low).within _).bind fun m v _ known => ?_
      refine ((agrees_inRegister known).within _).bind fun m' n _ inside => ?_
      exact (agrees_newDeref inside).map

theorem agrees_binary (op : BinaryOp) {left right : Node} (leftAgreed : Agreed addressing left)
    (rightAgreed : Agreed addressing right) :
    Agrees low (node addressing used (.binary op left right))
      (node addressing used (.binary op left right)) Below := by
  cases found : immediate op left right with
  | left c =>
    rw [node, node, found]
    exact (rightAgreed low).bind fun m v _ known => agrees_combine op _ known
  | right c =>
    rw [node, node, found]
    exact (leftAgreed low).bind fun m v _ known => agrees_combine op _ known
  | neither =>
    rw [node, node, found]
    refine (leftAgreed low).bind fun m l _ known => ?_
    refine (agrees_settle known).bind fun m' l' _ known' => ?_
    refine agrees_mark.bind fun m'' top more marked => ?_
    refine (rightAgreed m'').bind fun m₁ r more' _ => ?_
    refine (agrees_combine op _ (known'.mono (more.trans more'))).bind fun m₂ v more'' result => ?_
    exact ((agrees_release (by omega)).imp fun _ _ still _ => result.mono still).returns

theorem agrees_call (callee : Symbol) {args : List Node}
    (agreed : ∀ y ∈ args, Agreed addressing y) :
    Agrees low (node addressing used (.call (some callee) args))
      (node addressing used (.call (some callee) args)) Below := by
  rw [node, node]
  refine agrees_mark.bind fun m top _ marked => ?_
  refine (agrees_arguments callee 0 agreed).bind fun m' vs more _ => ?_
  refine (agrees_release (by omega)).bind fun _ _ _ _ => ?_
  cases used with
  | true =>
    refine agrees_fresh.bind fun m₁ n _ inside => ?_
    exact ((agrees_push _).imp fun _ _ more _ => Nat.lt_of_lt_of_le inside more).returns
  | false => exact ((agrees_push _).imp fun _ _ _ _ => trivial).returns

theorem agrees_assignTarget (agreed : Agreed addressing x) :
    Agrees low (assignTarget addressing x) (assignTarget addressing x)
      fun m v => Below m (some v) := by
  cases x with
  | var symbol | addr symbol =>
    rw [assignTarget.eq_def, assignTarget.eq_def]
    cases symbol with
    | none => exact .fault (by simp)
    | some symbol => exact agrees_newCell symbol
  | const c | text symbol | missing =>
    rw [assignTarget, assignTarget]
    exact .fault (by simp)
  | _ =>
    rw [assignTarget, assignTarget]
    · refine ((agreed low).within _).bind fun m v _ known => ?_
      refine ((agrees_inRegister known).within _).bind fun m' n _ inside => ?_
      exact agrees_newDeref inside
    all_goals simp

/-- A push that leaves no value. -/
theorem agrees_last (z : Instr) : Agrees low (do
    push z
    return none) (do
    push z
    return none) Below :=
  ((agrees_push z).imp fun _ _ _ _ => trivial).returns

theorem agrees_node (below : ∀ y, sizeOf y < sizeOf x → Agreed addressing y) :
    Agrees low (node addressing used x) (node addressing used x) Below := by
  cases x with
  | missing =>
    rw [node, node]
    exact .fault (by simp)
  | const c =>
    rw [node, node]
    exact .silent fun s _ _ => ⟨_, s, rfl, rfl, rfl, rfl, trivial⟩
  | text symbol =>
    cases symbol with
    | none =>
      rw [node, node]
      exact .fault (by simp)
    | some symbol =>
      rw [node, node]
      refine agrees_fresh.bind fun m n _ inside => ?_
      refine (agrees_newCell symbol).bind fun m' v more _ => ?_
      exact ((agrees_push _).imp fun _ _ more' _ => by simp only [Below]; omega).returns
  | var symbol =>
    cases symbol with
    | none =>
      rw [node, node]
      exact .fault (by simp)
    | some symbol =>
      rw [node, node]
      refine (agrees_newCell symbol).bind fun m v _ _ => ?_
      exact (agrees_intoFresh _).returns
  | addr symbol =>
    cases symbol with
    | none =>
      rw [node, node]
      exact .fault (by simp)
    | some symbol =>
      rw [node, node]
      exact .silent fun s _ _ => ⟨_, _, rfl, rfl, rfl, rfl, trivial⟩
  | mem x => exact agrees_mem below
  | binary op left right =>
    exact agrees_binary op (below left (by simp +arith)) (below right (by simp +arith))
  | unary op x =>
    rw [node, node]
    exact (below x (by simp) low).bind fun m v _ known => agrees_applyUnary op known
  | call callee args =>
    cases callee with
    | none =>
      rw [node, node]
      exact .fault (by simp)
    | some callee =>
      refine agrees_call callee fun y inside => below y ?_
      have := List.sizeOf_lt_of_mem inside
      simp
      omega
  | assign target source =>
    rw [node, node]
    refine (agrees_assignTarget (below target (by simp +arith))).bind fun m place _ _ => ?_
    refine ((below source (by simp +arith) m).within _).bind fun m' v _ _ => ?_
    exact agrees_last _
  | label name | jump name =>
    rw [node, node]
    exact .silent fun s _ _ => ⟨_, _, rfl, rfl, rfl, rfl, trivial⟩
  | branch condition ifTrue ifFalse =>
    rw [node, node]
    refine ((below condition (by simp +arith) low).within _).bind fun m v _ _ => ?_
    exact agrees_last _
  | ret x =>
    by_cases missing : x = .missing
    · subst missing
      rw [node, node]
      exact .silent fun s _ _ => ⟨_, _, rfl, rfl, rfl, rfl, trivial⟩
    · rw [node, node]
      · refine ((below x (by simp) low).within _).bind fun m v _ _ => ?_
        exact agrees_last _
      all_goals exact missing

theorem agreed_of_below (below : ∀ y, sizeOf y < sizeOf x → Agreed addressing y) :
    Agreed addressing x := by
  intro low
  cases found : selected? addressing false x with
  | some a =>
    obtain ⟨base, index⟩ := selected?_size found
    rw [value_fused found, value_fused found]
    exact agrees_fused found false (below a.base base) (below a.index index)
  | none =>
    rw [value_plain found, value_plain found]
    exact agrees_node below

/-- Nodes of any shape agree, by the recursion that their code is made by. -/
theorem agreed (addressing : Bool) (x : Node) : Agreed addressing x :=
  agreed_of_below fun y _ => agreed addressing y
termination_by sizeOf x

theorem agrees_statements (addressing : Bool) (i : Nat) (body : List Node) :
    Agrees low (statements addressing i body) (statements addressing i body)
      fun _ _ => True := by
  induction body generalizing i low with
  | nil => exact .pure fun _ _ => trivial
  | cons x body ih =>
    refine (agrees_release (Nat.zero_le low)).bind fun m _ _ _ => ?_
    refine ((agrees_node fun y _ => agreed addressing y).within _).bind fun m' _ _ _ => ?_
    exact ih (i + 1)

end Nodes

section Functions

theorem generateFunc_outcome (options : Options) (f : Func) :
    (∃ r, (generateFunc options f : Except Stop _) = .ok r ∧
      (generateFunc options f : Except Fault _) = .ok r) ∨
    ∃ e, (generateFunc options f : Except Stop _) = .error (.fault e) ∧
      generateFunc options f = .error e ∧ ∀ label, e.cause ≠ .emptyBlock label := by
  unfold generateFunc
  split
  · exact .inl ⟨_, rfl, rfl⟩
  · rcases agrees_statements options.addressing 0 f.body {} le_rfl le_rfl with
      ⟨_, t, done, done', _⟩ | ⟨e, stops, fails, cause⟩
    · rw [done, done']
      exact .inl ⟨_, rfl, rfl⟩
    · rw [stops, fails]
      exact .inr ⟨e, rfl, rfl, cause⟩

/-- Checking the selection of a program finds nothing, and its faults are its own. -/
theorem generateFuncs_outcome (options : Options) (fs : List Func) :
    (∃ rs, generateFuncs options fs = .ok rs ∧ Select.generateFuncs options fs = .ok rs) ∨
      ∃ e, generateFuncs options fs = .error (.fault e) ∧
        Select.generateFuncs options fs = .error e ∧ ∀ label, e.cause ≠ .emptyBlock label := by
  induction fs with
  | nil => exact .inl ⟨[], rfl, rfl⟩
  | cons f fs ih =>
    unfold generateFuncs at ih ⊢
    rw [Select.generateFuncs, Select.generateFuncs]
    rcases generateFunc_outcome options f with ⟨r, done, done'⟩ | ⟨e, stops, fails, cause⟩
    · rw [done, done']
      rcases ih with ⟨rs, others, others'⟩ | ⟨e, stops, fails, cause⟩
      · rw [others, others']
        exact .inl ⟨r :: rs, rfl, rfl⟩
      · rw [stops, fails]
        exact .inr ⟨e, rfl, rfl, cause⟩
    · rw [stops, fails]
      exact .inr ⟨e.inside (.func f.name), rfl, rfl, cause⟩

theorem generateFuncs_eq (options : Options) (fs : List Func) :
    generateFuncs options fs = (Select.generateFuncs options fs).mapError .fault := by
  rcases generateFuncs_outcome options fs with ⟨rs, done, done'⟩ | ⟨e, stops, fails, _⟩
  · rw [done, done']
    rfl
  · rw [stops, fails]
    rfl

end Functions

end Checked

end Codegen.Select
