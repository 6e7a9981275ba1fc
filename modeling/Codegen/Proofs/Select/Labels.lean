import Codegen.Proofs.Select.Generates

/-! Selected code has no labels but those of the body: every instruction that has one stands for a
label, a jump or a branch that the body has, at any depth. -/
namespace Codegen

/-- The labels in an instruction, the mark of a branch included. -/
def Instr.names : Instr → List Bytes
  | label name => [name]
  | jump target => [target]
  | branch _ ifTrue ifFalse next => [ifTrue, ifFalse, next]
  | _ => []

namespace Node

mutual

def labels : Node → List Bytes
  | .mem x | .unary _ x | .ret x => x.labels
  | .binary _ left right | .assign left right => left.labels ++ right.labels
  | .call _ args => labelsOf args
  | .label name => [name]
  | .jump target => [target]
  | .branch condition ifTrue ifFalse => condition.labels ++ [ifTrue, ifFalse]
  | _ => []

def labelsOf : List Node → List Bytes
  | [] => []
  | x :: xs => x.labels ++ labelsOf xs

end

theorem labels_subset_labelsOf {y : Node} {xs : List Node} (member : y ∈ xs) :
    y.labels ⊆ labelsOf xs := by
  induction xs with
  | nil => contradiction
  | cons x xs ih =>
    rw [labelsOf]
    rcases List.mem_cons.mp member with rfl | later
    · exact List.subset_append_left _ _
    · exact List.subset_append_of_subset_right _ (ih later)

theorem labels_child {x y : Node} (child : y ∈ x.children) : y.labels ⊆ x.labels := by
  cases x with
  | call callee args =>
    rw [labels]
    exact labels_subset_labelsOf child
  | ret x =>
    cases x <;> simp_all [children, labels]
  | binary op left right | assign left right =>
    rcases List.mem_pair.mp child with rfl | rfl <;> simp [labels]
  | mem x | unary op x | branch x ifTrue ifFalse =>
    obtain rfl := List.mem_singleton.mp child
    simp [labels]
  | _ => contradiction

end Node

namespace Select

variable {α β : Type} {g : Gen α} {allowed : Bytes → Prop}

/-- The labels in the code are all allowed, and no branch is marked. -/
def Selection.Allows (s : Selection) (allowed : Bytes → Prop) : Prop :=
  ∀ x ∈ s.code, x.unmarked = x ∧ ∀ name ∈ x.names, allowed name

def Names (allowed : Bytes → Prop) (g : Gen α) : Prop :=
  ∀ s a t, g s = .ok (a, t) → s.Allows allowed → t.Allows allowed

theorem Names.bind {f : α → Gen β} (first : Names allowed g)
    (second : ∀ a, Names allowed (f a)) : Names allowed (g >>= f) := by
  intro s b u done before
  obtain ⟨a, t, doneFirst, doneSecond⟩ := gen_bind_ok done
  exact second a t b u doneSecond (first s a t doneFirst before)

theorem Names.pure (a : α) : Names allowed (pure a) := by
  intro s a' t done before
  cases done
  exact before

theorem Names.returns {f : α → β} (names : Names allowed g) :
    Names allowed (g >>= fun a => Pure.pure (f a)) :=
  names.bind fun _ => .pure _

theorem Names.within (names : Names allowed g) (place : Inside) :
    Names allowed (within place g) :=
  fun s a t done => names s a t (within_ok done)

theorem Names.fault (cause : Cause) : Names allowed (fault cause : Gen α) := by
  intro s a t done
  cases done

theorem Names.silent (same : ∀ s a t, g s = .ok (a, t) → t.code = s.code) : Names allowed g := by
  intro s a t done before
  rwa [Selection.Allows, same s a t done]

theorem names_push {x : Instr} (unmarked : x.unmarked = x)
    (known : ∀ name ∈ x.names, allowed name) : Names allowed (push x) := by
  intro s a t done before
  cases done
  intro y member
  rcases Array.mem_push.mp member with old | rfl
  · exact before y old
  · exact ⟨unmarked, known⟩

theorem names_fresh : Names allowed fresh :=
  .silent fun _ _ _ done => by cases done; rfl

theorem names_newObject : Names allowed newObject :=
  .silent fun _ _ _ done => by cases done; rfl

theorem names_mark : Names allowed mark :=
  .silent fun _ _ _ done => by cases done; rfl

theorem names_release (top : Nat) : Names allowed (release top) :=
  .silent fun _ _ _ done => by cases done; rfl

theorem names_newCell (symbol : Symbol) : Names allowed (newCell symbol) :=
  names_newObject.returns

theorem names_newDeref (n : Nat) : Names allowed (newDeref n) :=
  names_newObject.returns

/-- An instruction without labels. -/
theorem names_plain {x : Instr} (none : x.names = []) : Names allowed (push x) := by
  have unmarked : x.unmarked = x := by
    cases x <;> first | rfl | contradiction
  exact names_push unmarked (by simp [none])

theorem names_intoFresh (x : Operand) : Names allowed (intoFresh x) :=
  names_fresh.bind fun _ => (names_plain rfl).returns

theorem names_inRegister (v : Option Value) : Names allowed (inRegister v) := by
  cases v with
  | none => exact .fault _
  | some value =>
    cases value with
    | temp n => exact .pure n
    | imm c => exact names_intoFresh _
    | cell object symbol => exact names_intoFresh _
    | deref object base => exact (names_plain rfl).returns

theorem names_operate (n : Nat) (cause : Cause) {z : Option Instr}
    (plain : ∀ x, z = some x → x.names = []) : Names allowed (operate n cause z) := by
  cases z with
  | none => exact .fault _
  | some x => exact (names_plain (plain x rfl)).returns

theorem names_combine (op : BinaryOp) (v : Option Value) (right : Operand) :
    Names allowed (combine op v right) := by
  unfold combine
  split
  next => exact .fault _
  next =>
    refine ((names_inRegister v).within _).bind fun n => ?_
    exact names_operate n _ fun x found => by cases op <;> cases found <;> rfl

theorem names_applyUnary (op : UnaryOp) (v : Option Value) :
    Names allowed (applyUnary op v) := by
  unfold applyUnary
  refine ((names_inRegister v).within _).bind fun n => ?_
  exact names_operate n _ fun x found => by cases op <;> cases found <;> rfl

theorem names_settle (v : Option Value) : Names allowed (settle v) := by
  unfold settle
  split
  · exact (names_intoFresh _).returns
  · exact .pure _

theorem names_indexOperand (v : Option Value) : Names allowed (indexOperand v) := by
  cases v with
  | none => exact .pure _
  | some v => exact ((names_inRegister (some v)).within _).returns

theorem names_computeAddress (loads : Bool) (scale top : Nat) (offset : Int64)
    (v i : Option Value) : Names allowed (computeAddress loads scale offset top v i) := by
  unfold computeAddress
  refine ((names_inRegister v).within _).bind fun n => ?_
  refine (names_indexOperand i).bind fun j => ?_
  refine names_newObject.bind fun object => ?_
  refine Names.bind (names_plain ?_) fun _ => ?_
  · cases loads <;> rfl
  · split
    · exact (names_release _).returns
    · exact .pure _

section Nodes

variable {addressing used : Bool} {x left right : Node}

theorem names_indexValue (names : Names allowed (value addressing x)) :
    Names allowed (indexValue addressing x) := by
  by_cases missing : x = .missing
  · subst missing
    rw [indexValue]
    exact .pure _
  · rw [indexValue]
    · exact names
    · exact missing

theorem names_fused {a : Address} (loads : Bool) (base : Names allowed (value addressing a.base))
    (index : Names allowed (value addressing a.index)) :
    Names allowed (fused addressing loads a) := by
  unfold fused
  refine names_mark.bind fun top => ?_
  refine (base.within _).bind fun b => ?_
  refine ((names_indexValue index).within _).bind fun i => ?_
  exact names_computeAddress loads a.scale top a.offset b i

theorem names_mem (absent : fusion? addressing used (.mem x) = none)
    (names : Names allowed (value addressing x)) :
    Names allowed (node addressing used (.mem x)) := by
  by_cases place : ∃ symbol, x = .addr symbol
  · obtain ⟨symbol, rfl⟩ := place
    rw [node]
    exact .fault _
  · have computed : ∀ symbol, x ≠ .addr symbol := fun symbol same => place ⟨symbol, same⟩
    rw [node_mem_plain computed (Option.map_eq_none_iff.mp absent)]
    refine (names.within _).bind fun v => ?_
    refine ((names_inRegister v).within _).bind fun n => ?_
    exact (names_newDeref n).returns

theorem names_binary (op : BinaryOp) (used : Bool)
    (leftNames : Names allowed (value addressing left))
    (rightNames : Names allowed (value addressing right)) :
    Names allowed (node addressing used (.binary op left right)) := by
  cases found : immediate op left right with
  | left c =>
    rw [node, found]
    exact rightNames.bind fun v => names_combine op v _
  | right c =>
    rw [node, found]
    exact leftNames.bind fun v => names_combine op v _
  | neither =>
    rw [node, found]
    refine leftNames.bind fun l => ?_
    refine (names_settle l).bind fun l => ?_
    refine names_mark.bind fun top => ?_
    refine rightNames.bind fun r => ?_
    refine (names_combine op l _).bind fun v => ?_
    exact (names_release top).returns

theorem names_arguments (callee : Symbol) {args : List Node} (i : Nat)
    (names : ∀ y ∈ args, Names allowed (value addressing y)) :
    Names allowed (arguments addressing callee i args) := by
  induction args generalizing i with
  | nil =>
    rw [arguments]
    exact .pure _
  | cons x args ih =>
    obtain ⟨first, others⟩ := List.forall_mem_cons.mp names
    rw [arguments]
    exact (first.within _).bind fun v => (ih (i + 1) others).returns

theorem names_assignTarget (names : Names allowed (value addressing x)) :
    Names allowed (assignTarget addressing x) := by
  cases x with
  | var symbol | addr symbol =>
    cases symbol <;> rw [assignTarget]
    · exact .fault _
    · exact names_newCell _
  | const c | text symbol | missing =>
    rw [assignTarget]
    exact .fault _
  | _ =>
    rw [assignTarget]
    · refine (names.within _).bind fun v => ?_
      refine ((names_inRegister v).within _).bind fun n => ?_
      exact names_newDeref n
    all_goals simp

/-- The code of a node has its own labels and those of its parts. -/
theorem names_node (absent : fusion? addressing used x = none) (unmarked : allowed [])
    (own : ∀ name ∈ x.labels, allowed name)
    (below : ∀ y ∈ x.children, Names allowed (value addressing y)) :
    Names allowed (node addressing used x) := by
  cases x with
  | missing =>
    rw [node]
    exact .fault _
  | const c =>
    rw [node]
    exact .pure _
  | text symbol =>
    cases symbol <;> rw [node]
    · exact .fault _
    · exact names_fresh.bind fun n => (names_newCell _).bind fun v => (names_plain rfl).returns
  | var symbol =>
    cases symbol <;> rw [node]
    · exact .fault _
    · exact (names_newCell _).bind fun v => (names_intoFresh _).returns
  | addr symbol =>
    cases symbol <;> rw [node]
    · exact .fault _
    · exact (names_newCell _).returns
  | mem x => exact names_mem absent (below x (by simp [Node.children]))
  | binary op left right =>
    exact names_binary op used (below left (by simp [Node.children]))
      (below right (by simp [Node.children]))
  | unary op x =>
    rw [node]
    exact (below x (by simp [Node.children])).bind fun v => names_applyUnary op v
  | call callee args =>
    cases callee with
    | none =>
      rw [node]
      exact .fault _
    | some callee =>
      rw [node]
      refine names_mark.bind fun top => ?_
      refine (names_arguments callee 0 below).bind fun vs => ?_
      refine (names_release top).bind fun _ => ?_
      cases used with
      | true => exact names_fresh.bind fun n => (names_plain rfl).returns
      | false => exact (names_plain rfl).returns
  | assign target source =>
    rw [node]
    refine (names_assignTarget (below target (by simp [Node.children]))).bind fun place => ?_
    refine ((below source (by simp [Node.children])).within _).bind fun v => ?_
    exact (names_plain rfl).returns
  | label name | jump name =>
    rw [node]
    exact (names_push rfl (by simpa [Instr.names, Node.labels] using own)).returns
  | branch condition ifTrue ifFalse =>
    rw [node]
    refine ((below condition (by simp [Node.children])).within _).bind fun v => ?_
    refine (names_push rfl ?_).returns
    simp only [Node.labels, List.mem_append, List.mem_cons] at own
    simp only [Instr.names, List.forall_mem_cons]
    exact ⟨own ifTrue (by simp), own ifFalse (by simp), unmarked, by simp⟩
  | ret x =>
    by_cases missing : x = .missing
    · subst missing
      rw [node]
      exact (names_plain rfl).returns
    · rw [Node.children_ret missing] at below
      rw [node]
      · refine ((below x (by simp)).within _).bind fun v => ?_
        exact (names_plain rfl).returns
      · exact missing

theorem labels_of_summed {base index : Node} (summed : Summed base index x) :
    base.labels ⊆ x.labels ∧ index.labels ⊆ x.labels := by
  rcases summed.split (g := Node.labels) (by simp [Node.labels]) (by simp [Node.labels]) with
    same | same
  · simp [same]
  · simp [same]

theorem labels_of_fusion {y : Node} {a : Address}
    (found : fusion? addressing used x = some (y, a)) :
    a.base.labels ⊆ x.labels ∧ a.index.labels ⊆ x.labels := by
  rcases fusion?_some found with ⟨rfl, selected⟩ | ⟨rfl, _, selected⟩
  · rw [Node.labels]
    exact labels_of_summed (selected?_summed selected)
  · exact labels_of_summed (selected?_summed selected)

theorem names_lowered (addressing used : Bool) (x : Node) (unmarked : allowed [])
    (own : ∀ name ∈ x.labels, allowed name) : Names allowed (lowered addressing used x) := by
  induction used, x using fusion_induction addressing with
  | fused used x y a found base index =>
    obtain ⟨_, loads, same⟩ := lowered_fused found
    obtain ⟨ofBase, ofIndex⟩ := labels_of_fusion found
    rw [same]
    exact names_fused loads (base fun name inside => own name (ofBase inside))
      (index fun name inside => own name (ofIndex inside))
  | plain used x absent below =>
    rw [lowered_plain absent]
    refine names_node absent unmarked own fun y child => below y child fun name inside => ?_
    exact own name (Node.labels_child child inside)

theorem names_statements (addressing : Bool) (i : Nat) {body : List Node} (unmarked : allowed [])
    (own : ∀ x ∈ body, ∀ name ∈ x.labels, allowed name) :
    Names allowed (statements addressing i body) := by
  induction body generalizing i with
  | nil => exact .pure _
  | cons x body ih =>
    obtain ⟨first, others⟩ := List.forall_mem_cons.mp own
    refine (names_release 0).bind fun _ => ?_
    refine ((names_lowered addressing false x unmarked first).within _).bind fun _ => ?_
    exact ih (i + 1) others

/-- Selected code has no marks, and its labels are those of the body. -/
theorem generateFunc_allows {options : Options} {f : Func} {r : Routine}
    (generated : generateFunc options f = .ok r) : ∀ e ∈ r.entries, e.instr.unmarked = e.instr ∧
      ∀ name ∈ e.instr.names, name = [] ∨ ∃ x ∈ f.body, name ∈ x.labels := by
  intro e member
  rcases generateFunc_ok generated with ⟨_, _, rfl⟩ | ⟨s, done, rfl⟩
  · simp [routine] at member
  · obtain ⟨x, pushed, rfl⟩ := Array.mem_map.mp member
    have names : Names (fun name => name = [] ∨ ∃ x ∈ f.body, name ∈ x.labels)
        (statements options.addressing 0 f.body) :=
      names_statements options.addressing 0 (.inl rfl)
        fun x member name inside => .inr ⟨x, member, inside⟩
    exact names _ _ _ done (by simp [Selection.Allows]) x pushed

/-- All labels in selected code are those of the body. -/
theorem generateFunc_names {options : Options} {f : Func} {r : Routine}
    (generated : generateFunc options f = .ok r) :
    ∀ e ∈ r.entries, ∀ name ∈ e.instr.names, name = [] ∨ ∃ x ∈ f.body, name ∈ x.labels :=
  fun e member => (generateFunc_allows generated e member).2

theorem generateFunc_unmarked {options : Options} {f : Func} {r : Routine}
    (generated : generateFunc options f = .ok r) : ∀ e ∈ r.entries, e.instr.unmarked = e.instr :=
  fun e member => (generateFunc_allows generated e member).1

end Nodes

end Select

end Codegen
