import Codegen.Proofs.Select.Fusion
import Codegen.Proofs.Select.Value

/-! Code is generated exactly for the nodes that are accepted, and with the calls that their
nodes have, whatever was generated before. -/
namespace Codegen.Select

def Selection.sites (s : Selection) : List Site :=
  s.code.toList.filterMap Instr.site?

section Generation

variable {α β : Type} {g : Gen α} {A B : Prop} {c d : List Site} {P Q : α → Prop}

/-- Generation succeeds exactly if `A` holds, and then adds code with the calls `c`. -/
def Generates (g : Gen α) (A : Prop) (c : List Site) (P : α → Prop) : Prop :=
  ∀ s, (A ∧ ∃ a t, g s = .ok (a, t) ∧ t.sites = s.sites ++ c ∧ P a) ∨ (¬ A ∧ ∃ e, g s = .error e)

theorem Generates.of_ok {s t : Selection} {a : α} (generates : Generates g A c P)
    (done : g s = .ok (a, t)) : A ∧ t.sites = s.sites ++ c ∧ P a := by
  rcases generates s with ⟨holds, a', t', done', added, known⟩ | ⟨_, e, error⟩
  · cases done.symm.trans done'
    exact ⟨holds, added, known⟩
  · cases done.symm.trans error

theorem Generates.iff (generates : Generates g A c P) (same : A ↔ B) : Generates g B c P := by
  rwa [propext same] at generates

theorem Generates.calls (generates : Generates g A c P) (same : c = d) : Generates g A d P :=
  same ▸ generates

theorem Generates.imp (generates : Generates g A c P) (implies : ∀ a, P a → Q a) :
    Generates g A c Q := by
  intro s
  rcases generates s with ⟨holds, a, t, done, added, known⟩ | fails
  · exact .inl ⟨holds, a, t, done, added, implies a known⟩
  · exact .inr fails

theorem Generates.bind {f : α → Gen β} {Q : β → Prop} (first : Generates g A c P)
    (second : ∀ a, P a → Generates (f a) B d Q) : Generates (g >>= f) (A ∧ B) (c ++ d) Q := by
  intro s
  rcases first s with ⟨holds, a, t, done, added, known⟩ | ⟨fails, e, error⟩
  · have next : (g >>= f) s = f a t := by
      change (g s >>= fun (a, t) => f a t) = f a t
      rw [done]
      rfl
    rcases second a known t with ⟨holds', b, u, done', added', known'⟩ | ⟨fails', e, error⟩
    · refine .inl ⟨⟨holds, holds'⟩, b, u, next.trans done', ?_, known'⟩
      rw [added', added, List.append_assoc]
    · exact .inr ⟨fun both => fails' both.2, e, next.trans error⟩
  · refine .inr ⟨fun both => fails both.1, e, ?_⟩
    change (g s >>= fun (a, t) => f a t) = .error e
    rw [error]
    rfl

theorem Generates.pure {a : α} (known : P a) : Generates (pure a) True [] P :=
  fun s => .inl ⟨trivial, a, s, rfl, by simp, known⟩

/-- Nothing is left to do but to give a result. -/
theorem Generates.returns {f : α → β} {Q : β → Prop} (generates : Generates g A c P)
    (implies : ∀ a, P a → Q (f a)) : Generates (g >>= fun a => Pure.pure (f a)) A c Q := by
  have whole := generates.bind fun a known => Generates.pure (implies a known)
  simpa using whole

theorem Generates.map {f : α → β} {Q : β → Prop} (generates : Generates g A c P)
    (implies : ∀ a, P a → Q (f a)) : Generates (f <$> g) A c Q :=
  generates.returns implies

theorem Generates.within (generates : Generates g A c P) (place : Inside) :
    Generates (within place g) A c P := by
  intro s
  rcases generates s with ⟨holds, a, t, done, known⟩ | ⟨fails, e, error⟩
  · exact .inl ⟨holds, a, t, by simp [Select.within, done, Except.mapError], known⟩
  · exact .inr ⟨fails, _, by rw [Select.within, error]; rfl⟩

theorem Generates.fault (cause : Cause) : Generates (fault cause : Gen α) False c P :=
  fun _ => .inr ⟨id, _, rfl⟩

/-- The state may change in all but the calls of its code. -/
theorem Generates.silent (done : ∀ s, ∃ a t, g s = .ok (a, t) ∧ t.sites = s.sites ∧ P a) :
    Generates g True [] P := by
  intro s
  obtain ⟨a, t, done, same, known⟩ := done s
  exact .inl ⟨trivial, a, t, done, by rw [same, List.append_nil], known⟩

theorem generates_push {x : Instr} (noCall : x.site? = none) :
    Generates (push x) True [] fun _ => True :=
  .silent fun s => ⟨(), _, rfl, by simp [Selection.sites, noCall], trivial⟩

theorem generates_call (callee : Option Symbol) (args : List Operand) (result : Operand) :
    Generates (push (.call callee args result)) True [⟨callee, args.length, !result.isAbsent⟩]
      fun _ => True :=
  fun s => .inl ⟨trivial, (), _, rfl, by simp [Selection.sites, Instr.site?], trivial⟩

theorem generates_fresh : Generates fresh True [] fun _ => True :=
  .silent fun _ => ⟨_, _, rfl, rfl, trivial⟩

theorem generates_newObject : Generates newObject True [] fun _ => True :=
  .silent fun _ => ⟨_, _, rfl, rfl, trivial⟩

theorem generates_mark : Generates mark True [] fun _ => True :=
  .silent fun _ => ⟨_, _, rfl, rfl, trivial⟩

theorem generates_release (top : Nat) : Generates (release top) True [] fun _ => True :=
  .silent fun _ => ⟨_, _, rfl, rfl, trivial⟩

end Generation

section Operations

def kindOf : Option Value → Kind
  | none => .nothing
  | some (.cell _ _) => .place
  | some _ => .number

theorem generates_newCell (symbol : Symbol) :
    Generates (newCell symbol) True [] fun v => kindOf (some v) = .place :=
  generates_newObject.returns fun _ _ => rfl

theorem generates_newDeref (n : Nat) :
    Generates (newDeref n) True [] fun v => kindOf (some v) = .number :=
  generates_newObject.returns fun _ _ => rfl

theorem generates_intoFresh (x : Operand) : Generates (intoFresh x) True [] fun _ => True :=
  .silent fun s => ⟨_, _, rfl, by simp [Selection.sites, Instr.site?], trivial⟩

variable {v : Option Value} {k : Kind}

theorem generates_inRegister (kind : kindOf v = k) :
    Generates (inRegister v) (k ≠ .nothing) [] fun _ => True := by
  subst kind
  cases v with
  | none => exact (Generates.fault _).iff (by simp [kindOf])
  | some value =>
    cases value with
    | imm c => exact (generates_intoFresh _).iff (by simp [kindOf])
    | temp n => exact (Generates.pure trivial).iff (by simp [kindOf])
    | cell object symbol => exact (generates_intoFresh _).iff (by simp [kindOf])
    | deref object base =>
      exact ((generates_push rfl).returns fun _ _ => trivial).iff (by simp [kindOf])

theorem binaryInstr?_isSome (op : BinaryOp) (target source : Operand) :
    (binaryInstr? op target source).isSome = op.isKnown := by
  cases op <;> rfl

theorem unaryInstr?_isSome (op : UnaryOp) (target : Operand) :
    (unaryInstr? op target).isSome = op.isKnown := by
  cases op <;> rfl

theorem generates_operate (n : Nat) (cause : Cause) {z : Option Instr}
    (noCall : ∀ x, z = some x → x.site? = none) :
    Generates (operate n cause z) (z.isSome = true) [] (kindOf · = .number) := by
  cases z with
  | none => exact (Generates.fault _).iff (by simp)
  | some x =>
    refine Generates.iff (A := True) ?_ (by simp)
    exact (generates_push (noCall x rfl)).returns fun _ _ => rfl

/-- The instruction of an operator goes to a register that holds a number. -/
theorem generates_combine (op : BinaryOp) (right : Operand) (kind : kindOf v = k) :
    Generates (combine op v right) (k = .number ∧ op.isKnown = true) [] (kindOf · = .number) := by
  subst kind
  unfold combine
  split
  next => exact (Generates.fault _).iff (by simp [kindOf])
  next noPlace =>
    have kinds : kindOf v ≠ .nothing ↔ kindOf v = .number := by
      cases v with
      | none => simp [kindOf]
      | some value =>
        cases value with
        | cell object symbol => exact (noPlace object symbol rfl).elim
        | _ => simp [kindOf]
    refine (((generates_inRegister rfl).within _).bind (B := op.isKnown = true) (d := [])
      fun n _ => ?_).iff (and_congr_left' kinds)
    rw [← binaryInstr?_isSome op (register n) right]
    exact generates_operate n _ fun x found => by cases op <;> cases found <;> rfl

theorem generates_applyUnary (op : UnaryOp) (kind : kindOf v = k) :
    Generates (applyUnary op v) (k ≠ .nothing ∧ op.isKnown = true) [] (kindOf · = .number) := by
  unfold applyUnary
  refine ((generates_inRegister kind).within _).bind (d := []) fun n _ => ?_
  rw [← unaryInstr?_isSome op (register n)]
  exact generates_operate n _ fun x found => by cases op <;> cases found <;> rfl

theorem generates_settle (kind : kindOf v = k) : Generates (settle v) True [] (kindOf · = k) := by
  subst kind
  unfold settle
  split
  · exact (generates_intoFresh _).map fun _ _ => rfl
  · exact .pure rfl

theorem generates_indexOperand (v : Option Value) :
    Generates (indexOperand v) True [] fun _ => True := by
  cases v with
  | none => exact .pure trivial
  | some value =>
    refine (((generates_inRegister rfl).within _).map fun _ _ => trivial).iff ?_
    cases value <;> simp [kindOf]

theorem generates_computeAddress (loads : Bool) (scale top : Nat) (offset : Int64)
    (i : Option Value) (kind : kindOf v = k) : Generates (computeAddress loads scale offset top v i)
      (k ≠ .nothing) [] (kindOf · = .number) := by
  unfold computeAddress
  refine (((generates_inRegister kind).within _).bind (B := True) (d := []) fun n _ => ?_).iff
    (by simp)
  refine ((generates_indexOperand i).bind (B := True) (d := []) fun j _ => ?_).iff (by simp)
  refine (generates_newObject.bind (B := True) (d := []) fun object _ => ?_).iff (by simp)
  refine ((generates_push ?_).bind (B := True) (d := []) fun _ _ => ?_).iff (by simp)
  · cases loads <;> rfl
  · split
    · exact (generates_release _).returns fun _ _ => rfl
    · exact .pure rfl

end Operations

section Nodes

variable {addressing used : Bool} {x left right : Node}

def Valued (addressing : Bool) (x : Node) : Prop :=
  Generates (value addressing x) (accepted addressing true x = true) (sites addressing true x)
    (kindOf · = x.kind)

theorem generates_indexValue (valued : Valued addressing x) :
    Generates (indexValue addressing x)
      (x.isMissing = true ∨ accepted addressing true x = true) (sites addressing true x)
      fun _ => True := by
  by_cases missing : x = .missing
  · subst missing
    rw [indexValue, sites_leaf rfl]
    exact (Generates.pure trivial).iff (by simp [Node.isMissing])
  · have present : x.isMissing = false := by
      cases x <;> first | rfl | contradiction
    rw [indexValue]
    · exact (valued.imp fun _ _ => trivial).iff (by simp [present])
    · exact missing

theorem generates_fused {a : Address} (loads : Bool) (base : Valued addressing a.base)
    (index : Valued addressing a.index) : Generates (fused addressing loads a)
      (accepted addressing true a.base = true ∧ a.base.kind ≠ .nothing ∧
        (a.index.isMissing = true ∨ accepted addressing true a.index = true))
      (sites addressing true a.base ++ sites addressing true a.index) (kindOf · = .number) := by
  unfold fused
  refine ((generates_mark.bind fun top _ => (base.within _).bind fun b kind =>
    ((generates_indexValue index).within _).bind fun i _ =>
      generates_computeAddress loads a.scale top a.offset i kind).calls ?_).iff ?_
  · simp
  · rw [true_and]
    exact and_congr_right' and_comm

theorem generates_mem (absent : fusion? addressing used (.mem x) = none)
    (valued : Valued addressing x) : Generates (node addressing used (.mem x))
      ((Node.mem x).fits = true ∧ accepted addressing true x = true) (sites addressing true x)
      (kindOf · = .number) := by
  by_cases place : ∃ symbol, x = .addr symbol
  · obtain ⟨symbol, rfl⟩ := place
    rw [node]
    exact (Generates.fault _).iff (by simp [Node.fits])
  · have computed : ∀ symbol, x ≠ .addr symbol := fun symbol same => place ⟨symbol, same⟩
    have fits : (Node.mem x).fits = true ↔ x.kind ≠ .nothing := by
      cases x <;> simp_all [Node.fits]
    rw [node_mem_plain computed (Option.map_eq_none_iff.mp absent)]
    refine (((valued.within _).bind fun v kind => ((generates_inRegister kind).within _).bind
      fun n _ => (generates_newDeref n).map fun _ known => known).calls (by simp)).iff ?_
    rw [fits, and_true, and_comm]

theorem generates_binary (op : BinaryOp) (used : Bool) (leftValued : Valued addressing left)
    (rightValued : Valued addressing right) :
    Generates (node addressing used (.binary op left right))
      ((Node.binary op left right).fits = true ∧ accepted addressing true left = true ∧
        accepted addressing true right = true)
      (sites addressing true left ++ sites addressing true right) (kindOf · = .number) := by
  simp only [Node.fits, Bool.and_eq_true, beq_iff_eq]
  cases found : immediate op left right with
  | left c =>
    obtain ⟨rfl, _⟩ := immediate_left found
    rw [node, found, Node.accumulator, found, accepted_leaf (x := .const c) rfl,
      sites_leaf (x := .const c) rfl]
    refine .iff (.calls (rightValued.bind fun v kind => generates_combine op _ kind)
      (List.append_nil _)) ?_
    simp only [Node.fits, true_and]
    tauto
  | right c =>
    obtain rfl := immediate_right found
    rw [node, found, Node.accumulator, found, accepted_leaf (x := .const c) rfl,
      sites_leaf (x := .const c) rfl]
    refine .iff (leftValued.bind fun v kind => generates_combine op _ kind) ?_
    simp only [Node.fits, and_true]
    tauto
  | neither =>
    rw [node, Node.accumulator, found]
    refine ((leftValued.bind fun l kind => (generates_settle kind).bind fun l kind =>
      generates_mark.bind fun top _ => rightValued.bind fun r _ =>
      (generates_combine op _ kind).bind fun v kind =>
      (generates_release top).returns fun _ _ => kind).calls (by simp)).iff ?_
    simp only [true_and, and_true]
    tauto

theorem generates_arguments (callee : Symbol) {args : List Node} (i : Nat)
    (valued : ∀ y ∈ args, Valued addressing y) : Generates (arguments addressing callee i args)
      (∀ y ∈ args, accepted addressing true y = true) (args.flatMap (sites addressing true))
      (·.length = args.length) := by
  induction args generalizing i with
  | nil =>
    rw [arguments]
    exact .iff (.pure rfl) (by simp)
  | cons x args ih =>
    obtain ⟨first, others⟩ := List.forall_mem_cons.mp valued
    rw [arguments]
    refine .iff ((first.within _).bind fun v _ => (ih (i + 1) others).returns fun vs length => ?_)
      (by simp)
    rw [List.length_cons, length, List.length_cons]

theorem generates_callNode (callee : Symbol) {args : List Node}
    (valued : ∀ y ∈ args, Valued addressing y) :
    Generates (node addressing used (.call (some callee) args))
      (∀ y ∈ args, accepted addressing true y = true)
      (args.flatMap (sites addressing true) ++ [⟨some callee, args.length, used⟩])
      fun v => used = true → kindOf v = .number := by
  rw [node]
  refine ((generates_mark.bind fun top _ => (generates_arguments callee 0 valued).bind
    fun vs length => (generates_release top).bind (B := True)
      (d := [⟨some callee, args.length, used⟩]) fun _ _ => ?_).calls (by simp)).iff (by simp)
  rw [← length, ← List.length_map (f := operand)]
  cases used with
  | true =>
    exact .iff (generates_fresh.bind fun n _ => (generates_call _ _ _).returns fun _ _ _ => rfl)
      (by simp)
  | false => exact (generates_call _ _ .absent).returns (by simp)

theorem generates_assignTarget (valued : Valued addressing x) :
    Generates (assignTarget addressing x)
      (x.assignable = true ∧ accepted addressing true x = true) (sites addressing true x)
      fun _ => True := by
  have refused {cause : Cause} (not : x.assignable = false) : Generates (fault cause : Gen Value)
      (x.assignable = true ∧ accepted addressing true x = true) (sites addressing true x)
      fun _ => True :=
    .iff (.fault cause) (by simp [not])
  have computed (assignable : x.assignable = (x.kind != .nothing)) : Generates (do
      let v ← within .assignTarget (value addressing x)
      let n ← within .assignTarget (inRegister v)
      newDeref n) (x.assignable = true ∧ accepted addressing true x = true)
      (sites addressing true x) fun _ => True := by
    refine .iff (.calls ((valued.within _).bind fun v kind =>
      ((generates_inRegister kind).within _).bind fun n _ =>
        (generates_newDeref n).imp fun _ _ => trivial) (by simp)) ?_
    rw [assignable, bne_iff_ne, and_true, and_comm]
  cases x with
  | var symbol | addr symbol =>
    rw [accepted_leaf rfl, sites_leaf rfl]
    cases symbol with
    | none =>
      rw [assignTarget]
      exact .iff (.fault _) (by simp [Node.fits])
    | some symbol =>
      rw [assignTarget]
      exact .iff ((generates_newCell symbol).imp fun _ _ => trivial)
        (by simp [Node.fits, Node.assignable])
  | const c | text symbol | missing =>
    rw [assignTarget]
    exact refused rfl
  | _ =>
    rw [assignTarget]
    · exact computed rfl
    all_goals simp

/-- A node without parts has all that it needs, or fails. -/
theorem generates_leaf {g : Gen (Option Value)} {P : Option Value → Prop}
    (alone : x.children = []) (generates : Generates g (x.fits = true) (x.site used) P) :
    Generates g (x.fits = true ∧ ∀ y ∈ x.children, accepted addressing true y = true)
      (x.children.flatMap (sites addressing true) ++ x.site used) P := by
  rw [alone]
  exact generates.iff (by simp)

/-- The plain way to generate code for a node is to do so for its parts first. -/
theorem generates_node (absent : fusion? addressing used x = none)
    (below : ∀ y ∈ x.children, Valued addressing y) : Generates (node addressing used x)
      (x.fits = true ∧ ∀ y ∈ x.children, accepted addressing true y = true)
      (x.children.flatMap (sites addressing true) ++ x.site used)
      fun v => used = true → kindOf v = x.kind := by
  cases x with
  | missing =>
    rw [node]
    exact .iff (.fault _) (by simp [Node.fits])
  | const c =>
    rw [node]
    exact generates_leaf rfl (.iff (.pure fun _ => rfl) (by simp [Node.fits]))
  | text symbol =>
    cases symbol <;> rw [node]
    · exact .iff (.fault _) (by simp [Node.fits])
    · exact generates_leaf rfl (.iff (generates_fresh.bind fun n _ =>
        (generates_newCell _).bind fun v _ => (generates_push rfl).returns fun _ _ _ => rfl)
        (by simp [Node.fits]))
  | var symbol =>
    cases symbol <;> rw [node]
    · exact .iff (.fault _) (by simp [Node.fits])
    · exact generates_leaf rfl (.iff ((generates_newCell _).bind fun v _ =>
        (generates_intoFresh _).returns fun _ _ _ => rfl) (by simp [Node.fits]))
  | addr symbol =>
    cases symbol <;> rw [node]
    · exact .iff (.fault _) (by simp [Node.fits])
    · exact generates_leaf rfl (.iff ((generates_newCell _).map fun _ kind _ => kind)
        (by simp [Node.fits]))
  | mem x =>
    have memory := generates_mem absent (below x (by simp [Node.children]))
    exact .iff (.calls (memory.imp fun _ kind _ => kind) (by simp [Node.children, Node.site]))
      (by simp [Node.children])
  | binary op left right =>
    have operation := generates_binary op used
      (below left (by simp [Node.children])) (below right (by simp [Node.children]))
    exact .iff (.calls (operation.imp fun _ kind _ => kind) (by simp [Node.children, Node.site]))
      (by simp [Node.children])
  | unary op x =>
    rw [node]
    refine .iff (.calls ((below x (by simp [Node.children])).bind fun v kind =>
      (generates_applyUnary op kind).imp fun _ kind _ => kind)
      (by simp [Node.children, Node.site])) ?_
    simp only [Node.fits, Node.children, List.forall_mem_singleton, Bool.and_eq_true, bne_iff_ne]
    tauto
  | call callee args =>
    cases callee with
    | none =>
      rw [node]
      exact .iff (.fault _) (by simp [Node.fits])
    | some callee =>
      exact .iff (generates_callNode callee below) (by simp [Node.fits, Node.children])
  | assign target source =>
    rw [node]
    refine .iff (.calls ((generates_assignTarget (below target (by simp [Node.children]))).bind
      fun place _ => ((below source (by simp [Node.children])).within _).bind fun v _ =>
        (generates_push rfl).returns fun _ _ _ => rfl) (by simp [Node.children, Node.site])) ?_
    simp only [Node.fits, Node.children, List.forall_mem_cons, and_true]
    tauto
  | label name | jump name =>
    rw [node]
    exact generates_leaf rfl (.iff ((generates_push rfl).returns fun _ _ _ => rfl)
      (by simp [Node.fits]))
  | branch condition ifTrue ifFalse =>
    rw [node]
    exact .iff (.calls (((below condition (by simp [Node.children])).within _).bind fun v _ =>
      (generates_push rfl).returns fun _ _ _ => rfl) (by simp [Node.children, Node.site]))
      (by simp [Node.fits, Node.children])
  | ret x =>
    by_cases missing : x = .missing
    · subst missing
      rw [node]
      exact generates_leaf rfl (.iff ((generates_push rfl).returns fun _ _ _ => rfl)
        (by simp [Node.fits]))
    · rw [Node.children_ret missing] at below ⊢
      rw [node]
      · exact .iff (.calls (((below x (by simp)).within _).bind fun v _ =>
          (generates_push rfl).returns fun _ _ _ => rfl) (by simp [Node.site]))
          (by simp [Node.fits])
      · exact missing

def lowered (addressing used : Bool) (x : Node) : Gen (Option Value) :=
  if used then value addressing x else node addressing false x

theorem lowered_fused {y : Node} {a : Address} (found : fusion? addressing used x = some (y, a)) :
    x.kind = .number ∧ ∃ loads, lowered addressing used x = fused addressing loads a := by
  rcases fusion?_some found with ⟨rfl, selected⟩ | ⟨rfl, rfl, selected⟩
  · refine ⟨rfl, true, ?_⟩
    cases used with
    | true => exact (value_plain (by cases addressing <;> rfl)).trans (node_mem_fused selected)
    | false => exact node_mem_fused selected
  · refine ⟨?_, false, value_fused selected⟩
    rcases selected?_summed selected with ⟨_ | _ | _⟩ | _ | _ <;> rfl

theorem lowered_plain (absent : fusion? addressing used x = none) :
    lowered addressing used x = node addressing used x := by
  cases used with
  | false => rfl
  | true =>
    apply value_plain
    cases x with
    | mem x => cases addressing <;> rfl
    | _ => exact Option.map_eq_none_iff.mp absent

/-- Code can be generated exactly for the nodes that are accepted, after whatever other code. -/
theorem generates_lowered (addressing used : Bool) (x : Node) :
    Generates (lowered addressing used x) (accepted addressing used x = true)
      (sites addressing used x) fun v => used = true → kindOf v = x.kind := by
  induction used, x using fusion_induction addressing with
  | fused used x y a found base index =>
    obtain ⟨kind, loads, same⟩ := lowered_fused found
    rw [same, sites_fused found]
    have whole := generates_fused loads (base.imp fun _ kind => kind rfl)
      (index.imp fun _ kind => kind rfl)
    exact .iff (whole.imp fun _ number _ => number.trans kind.symm) (accepted_fused found).symm
  | plain used x absent below =>
    rw [lowered_plain absent, sites_plain absent]
    have whole := generates_node absent fun y child => (below y child).imp fun _ kind => kind rfl
    exact .iff whole (accepted_plain absent).symm

theorem generates_statements (addressing : Bool) (i : Nat) (body : List Node) :
    Generates (statements addressing i body) (∀ x ∈ body, accepted addressing false x = true)
      (body.flatMap (sites addressing false)) fun _ => True := by
  induction body generalizing i with
  | nil => exact .iff (.pure trivial) (by simp)
  | cons x body ih =>
    exact .iff ((generates_release 0).bind fun _ _ =>
      ((generates_lowered addressing false x).within _).bind fun _ _ => ih (i + 1)) (by simp)

end Nodes

end Codegen.Select
