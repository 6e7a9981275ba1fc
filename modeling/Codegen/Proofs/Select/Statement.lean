import Codegen.Proofs.Select.Value

/-! The code of a statement computes what is needed in registers and then does, in one
instruction, what the statement does. -/
namespace Codegen.Select

variable {w : World} {addressing used : Bool} {s t : Selection} {v : Option Value}

inductive Finishes (w : World) (code : List Instr) : Node → Instr → Prop
  | assign {target source : Node} {move : Instr} :
      move.control = .plain → move.stores = true →
      (∀ m, (move.effect w (execute w code m)).storage =
        target.assigned w (source.eval w m.storage) m.storage) →
      Finishes w code (.assign target source) move
  | label (name : Bytes) : Finishes w code (.label name) (.label name)
  | jump (target : Bytes) : Finishes w code (.jump target) (.jump target)
  | branch {condition : Node} {x : Operand} (ifTrue ifFalse : Bytes) :
      (∀ m, (execute w code m).read x = condition.eval w m.storage) →
      Finishes w code (.branch condition ifTrue ifFalse) (.branch x ifTrue ifFalse [])
  | retNothing : Finishes w code (.ret .missing) (.ret .absent)
  | ret {value : Node} {x : Operand} :
      value ≠ .missing → x ≠ .absent →
      (∀ m, (execute w code m).read x = value.eval w m.storage) →
      Finishes w code (.ret value) (.ret x)

inductive Translates (w : World) (x : Node) : List Instr → Prop
  | expression {code : List Instr} :
      x.isValue = true → (∀ y ∈ code, y.quiet = true) → Translates w x code
  | statement {code : List Instr} {last : Instr} :
      (∀ y ∈ code, y.quiet = true) → Finishes w code x last → Translates w x (code ++ [last])

def Adds (w : World) (x : Node) (s t : Selection) : Prop :=
  ∃ code, t.code.toList = s.code.toList ++ code ∧ Translates w x code

theorem Adds.single {x : Node} {last : Instr} (added : t.code = s.code.push last)
    (finishes : Finishes w [] x last) : Adds w x s t :=
  ⟨[] ++ [last], by simp [added], .statement (by simp) finishes⟩

theorem Computes.congr {x : Node} {u : Selection} (computes : Computes w x s t v)
    (code : u.code = t.code) (top : u.top = t.top) : Computes w x s u v := by
  obtain ⟨rises, held, emits⟩ := computes
  exact ⟨top ▸ rises, top ▸ held, emits.congr code⟩

/-- The place of an assignment: a symbol, or an address in a register. -/
def Places (w : World) (target : Node) (s t : Selection) : Value → Prop
  | .cell _ symbol => t.code = s.code ∧ (target = .var (some symbol) ∨ target = .addr (some symbol))
  | .deref _ n => Computes w target s t (some (.temp n)) ∧
      ∀ m value, target.assigned w value m = m.setHeap (target.eval w m) value
  | _ => False

theorem assignTarget_computed {target : Node} {place : Value} (isValue : target.isValue = true)
    (assigned : ∀ m value, target.assigned w value m = m.setHeap (target.eval w m) value)
    (done : (do
      let v ← within .assignTarget (value addressing target)
      let n ← within .assignTarget (inRegister v)
      newDeref n) s = .ok (place, t)) : Places w target s t place := by
  obtain ⟨v, middle, doneTarget, done⟩ := gen_bind_ok done
  obtain ⟨n, last, loaded, done⟩ := gen_bind_ok done
  cases done
  have computes := (sound w addressing target isValue _ _ _ (within_ok doneTarget)).2
  exact ⟨(computes.inRegister (within_ok loaded)).congr rfl rfl, assigned⟩

theorem assignTarget_places {target source : Node} {place : Value}
    (isStatement : (Node.assign target source).isStatement = true)
    (done : assignTarget addressing target s = .ok (place, t)) : Places w target s t place := by
  cases target with
  | var symbol =>
    cases symbol <;> rw [assignTarget] at done <;> cases done
    exact ⟨rfl, .inl rfl⟩
  | addr symbol =>
    cases symbol <;> rw [assignTarget] at done <;> cases done
    exact ⟨rfl, .inr rfl⟩
  | mem _ | binary _ _ _ | unary _ _ =>
    simp only [Node.isStatement, Bool.and_eq_true] at isStatement
    rw [assignTarget] at done
    · exact assignTarget_computed isStatement.1 (fun _ _ => rfl) done
    all_goals simp
  | missing | const _ | text _ =>
    rw [assignTarget] at done
    cases done
  | _ => contradiction

theorem assign_adds {target source : Node}
    (isStatement : (Node.assign target source).isStatement = true)
    (done : node addressing used (.assign target source) s = .ok (v, t)) :
    Adds w (.assign target source) s t := by
  rw [node] at done
  obtain ⟨place, middle, placed, done⟩ := gen_bind_ok done
  obtain ⟨v', last, doneSource, done⟩ := gen_bind_ok done
  cases done
  have isValue : source.isValue = true := by
    cases target <;> simp_all [Node.isStatement]
  have computes := (sound w addressing source isValue _ _ _ (within_ok doneSource)).2
  have places := assignTarget_places (w := w) isStatement placed
  cases place with
  | cell object symbol =>
    obtain ⟨same, named⟩ := places
    obtain ⟨_, _, code, added, quiet, does⟩ := computes
    refine ⟨_, by simp [added, same]; rfl, .statement quiet (.assign rfl rfl fun m => ?_)⟩
    change (execute w code m).storage.setCell symbol ((execute w code m).read (operand v')) = _
    rw [execute_storage w quiet, (does m).2]
    rcases named with rfl | rfl <;> rfl
  | deref object n =>
    obtain ⟨computed, assigned⟩ := places
    obtain ⟨code, added, quiet, does⟩ := computed.pair computes
    refine ⟨_, by simp [added]; rfl, .statement quiet (.assign rfl rfl fun m => ?_)⟩
    obtain ⟨_, atTarget, atSource⟩ := does m
    change (execute w code m).storage.setHeap
      ((execute w code m).read (operand (some (.temp n))) + 0 * Int64.ofInt 1 + 0)
      ((execute w code m).read (operand v')) = _
    rw [assigned, execute_storage w quiet, atTarget, atSource]
    simp
  | _ => exact places.elim

theorem operand_ne_absent (present : v ≠ none) : operand v ≠ .absent := by
  cases v with
  | none => contradiction
  | some value => cases value <;> simp [operand, Value.operand, register, Operand.cell]

/-- A statement that uses a value in its last instruction. -/
theorem last_ok {x : Node} {place : Inside} (last : Operand → Instr) (isValue : x.isValue = true)
    (done : (do
      let v ← within place (value addressing x)
      push (last (operand v))
      return none) s = .ok (v, t)) :
    ∃ code value, t.code.toList = s.code.toList ++ (code ++ [last value]) ∧ value ≠ .absent ∧
      (∀ y ∈ code, y.quiet = true) ∧
      ∀ m, (execute w code m).read value = x.eval w m.storage := by
  obtain ⟨v', middle, doneValue, done⟩ := gen_bind_ok done
  cases done
  obtain ⟨present, _, _, code, added, quiet, does⟩ :=
    sound w addressing x isValue _ _ _ (within_ok doneValue)
  exact ⟨code, operand v', by simp [added], operand_ne_absent present, quiet,
    fun m => (does m).2⟩

theorem node_adds {x : Node} (isStatement : x.isStatement = true)
    (done : node addressing used x s = .ok (v, t)) : Adds w x s t := by
  have expression (isValue : x.isValue = true) : Adds w x s t := by
    obtain ⟨_, _, _, code, added, quiet, _⟩ :=
      node_computes (fun y _ => sound w addressing y) isValue done
    exact ⟨code, added, .expression isValue quiet⟩
  cases x with
  | assign target source => exact assign_adds isStatement done
  | label name =>
    rw [node] at done
    cases done
    exact .single rfl (.label name)
  | jump target =>
    rw [node] at done
    cases done
    exact .single rfl (.jump target)
  | branch condition ifTrue ifFalse =>
    rw [node] at done
    obtain ⟨code, value, added, _, quiet, does⟩ := last_ok (w := w)
      (fun x => .branch x ifTrue ifFalse []) isStatement done
    exact ⟨_, added, .statement quiet (.branch ifTrue ifFalse does)⟩
  | ret value =>
    by_cases missing : value = .missing
    · subst missing
      rw [node] at done
      cases done
      exact .single rfl .retNothing
    · rw [node] at done
      · obtain ⟨code, value, added, present, quiet, does⟩ := last_ok (w := w) .ret isStatement done
        exact ⟨_, added, .statement quiet (.ret missing present does)⟩
      · exact missing
  | _ => exact expression isStatement

end Codegen.Select
