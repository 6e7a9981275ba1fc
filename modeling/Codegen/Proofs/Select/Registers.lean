import Codegen.Proofs.Select.Address
import Codegen.Proofs.Select.Gen

/-! Code that writes registers only. A value is computed in registers that were free, so that
those computed before stay where they are. -/
namespace Codegen

namespace Instr

def quiet : Instr → Bool
  | move (.temp _) _ | arith _ (.temp _) _ | cmp _ (.temp _) _ | lea (.temp _) _
  | neg (.temp _) | not (.temp _) => true
  | _ => false

theorem control_of_quiet {x : Instr} (quiet : x.quiet = true) : x.control = .plain := by
  unfold Instr.quiet at quiet
  split at quiet <;> simp_all [control]

theorem stores_of_quiet {x : Instr} (quiet : x.quiet = true) : x.stores = false := by
  unfold Instr.quiet at quiet
  split at quiet <;> simp_all [stores, operands]

theorem storage_of_quiet {x : Instr} (quiet : x.quiet = true) (w : World) (s : Machine) :
    (x.effect w s).storage = s.storage := by
  unfold Instr.quiet at quiet
  split at quiet <;> simp_all [effect, Machine.write, Machine.setRegister]

end Instr

def execute (w : World) (code : List Instr) (s : Machine) : Machine :=
  code.foldl (fun s x => x.effect w s) s

@[simp] theorem execute_nil (w : World) (s : Machine) : execute w [] s = s := rfl

@[simp] theorem execute_append (w : World) (first second : List Instr) (s : Machine) :
    execute w (first ++ second) s = execute w second (execute w first s) :=
  List.foldl_append

theorem execute_storage (w : World) {code : List Instr} (quiet : ∀ x ∈ code, x.quiet = true)
    (s : Machine) : (execute w code s).storage = s.storage := by
  induction code generalizing s with
  | nil => rfl
  | cons x code ih =>
    obtain ⟨first, others⟩ := List.forall_mem_cons.mp quiet
    exact (ih others _).trans (Instr.storage_of_quiet first w s)

namespace Select

variable {w : World} {s t u : Selection} {P Q : Machine → Machine → Prop}

/-- Instructions are added that write registers only, and what they do is known. -/
def Emits (w : World) (s t : Selection) (P : Machine → Machine → Prop) : Prop :=
  ∃ code, t.code.toList = s.code.toList ++ code ∧ (∀ x ∈ code, x.quiet = true) ∧
    ∀ m, P m (execute w code m)

theorem Emits.none (same : t.code = s.code) (holds : ∀ m, P m m) : Emits w s t P :=
  ⟨[], by simp [same], by simp, holds⟩

theorem Emits.push {x : Instr} (added : t.code = s.code.push x) (quiet : x.quiet = true)
    (holds : ∀ m, P m (x.effect w m)) : Emits w s t P :=
  ⟨[x], by simp [added], by simpa using quiet, holds⟩

theorem Emits.weaken (emits : Emits w s t P) (implies : ∀ m m', P m m' → Q m m') :
    Emits w s t Q := by
  obtain ⟨code, added, quiet, holds⟩ := emits
  exact ⟨code, added, quiet, fun m => implies m _ (holds m)⟩

theorem Emits.with_storage (emits : Emits w s t P) :
    Emits w s t fun m m' => m'.storage = m.storage ∧ P m m' := by
  obtain ⟨code, added, quiet, holds⟩ := emits
  exact ⟨code, added, quiet, fun m => ⟨execute_storage w quiet m, holds m⟩⟩

/-- Nothing but code counts. -/
theorem Emits.congr (emits : Emits w s t P) (same : u.code = t.code) : Emits w s u P := by
  obtain ⟨code, added, known⟩ := emits
  exact ⟨code, by rw [same, added], known⟩

theorem Emits.trans {R : Machine → Machine → Prop} (first : Emits w s t P)
    (second : Emits w t u Q) (combine : ∀ m₁ m₂ m₃, m₂.storage = m₁.storage →
      m₃.storage = m₂.storage → P m₁ m₂ → Q m₂ m₃ → R m₁ m₃) : Emits w s u R := by
  obtain ⟨code, added, quiet, holds⟩ := first
  obtain ⟨code', added', quiet', holds'⟩ := second
  refine ⟨code ++ code', by rw [added', added, List.append_assoc], ?_, fun m => ?_⟩
  · exact fun x inside => (List.mem_append.mp inside).elim (quiet x) (quiet' x)
  · rw [execute_append]
    exact combine m _ _ (execute_storage w quiet m) (execute_storage w quiet' _) (holds m) (holds' _)

/-- A value that stands in none but the registers from `low` up to `high`. -/
def Held (low high : Nat) : Option Value → Prop
  | none | some (.imm _) => True
  | some (.temp n) | some (.deref _ n) => low ≤ n ∧ n < high
  | some (.cell _ _) => False

/-- Code leaves the value of an expression in registers that were free, and keeps the others. -/
structure Computes (w : World) (x : Node) (s t : Selection) (v : Option Value) : Prop where
  rises : s.top ≤ t.top
  held : Held s.top t.top v
  emits : Emits w s t fun m m' => (∀ k < s.top, m'.registers k = m.registers k) ∧
    m'.read (operand v) = x.eval w m.storage

section Operands

variable {low high n : Nat} {v : Option Value}

/-- A value stays as it is while its registers and storage do. -/
theorem Held.read_eq (held : Held low high v) {m m' : Machine}
    (registers : ∀ k, low ≤ k → k < high → m'.registers k = m.registers k)
    (storage : m'.storage = m.storage) : m'.read (operand v) = m.read (operand v) := by
  cases v with
  | none => rfl
  | some value =>
    cases value with
    | imm c => rfl
    | temp n => exact registers n held.1 held.2
    | cell object symbol => exact held.elim
    | deref object n =>
      have same : m'.registers n = m.registers n := registers n held.1 held.2
      simp [operand, Value.operand, register, Machine.read, Temp.numbered, same, storage]

def Sets (n : Nat) (value : Machine → Int64) (m m' : Machine) : Prop :=
  m'.registers n = value m ∧ ∀ k, k ≠ n → m'.registers k = m.registers k

theorem sets_write (w : World) (n : Nat) (value : Machine → Int64) (m : Machine) :
    Sets n value m (m.write w (register n) (value m)) := by
  constructor
  · simp [register, Machine.write, Machine.setRegister, Temp.numbered]
  · intro k other
    simp [register, Machine.write, Machine.setRegister, Temp.numbered, other]

/-- An instruction with a register as its target. -/
theorem Emits.sets {x : Instr} {value : Machine → Int64}
    (added : t.code = s.code.push x) (quiet : x.quiet = true)
    (does : ∀ m, x.effect w m = m.write w (register n) (value m)) : Emits w s t (Sets n value) :=
  .push added quiet fun m => does m ▸ sets_write w n value m

/-- A register gets a value that is computed from what it got before. -/
theorem Emits.sets_again {first second value : Machine → Int64}
    (before : Emits w s t (Sets n first)) (after : Emits w t u (Sets n second))
    (same : ∀ m m', m'.storage = m.storage → Sets n first m m' → second m' = value m) :
    Emits w s u (Sets n value) := by
  refine before.trans after fun m₁ m₂ m₃ storage _ got gotAgain => ⟨?_, fun k other => ?_⟩
  · rw [gotAgain.1, same m₁ m₂ storage got]
  · rw [gotAgain.2 k other, got.2 k other]

/-- The register that a value is brought to: its own, or the next one for a number. -/
def Lands (low high : Nat) (v : Option Value) (s t : Selection) (n : Nat) : Prop :=
  (low ≤ n ∧ n < high ∧ t.top = s.top) ∨
    (n = s.top ∧ t.top = s.top + 1 ∧ ∃ c, v = some (.imm c))

theorem inRegister_spec (held : Held low high v) (done : inRegister v s = .ok (n, t)) :
    Lands low high v s t n ∧ Emits w s t (Sets n fun m => m.read (operand v)) := by
  cases v with
  | none => contradiction
  | some value =>
    cases value with
    | imm c =>
      cases done
      exact ⟨.inr ⟨rfl, rfl, c, rfl⟩, .sets rfl rfl fun _ => rfl⟩
    | temp n =>
      cases done
      exact ⟨.inl ⟨held.1, held.2, rfl⟩, .none rfl fun m => ⟨rfl, fun _ _ => rfl⟩⟩
    | cell object symbol => exact held.elim
    | deref object base =>
      cases done
      exact ⟨.inl ⟨held.1, held.2, rfl⟩, .sets rfl rfl fun _ => rfl⟩

def Steady (n : Nat) (x : Operand) : Prop :=
  ∀ m m' : Machine, (∀ k, k ≠ n → m'.registers k = m.registers k) → m'.storage = m.storage →
    m'.read x = m.read x

theorem steady_imm (n : Nat) (c : Int64) : Steady n (.imm c) :=
  fun _ _ _ _ => rfl

theorem Held.steady (held : Held low high v) (apart : n < low ∨ high ≤ n) :
    Steady n (operand v) := by
  intro m m' registers storage
  exact held.read_eq (fun k above below => registers k (by omega)) storage

theorem binaryInstr?_effect {op : BinaryOp} {right : Operand} {x : Instr}
    (found : binaryInstr? op (register n) right = some x) :
    x.quiet = true ∧ ∀ w m, x.effect w m =
      m.write w (register n) (w.binary op (m.registers n) (m.read right)) := by
  cases op <;> cases found <;> exact ⟨rfl, fun _ _ => rfl⟩

theorem unaryInstr?_effect {op : UnaryOp} {x : Instr}
    (found : unaryInstr? op (register n) = some x) :
    x.quiet = true ∧ ∀ w m, x.effect w m = m.write w (register n) (w.unary op (m.registers n)) := by
  cases op <;> cases found <;> exact ⟨rfl, fun _ _ => rfl⟩

theorem operate_ok {cause : Cause} {z : Option Instr} {v' : Option Value}
    (done : operate n cause z s = .ok (v', t)) :
    ∃ x, z = some x ∧ v' = some (.temp n) ∧ t = { s with code := s.code.push x } := by
  cases z with
  | none => cases done
  | some x =>
    cases done
    exact ⟨x, rfl, rfl, rfl⟩

theorem combine_ok {op : BinaryOp} {right : Operand} {v' : Option Value}
    (done : combine op v right s = .ok (v', t)) :
    ∃ n middle x, inRegister v s = .ok (n, middle) ∧
      binaryInstr? op (register n) right = some x ∧ v' = some (.temp n) ∧
      t = { middle with code := middle.code.push x } := by
  unfold combine at done
  split at done
  · cases done
  · obtain ⟨n, middle, loaded, done⟩ := gen_bind_ok done
    obtain ⟨x, found, rfl, rfl⟩ := operate_ok done
    exact ⟨n, middle, x, within_ok loaded, found, rfl, rfl⟩

theorem applyUnary_ok {op : UnaryOp} {v' : Option Value}
    (done : applyUnary op v s = .ok (v', t)) :
    ∃ n middle x, inRegister v s = .ok (n, middle) ∧ unaryInstr? op (register n) = some x ∧
      v' = some (.temp n) ∧ t = { middle with code := middle.code.push x } := by
  unfold applyUnary at done
  obtain ⟨n, middle, loaded, done⟩ := gen_bind_ok done
  obtain ⟨x, found, rfl, rfl⟩ := operate_ok done
  exact ⟨n, middle, x, within_ok loaded, found, rfl, rfl⟩

theorem combine_spec {op : BinaryOp} {right : Operand} {v' : Option Value}
    (held : Held low high v) (done : combine op v right s = .ok (v', t)) :
    ∃ n, v' = some (.temp n) ∧ Lands low high v s t n ∧ (Steady n right →
      Emits w s t (Sets n fun m => w.binary op (m.read (operand v)) (m.read right))) := by
  obtain ⟨n, middle, x, loaded, found, rfl, rfl⟩ := combine_ok done
  obtain ⟨lands, loads⟩ := inRegister_spec held loaded
  obtain ⟨quiet, does⟩ := binaryInstr?_effect found
  refine ⟨n, rfl, lands, fun steady => loads.sets_again (.sets rfl quiet (does w)) ?_⟩
  intro m m' storage got
  rw [got.1, steady m m' got.2 storage]

theorem applyUnary_spec {op : UnaryOp} {v' : Option Value}
    (held : Held low high v) (done : applyUnary op v s = .ok (v', t)) :
    ∃ n, v' = some (.temp n) ∧ Lands low high v s t n ∧
      Emits w s t (Sets n fun m => w.unary op (m.read (operand v))) := by
  obtain ⟨n, middle, x, loaded, found, rfl, rfl⟩ := applyUnary_ok done
  obtain ⟨lands, loads⟩ := inRegister_spec (w := w) held loaded
  obtain ⟨quiet, does⟩ := unaryInstr?_effect found
  refine ⟨n, rfl, lands, loads.sets_again (.sets rfl quiet (does w)) ?_⟩
  intro m m' _ got
  rw [got.1]

end Operands

section Expressions

variable {x y : Node} {n : Nat} {v v' : Option Value}

/-- A value is used up in its register. -/
theorem Computes.sets {value : Machine → Int64} (computes : Computes w x s t v)
    (lands : Lands s.top t.top v t u n) (sets : Emits w t u (Sets n value))
    (same : ∀ m m' : Machine, m'.storage = m.storage → m'.read (operand v) = x.eval w m.storage →
      value m' = y.eval w m.storage) : Computes w y s u (some (.temp n)) := by
  obtain ⟨rises, held, emits⟩ := computes
  obtain ⟨above, below⟩ : s.top ≤ n ∧ n < u.top := by
    rcases lands with ⟨above, below, top⟩ | ⟨rfl, top, _⟩ <;> omega
  refine ⟨by omega, ⟨above, below⟩, emits.trans sets ?_⟩
  rintro m₁ m₂ m₃ storage _ ⟨kept, read⟩ ⟨got, others⟩
  refine ⟨fun k below => ?_, ?_⟩
  · rw [others k (by omega), kept k below]
  · exact got.trans (same m₁ m₂ storage read)

theorem Computes.inRegister (computes : Computes w x s t v)
    (done : inRegister v t = .ok (n, u)) : Computes w x s u (some (.temp n)) := by
  obtain ⟨lands, sets⟩ := inRegister_spec (w := w) computes.held done
  exact computes.sets lands sets fun _ _ _ read => read

theorem Computes.newDeref {value : Value} (computes : Computes w x s t (some (.temp n)))
    (done : newDeref n t = .ok (value, u)) : Computes w (.mem x) s u (some value) := by
  cases done
  obtain ⟨rises, held, emits⟩ := computes
  refine ⟨rises, held, (emits.with_storage.weaken ?_).congr rfl⟩
  rintro m m' ⟨storage, kept, read⟩
  refine ⟨kept, ?_⟩
  simp_all [operand, Value.operand, Machine.read, Node.eval]

/-- The first of two values stays where it is. -/
theorem Computes.pair (first : Computes w x s t v) (second : Computes w y t u v') :
    Emits w s u fun m m' => (∀ k < s.top, m'.registers k = m.registers k) ∧
      m'.read (operand v) = x.eval w m.storage ∧ m'.read (operand v') = y.eval w m.storage := by
  obtain ⟨rises, held, emits⟩ := first
  obtain ⟨_, _, emits'⟩ := second
  refine emits.trans emits' ?_
  rintro m₁ m₂ m₃ storage storage' ⟨kept, read⟩ ⟨kept', read'⟩
  refine ⟨fun k below => ?_, ?_, ?_⟩
  · rw [kept' k (by omega), kept k below]
  · rw [held.read_eq (fun k _ below => kept' k below) storage', read]
  · rw [read', storage]

theorem indexOperand_spec {low high : Nat} {i : Operand} (held : Held low high v)
    (done : indexOperand v s = .ok (i, t)) :
    Emits w s t fun m m' => m'.read i = m.read (operand v) ∧
      ∀ k < s.top, (k < low ∨ high ≤ k) → m'.registers k = m.registers k := by
  cases v with
  | none =>
    cases done
    exact .none rfl fun m => ⟨rfl, fun _ _ _ => rfl⟩
  | some v =>
    obtain ⟨n, loaded, rfl⟩ := gen_map_ok done
    obtain ⟨lands, sets⟩ := inRegister_spec (w := w) held (within_ok loaded)
    refine sets.weaken fun m m' got => ⟨got.1, fun k below apart => got.2 k ?_⟩
    rcases lands with ⟨above, inside, _⟩ | ⟨rfl, _⟩ <;> omega

/-- An address is used in the register of its base, which is then the last one taken. -/
theorem computeAddress_ok {loads : Bool} {scale top : Nat} {offset : Int64} {b i : Option Value}
    (done : computeAddress loads scale offset top b i s = .ok (v, t)) :
    ∃ n middle j last object, inRegister b s = .ok (n, middle) ∧
      indexOperand i middle = .ok (j, last) ∧ v = some (.temp n) ∧ (top ≤ n → t.top = n + 1) ∧
      t.code = last.code.push (
        let source : Operand := .addr object none (register n) j scale offset
        if loads then .move (register n) source else .lea (register n) source) := by
  unfold computeAddress at done
  obtain ⟨n, middle, loaded, done⟩ := gen_bind_ok done
  obtain ⟨j, last, loadedIndex, done⟩ := gen_bind_ok done
  refine ⟨n, middle, j, last, last.objects, within_ok loaded, loadedIndex, ?_⟩
  by_cases above : top ≤ n
  · simp only [above, if_true] at done
    cases done
    exact ⟨rfl, fun _ => rfl, rfl⟩
  · simp only [above, if_false] at done
    cases done
    exact ⟨rfl, fun inside => absurd inside above, rfl⟩

theorem computeAddress_spec {loads : Bool} {a : Address} {b i : Option Value} {first : Selection}
    (base : Computes w a.base s first b) (index : Computes w a.index first u i)
    (done : computeAddress loads a.scale a.offset s.top b i u = .ok (v, t))
    (same : ∀ m : Storage,
      y.eval w m = if loads then m.heap (a.sum w m) else a.sum w m) :
    v ≠ none ∧ Computes w y s t v := by
  obtain ⟨n, middle, j, last, object, loadedBase, loadedIndex, rfl, top, code⟩ :=
    computeAddress_ok done
  obtain ⟨lands, setsBase⟩ := inRegister_spec (w := w) base.held loadedBase
  have setsIndex := indexOperand_spec (w := w) index.held loadedIndex
  have rises := base.rises
  have rises' := index.rises
  obtain ⟨above, taken, outside⟩ : s.top ≤ n ∧ n < middle.top ∧ (n < first.top ∨ u.top ≤ n) := by
    rcases lands with ⟨above, below, same⟩ | ⟨rfl, same, _⟩ <;> omega
  have apart := index.held.steady outside
  have baseReady : Emits w s middle fun m m' => (∀ k < s.top, m'.registers k = m.registers k) ∧
      m'.registers n = a.base.eval w m.storage ∧
      m'.read (operand i) = a.index.eval w m.storage := by
    refine (base.pair index).trans setsBase ?_
    rintro m₁ m₂ m₃ _ storage ⟨kept, readBase, readIndex⟩ ⟨got, others⟩
    refine ⟨fun k below => ?_, got.trans readBase, ?_⟩
    · rw [others k (by omega), kept k below]
    · rw [apart m₂ m₃ others storage, readIndex]
  have bothReady : Emits w s last fun m m' => (∀ k < s.top, m'.registers k = m.registers k) ∧
      m'.registers n = a.base.eval w m.storage ∧ m'.read j = a.index.eval w m.storage := by
    refine baseReady.trans setsIndex ?_
    rintro m₁ m₂ m₃ _ _ ⟨kept, readBase, readIndex⟩ ⟨got, others⟩
    refine ⟨fun k below => ?_, ?_, got.trans readIndex⟩
    · rw [others k (by omega) (by omega), kept k below]
    · rw [others n taken outside, readBase]
  have computed : Emits w last t (Sets n fun m =>
      let address := m.registers n + m.read j * Int64.ofInt a.scale + a.offset
      if loads then m.storage.heap address else address) := by
    cases loads <;> exact .sets code rfl fun _ => rfl
  have top := top above
  refine ⟨Option.some_ne_none _, by omega, ⟨above, by omega⟩, bothReady.trans computed ?_⟩
  rintro m₁ m₂ m₃ storage _ ⟨kept, readBase, readIndex⟩ ⟨got, others⟩
  refine ⟨fun k below => ?_, ?_⟩
  · rw [others k (by omega), kept k below]
  · rw [same, Address.sum, ← readBase, ← readIndex, ← storage]
    exact got

end Expressions

end Select

end Codegen
