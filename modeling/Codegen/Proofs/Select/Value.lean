import Codegen.Proofs.Select.Registers

/-! The code of an expression computes its value, with whole addresses in one instruction or
without. -/
namespace Codegen.Select

variable {w : World} {addressing used : Bool} {x y left right : Node} {op : BinaryOp}
  {s t u : Selection} {v v' : Option Value}

theorem binary_comm (w : World) (commutative : op.commutative = true) (a b : Int64) :
    w.binary op a b = w.binary op b a := by
  cases op <;> simp [BinaryOp.commutative] at commutative
  case add => exact Int64.add_comm a b
  case mul => exact Int64.mul_comm a b
  case bitAnd => exact w.and_comm a b
  case bitOr => exact w.or_comm a b
  case bitXor => exact w.xor_comm a b
  case eq => exact w.eq_comm a b
  case ne => exact w.ne_comm a b

theorem immediate_left {c : Int64} (found : immediate op left right = .left c) :
    left = .const c ∧ op.commutative = true := by
  unfold immediate at found
  split at found <;> grind

theorem immediate_right {c : Int64} (found : immediate op left right = .right c) :
    right = .const c := by
  unfold immediate at found
  split at found <;> grind

theorem Computes.settle (computes : Computes w x s t v) (done : settle v t = .ok (v', u)) :
    Computes w x s u v' ∧ ∀ c, v' ≠ some (.imm c) := by
  unfold Select.settle at done
  split at done
  · obtain ⟨n, loaded, rfl⟩ := gen_map_ok done
    exact ⟨computes.inRegister loaded, by simp⟩
  next noNumber =>
    cases done
    exact ⟨computes, noNumber⟩

/-- What the code of an expression is for. Only an index can have no value. -/
def Sound (w : World) (addressing : Bool) (x : Node) : Prop :=
  x.isValue = true → ∀ s t v, value addressing x s = .ok (v, t) → v ≠ none ∧ Computes w x s t v

theorem indexValue_computes (sound : Sound w addressing x) (isValue : x.isValue = true)
    (done : indexValue addressing x s = .ok (v, t)) : Computes w x s t v := by
  by_cases missing : x = .missing
  · subst missing
    rw [indexValue] at done
    cases done
    exact ⟨Nat.le_refl _, trivial, .none rfl fun m => ⟨fun _ _ => rfl, rfl⟩⟩
  · rw [indexValue] at done
    · exact (sound isValue s t v done).2
    · exact missing

def fused {ε : Type} [Halting ε] (addressing loads : Bool) (a : Address) :
    Generation ε (Option Value) := do
  let top ← mark
  let base ← within .addressBase (value addressing a.base)
  let index ← within .addressIndex (indexValue addressing a.index)
  computeAddress loads a.scale a.offset top base index

section Halting

variable {ε : Type} [Halting ε]

theorem value_fused {a : Address} (found : selected? addressing false x = some a) :
    (value addressing x : Generation ε _) = fused addressing false a := by
  rw [value]
  split
  next found' =>
    cases found.symm.trans found'
    rfl
  next absent => cases found.symm.trans absent

theorem value_plain (absent : selected? addressing false x = none) :
    (value addressing x : Generation ε _) = node addressing true x := by
  rw [value]
  split
  next found => cases absent.symm.trans found
  next => rfl

theorem node_mem_fused {a : Address} (found : selected? addressing true x = some a) :
    (node addressing used (.mem x) : Generation ε _) = fused addressing true a := by
  rw [node]
  · split
    next found' =>
      cases found.symm.trans found'
      rfl
    next absent => cases found.symm.trans absent
  · rintro symbol rfl
    cases addressing <;> contradiction

theorem node_mem_plain (computed : ∀ symbol, x ≠ .addr symbol)
    (absent : selected? addressing true x = none) :
    (node addressing used (.mem x) : Generation ε _) = (do
      let v ← within .memAddress (value addressing x)
      let n ← within .memAddress (inRegister v)
      some <$> newDeref n) := by
  rw [node]
  · split
    next found => cases absent.symm.trans found
    next => rfl
  · exact computed

end Halting

theorem selected?_represents {plain : Bool} {a : Address}
    (found : selected? addressing plain x = some a) : a.Represents x := by
  unfold selected? at found
  split at found
  · exact address?_represents found
  · contradiction

theorem fused_computes {plain loads : Bool} {a : Address}
    (below : ∀ y, sizeOf y < sizeOf x → Sound w addressing y)
    (found : selected? addressing plain x = some a) (isValue : x.isValue = true)
    (done : fused addressing loads a s = .ok (v, t))
    (same : ∀ m : Storage, y.eval w m = if loads then m.heap (x.eval w m) else x.eval w m) :
    v ≠ none ∧ Computes w y s t v := by
  have represents := selected?_represents found
  obtain ⟨valueBase, valueIndex⟩ := represents.values isValue
  obtain ⟨smallBase, smallIndex⟩ := selected?_size found
  obtain ⟨_, _, marked, done⟩ := gen_bind_ok done
  cases marked
  obtain ⟨b, middle, doneBase, done⟩ := gen_bind_ok done
  obtain ⟨i, last, doneIndex, done⟩ := gen_bind_ok done
  have base := (below _ smallBase valueBase _ _ _ (within_ok doneBase)).2
  have index := indexValue_computes (below _ smallIndex) valueIndex (within_ok doneIndex)
  refine computeAddress_spec base index done fun m => ?_
  rw [same, represents.sum]

theorem binary_computes (isValue : (Node.binary op left right).isValue = true)
    (soundLeft : Sound w addressing left) (soundRight : Sound w addressing right)
    (done : node addressing used (.binary op left right) s = .ok (v, t)) :
    v ≠ none ∧ Computes w (.binary op left right) s t v := by
  simp only [Node.isValue, Bool.and_eq_true] at isValue
  cases found : immediate op left right with
  | left c =>
    obtain ⟨rfl, commutative⟩ := immediate_left found
    rw [node, found] at done
    obtain ⟨r, middle, doneRight, done⟩ := gen_bind_ok done
    have computes := (soundRight isValue.2 _ _ _ doneRight).2
    obtain ⟨n, rfl, lands, sets⟩ := combine_spec (w := w) computes.held done
    refine ⟨Option.some_ne_none _, computes.sets lands (sets (steady_imm n c)) fun m m' _ read => ?_⟩
    rw [read, binary_comm w commutative]
    rfl
  | right c =>
    obtain rfl := immediate_right found
    rw [node, found] at done
    obtain ⟨l, middle, doneLeft, done⟩ := gen_bind_ok done
    have computes := (soundLeft isValue.1 _ _ _ doneLeft).2
    obtain ⟨n, rfl, lands, sets⟩ := combine_spec (w := w) computes.held done
    refine ⟨Option.some_ne_none _, computes.sets lands (sets (steady_imm n c)) fun m m' _ read => ?_⟩
    rw [read]
    rfl
  | neither =>
    rw [node, found] at done
    obtain ⟨l, first, doneLeft, done⟩ := gen_bind_ok done
    obtain ⟨l', second, settled, done⟩ := gen_bind_ok done
    obtain ⟨_, _, marked, done⟩ := gen_bind_ok done
    cases marked
    obtain ⟨r, third, doneRight, done⟩ := gen_bind_ok done
    obtain ⟨result, fourth, combined, done⟩ := gen_bind_ok done
    cases done
    obtain ⟨computesLeft, noNumber⟩ := (soundLeft isValue.1 _ _ _ doneLeft).2.settle settled
    have computesRight := (soundRight isValue.2 _ _ _ doneRight).2
    obtain ⟨n, rfl, lands, sets⟩ := combine_spec (w := w) computesLeft.held combined
    rcases lands with ⟨above, below, top⟩ | ⟨_, _, c, number⟩
    · have steady := computesRight.held.steady (.inl below)
      refine ⟨Option.some_ne_none _, computesLeft.rises, ⟨above, below⟩,
        ((computesLeft.pair computesRight).trans (sets steady) ?_).congr rfl⟩
      rintro m₁ m₂ m₃ _ _ ⟨kept, readLeft, readRight⟩ ⟨got, others⟩
      refine ⟨fun k inside => ?_, ?_⟩
      · rw [others k (by omega), kept k inside]
      · dsimp only at got
        rw [readLeft, readRight] at got
        exact got
    · exact absurd number (noNumber c)

theorem mem_computes (isValue : x.isValue = true)
    (below : ∀ y, sizeOf y < sizeOf (Node.mem x) → Sound w addressing y)
    (done : node addressing used (.mem x) s = .ok (v, t)) :
    v ≠ none ∧ Computes w (.mem x) s t v := by
  have inside : sizeOf x < sizeOf (Node.mem x) := by simp +arith
  cases found : selected? addressing true x with
  | some a =>
    rw [node_mem_fused found] at done
    exact fused_computes (fun y small => below y (by omega)) found isValue done fun m => rfl
  | none =>
    have computed : ∀ symbol, x ≠ .addr symbol := by
      rintro symbol rfl
      contradiction
    rw [node_mem_plain computed found] at done
    obtain ⟨v', middle, doneAddress, done⟩ := gen_bind_ok done
    obtain ⟨n, last, loaded, done⟩ := gen_bind_ok done
    obtain ⟨place, made, rfl⟩ := gen_map_ok done
    have computes := (below x inside isValue _ _ _ (within_ok doneAddress)).2
    exact ⟨Option.some_ne_none _, (computes.inRegister (within_ok loaded)).newDeref made⟩

/-- A register gets what a symbol stands for. -/
theorem symbol_computes {z : Instr} {value : Machine → Int64}
    (code : t.code = s.code.push z) (top : t.top = s.top + 1) (quiet : z.quiet = true)
    (does : ∀ m, z.effect w m = m.write w (register s.top) (value m))
    (same : ∀ m, value m = x.eval w m.storage) : Computes w x s t (some (.temp s.top)) := by
  refine ⟨by omega, ⟨Nat.le_refl _, by omega⟩, (Emits.sets code quiet does).weaken ?_⟩
  rintro m m' ⟨got, others⟩
  exact ⟨fun k below => others k (by omega), got.trans (same m)⟩

theorem node_computes (below : ∀ y, sizeOf y < sizeOf x → Sound w addressing y)
    (isValue : x.isValue = true) (done : node addressing used x s = .ok (v, t)) :
    v ≠ none ∧ Computes w x s t v := by
  cases x with
  | missing =>
    rw [node] at done
    cases done
  | const c =>
    rw [node] at done
    cases done
    exact ⟨Option.some_ne_none _, Nat.le_refl _, trivial, .none rfl fun m => ⟨fun _ _ => rfl, rfl⟩⟩
  | text symbol =>
    cases symbol <;> rw [node] at done <;> cases done
    exact ⟨Option.some_ne_none _, symbol_computes rfl rfl rfl (fun _ => rfl) fun _ => rfl⟩
  | var symbol =>
    cases symbol <;> rw [node] at done <;> cases done
    exact ⟨Option.some_ne_none _, symbol_computes rfl rfl rfl (fun _ => rfl) fun _ => rfl⟩
  | mem address => exact mem_computes isValue below done
  | binary op left right =>
    exact binary_computes isValue (below left (by simp +arith)) (below right (by simp +arith)) done
  | unary op x =>
    rw [node] at done
    obtain ⟨v', middle, doneOperand, done⟩ := gen_bind_ok done
    have computes := (below x (by simp +arith) isValue _ _ _ doneOperand).2
    obtain ⟨n, rfl, lands, sets⟩ := applyUnary_spec (w := w) computes.held done
    refine ⟨Option.some_ne_none _, computes.sets lands sets fun m m' _ read => ?_⟩
    rw [read]
    rfl
  | _ => contradiction

theorem sound_of_below (below : ∀ y, sizeOf y < sizeOf x → Sound w addressing y) :
    Sound w addressing x := by
  intro isValue s t v done
  cases found : selected? addressing false x with
  | some a =>
    rw [value_fused found] at done
    exact fused_computes below found isValue done fun m => rfl
  | none =>
    rw [value_plain found] at done
    exact node_computes below isValue done

theorem sound (w : World) (addressing : Bool) (x : Node) : Sound w addressing x :=
  sound_of_below fun y _ => sound w addressing y
termination_by sizeOf x

end Codegen.Select
