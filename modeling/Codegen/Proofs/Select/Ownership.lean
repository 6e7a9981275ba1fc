import Codegen.Proofs.Renaming
import Codegen.Proofs.Select.Stack

/-! The shape of operands, and where addresses are. Every address that is made goes to one slot of
one instruction, or is lost with the value of a statement. So a renaming in one instruction of
generated code is not seen in the others. -/
namespace Codegen

namespace Operand

def isAddr (x : Operand) : Bool :=
  x.object?.isSome

/-- An address is the place of a symbol, or it has registers only and a scale of the machine. -/
def flat : Operand → Bool
  | addr _ (some _) base index scale offset =>
    base.isAbsent && index.isAbsent && scale == 1 && offset == 0
  | addr _ none base index scale _ =>
    base.isTemp && (index.isAbsent || index.isTemp) && isScale scale
  | _ => true

end Operand

/-- A result goes to a register, only the address of an address is taken, and addresses are flat. -/
def Instr.shaped (z : Instr) : Bool :=
  z.operands.all (·.2.flat) &&
    match z with
    | .arith _ target _ | .cmp _ target _ | .neg target | .not target => target.isTemp
    | .lea target source => target.isTemp && source.isAddr
    | .call _ _ result => result.isAbsent || result.isTemp
    | _ => true

theorem Instr.renamedObjects_subset (which : Coverage) (z : Instr) :
    z.renamedObjects which ⊆ z.objects := by
  cases which with
  | defs => exact List.nil_subset _
  | uses | all => exact List.Subset.refl _

theorem disjoint_of_nodup_flatMap {α β : Type} {g : α → List β} {xs : List α}
    (nodup : (xs.flatMap g).Nodup) {i j : Nat} {x y : α} (first : xs[i]? = some x)
    (second : xs[j]? = some y) (other : i ≠ j) : (g x).Disjoint (g y) := by
  have pairwise := (List.nodup_flatMap.mp nodup).2
  rw [List.pairwise_iff_getElem] at pairwise
  obtain ⟨small, rfl⟩ := List.getElem?_eq_some_iff.mp first
  obtain ⟨small', rfl⟩ := List.getElem?_eq_some_iff.mp second
  rcases Nat.lt_or_gt_of_ne other with before | after
  · exact pairwise i j small small' before
  · exact (pairwise j i small' small after).symm

/-- Renaming in shared addresses does not see an instruction without them. -/
theorem Instr.renameShared_of_apart {os : List Nat} {z : Instr} (apart : ∀ o ∈ z.objects, o ∉ os)
    (old new : Temp) : z.renameShared os old new = z := by
  refine mapOperands_eq_self fun slot isSlot => ?_
  exact Operand.mapShared_of_apart _ fun o inside =>
    apart o (List.mem_flatMap.mpr ⟨slot, isSlot, inside⟩)

/-- If no two instructions share an address, a renaming is seen in one of them only. -/
theorem Pool.instrs_rename_owned (pool : Pool) (owned : (pool.instrs.flatMap Instr.objects).Nodup)
    (which : Coverage) (i j : Nat) (old new : Temp) :
    (pool.rename which i old new).instrs[j]? =
      if j = i then pool.instrs[i]?.map (Instr.rename which old new) else pool.instrs[j]? := by
  cases found : pool.instrs[i]? with
  | none =>
    simp only [rename, found, Option.map_none]
    split
    next same => rw [same, found]
    next => rfl
  | some x =>
    split
    next same =>
      subst same
      exact instrs_rename found which old new
    next other =>
      rw [rename_eq found, List.getElem?_set_ne (Ne.symm other), List.getElem?_map]
      cases found' : pool.instrs[j]? with
      | none => rfl
      | some y =>
        have apart := disjoint_of_nodup_flatMap owned found' found other
        refine congrArg some (Instr.renameShared_of_apart (fun o inside renamed => ?_) old new)
        exact apart inside (x.renamedObjects_subset which renamed)

/-- The same of the instructions of a routine. -/
theorem Routine.instr?_rename {r : Routine}
    (owned : ((r.entries.toList.map Entry.instr).flatMap Instr.objects).Nodup)
    (which : Coverage) (i j : Nat) (old new : Temp) : (r.rename which i old new).instr? j =
      if j = i then (r.instr? i).map (Instr.rename which old new) else r.instr? j := by
  have instrs (k : Nat) : (r.entries.toList.map Entry.instr)[k]? = r.instr? k := by
    simp [instr?]
  have renamed := Pool.instrs_rename_owned { instrs := r.entries.toList.map Entry.instr } owned
    which i j old new
  have seen : (r.rename which i old new).instr? j = (r.instr? j).map fun x =>
      (({ instrs := r.entries.toList.map Entry.instr : Pool }.rename
        which i old new).instrs[j]?).getD x := by
    simp [instr?, rename, Function.comp_def]
  rw [seen, renamed, instrs, instrs]
  split
  next same =>
    subst same
    cases r.instr? j <;> rfl
  next => cases r.instr? j <;> rfl

namespace Select

def addressed (code : List Instr) : Multiset Nat :=
  ↑(code.flatMap Instr.objects)

def unplaced (vs : List (Option Value)) : Multiset Nat :=
  ↑(vs.flatMap fun v => (operand v).objects)

section Addressed

@[simp] theorem addressed_nil : addressed [] = 0 :=
  rfl

@[simp] theorem addressed_append (code code' : List Instr) :
    addressed (code ++ code') = addressed code + addressed code' := by
  simp [addressed, ← Multiset.coe_add]

@[simp] theorem addressed_cons (z : Instr) (code : List Instr) :
    addressed (z :: code) = ↑z.objects + addressed code := by
  simp [addressed, ← Multiset.coe_add]

theorem addressed_log (log : List Emitted) (used : Bool) (x : Node) (own : List Instr) :
    addressed ((log ++ emitted used x own).map Emitted.instr) =
      addressed (log.map Emitted.instr) + addressed own := by
  simp

theorem addressed_one (z : Instr) : addressed [z] = ↑z.objects := by
  simp

@[simp] theorem unplaced_nil : unplaced [] = 0 :=
  rfl

@[simp] theorem unplaced_cons (v : Option Value) (vs : List (Option Value)) :
    unplaced (v :: vs) = ↑(operand v).objects + unplaced vs := by
  simp [unplaced, ← Multiset.coe_add]

theorem unplaced_one (v : Option Value) : unplaced [v] = ↑(operand v).objects := by
  simp

end Addressed

section Values

@[simp] theorem range_make (s : Selection) :
    Multiset.range s.make.objects = Multiset.range s.objects + {s.objects} := by
  rw [add_comm]
  exact Multiset.range_succ s.objects

@[simp] theorem objects_put (s : Selection) (z : Instr) : (s.put z).objects = s.objects :=
  rfl

@[simp] theorem objects_take (s : Selection) : s.take.objects = s.objects :=
  rfl

@[simp] theorem objects_free (s : Selection) (top : Nat) : (s.free top).objects = s.objects :=
  rfl

variable {v v' : Option Value} {s t : Selection} {n : Nat} {own : List Instr}

@[simp] theorem flat_register (n : Nat) : (register n).flat = true :=
  rfl

@[simp] theorem isTemp_register (n : Nat) : (register n).isTemp = true :=
  rfl

@[simp] theorem objects_register (n : Nat) : (register n).objects = [] :=
  rfl

@[simp] theorem objects_cell (object : Nat) (symbol : Symbol) :
    (Operand.cell object symbol).objects = [object] :=
  rfl

@[simp] theorem objects_nothing : (operand none).objects = [] :=
  rfl

@[simp] theorem operand_some (v : Value) : operand (some v) = v.operand :=
  rfl

@[simp] theorem objects_imm (c : Int64) : (Value.imm c).operand.objects = [] :=
  rfl

@[simp] theorem objects_temp (n : Nat) : (Value.temp n).operand.objects = [] :=
  rfl

@[simp] theorem objects_place (object : Nat) (symbol : Symbol) :
    (Value.cell object symbol).operand.objects = [object] :=
  rfl

@[simp] theorem objects_deref (object n : Nat) :
    (Value.deref object n).operand.objects = [object] :=
  rfl

@[simp] theorem flat_cell (object : Nat) (symbol : Symbol) :
    (Operand.cell object symbol).flat = true :=
  rfl

@[simp] theorem flat_value (v : Value) : v.operand.flat = true := by
  cases v <;> rfl

theorem flat_operand (v : Option Value) : (operand v).flat = true := by
  cases v with
  | none => rfl
  | some v => exact flat_value v

theorem shaped_move {target : Operand} (flat : target.flat = true) (v : Option Value) :
    (Instr.move target (operand v)).shaped = true := by
  simp [Instr.shaped, Instr.operands, flat, flat_operand]

theorem shaped_call (callee : Option Symbol) (vs : List (Option Value)) {result : Operand}
    (target : (result.isAbsent || result.isTemp) = true) :
    (Instr.call callee (vs.map operand) result).shaped = true := by
  have flat : result.flat = true := by
    cases result with
    | absent | temp t => rfl
    | imm c | addr object symbol base index scale offset => contradiction
  simp [Instr.shaped, Instr.operands, flat_operand, flat, target]

theorem Loads.shaped (loads : Loads v s n t own) : own.all Instr.shaped = true := by
  cases loads with
  | held n s => rfl
  | @fetched value s none => cases value <;> rfl
  | read object n s => rfl

/-- A value that goes to a register takes its address along. -/
theorem Loads.addressed (loads : Loads v s n t own) :
    addressed own = ↑(operand v).objects ∧ t.objects = s.objects := by
  cases loads with
  | held n s => exact ⟨rfl, rfl⟩
  | @fetched value s none => cases value <;> exact ⟨rfl, rfl⟩
  | read object n s => exact ⟨rfl, rfl⟩

theorem Settles.shaped (settles : Settles v s v' t own) : own.all Instr.shaped = true := by
  cases settles <;> rfl

theorem Settles.addressed (settles : Settles v s v' t own) :
    addressed own + ↑(operand v').objects = ↑(operand v).objects ∧ t.objects = s.objects := by
  cases settles with
  | number c s => exact ⟨rfl, rfl⟩
  | other s placed => exact ⟨Multiset.zero_add _, rfl⟩

theorem Indexes.shaped {j : Operand} (indexes : Indexes v s j t own) :
    own.all Instr.shaped = true ∧ (j.isAbsent || j.isTemp) = true := by
  cases indexes with
  | none s => exact ⟨rfl, rfl⟩
  | some loads => exact ⟨loads.shaped, rfl⟩

theorem Indexes.addressed {j : Operand} (indexes : Indexes v s j t own) :
    addressed own = ↑(operand v).objects ∧ t.objects = s.objects ∧ j.objects = [] := by
  cases indexes with
  | none s => exact ⟨rfl, rfl, rfl⟩
  | some loads => exact ⟨loads.addressed.1, loads.addressed.2, rfl⟩

theorem binaryInstr?_shaped {op : BinaryOp} {source : Operand} {z : Instr}
    (found : binaryInstr? op (register n) source = some z) (flat : source.flat = true) :
    z.shaped = true := by
  cases op <;> cases found <;>
    simp [Instr.shaped, Instr.operands, flat]

theorem binaryInstr?_objects {op : BinaryOp} {source : Operand} {z : Instr}
    (found : binaryInstr? op (register n) source = some z) : z.objects = source.objects := by
  rw [Instr.objects, binaryInstr?_operands found]
  simp

theorem unaryInstr?_shaped {op : UnaryOp} {z : Instr}
    (found : unaryInstr? op (register n) = some z) :
    z.shaped = true ∧ z.objects = [] := by
  cases op <;> cases found <;> exact ⟨rfl, rfl⟩

theorem addressInstr_shaped (loads : Bool) (object n : Nat) {j : Operand} {a : Address}
    (index : (j.isAbsent || j.isTemp) = true) (scale : Operand.isScale a.scale = true) :
    (addressInstr loads object n j a).shaped = true := by
  have flat (offset : Int64) :
      (Operand.addr object none (register n) j a.scale offset).flat = true := by
    simp [Operand.flat, index, scale]
  cases loads with
  | true => simp [addressInstr, Instr.shaped, Instr.operands, flat]
  | false =>
    simp [addressInstr, Instr.shaped, Instr.operands, flat, Operand.isAddr, Operand.object?]

theorem addressInstr_objects (loads : Bool) (object n : Nat) {j : Operand} (a : Address)
    (none : j.objects = []) : (addressInstr loads object n j a).objects = [object] := by
  rw [Instr.objects, addressInstr_operands]
  simp [Operand.objects, none]

theorem move_objects (target source : Operand) :
    (↑(Instr.move target source).objects : Multiset Nat) = ↑target.objects + ↑source.objects := by
  simp [Instr.objects, Instr.operands]

theorem lea_objects (target source : Operand) :
    (↑(Instr.lea target source).objects : Multiset Nat) = ↑target.objects + ↑source.objects := by
  simp [Instr.objects, Instr.operands]

theorem call_objects (callee : Option Symbol) (vs : List (Option Value)) (result : Operand) :
    (↑(Instr.call callee (vs.map operand) result).objects : Multiset Nat) =
      unplaced vs + ↑result.objects := by
  simp [Instr.objects, Instr.operands, unplaced, List.flatMap_map]

/-- There is at most one index. -/
theorem unplaced_index {rest : List (Option Value)} (short : rest.length ≤ 1) :
    unplaced rest = ↑(operand rest.head?.join).objects := by
  rcases rest with _ | ⟨v, _ | ⟨_, _⟩⟩
  · rfl
  · simp
  · simp at short

theorem fusion?_scale {addressing used : Bool} {x y : Node} {a : Address}
    (found : fusion? addressing used x = some (y, a)) : Operand.isScale a.scale = true := by
  rcases fusion?_some found with ⟨_, selected⟩ | ⟨_, _, selected⟩ <;>
    exact Checked.selected?_scale selected

end Values

section Runs

variable {addressing used : Bool} {xs : List Node} {s t : Selection} {vs : List (Option Value)}
  {log : List Emitted}

/-- What a node hands to its last instruction is flat. -/
theorem Selects.shaped (selects : Selects addressing used xs s vs t log) :
    (log.map Emitted.instr).all Instr.shaped = true := by
  induction selects with
  | nil s | const used c s | addr used symbol s => rfl
  | text used symbol s | var used symbol s | label used name s | jump used target s
  | retNothing used s =>
    rw [map_instr_emitted]
    rfl
  | cons first second ih ih' => simp [ih, ih']
  | mem absent part loads ih => simp [ih, loads.shaped]
  | fused found parts loads indexes ih =>
    obtain ⟨shaped, index⟩ := indexes.shaped
    simp [ih, loads.shaped, shaped, addressInstr_shaped _ _ _ index (fusion?_scale found)]
  | immediate absent found part number loads instr ih =>
    simp [ih, loads.shaped, binaryInstr?_shaped instr rfl]
  | binary absent found inLeft settles inRight number loads instr ih ih' =>
    simp [ih, ih', settles.shaped, loads.shaped, binaryInstr?_shaped instr (flat_operand _)]
  | unary part loads instr ih => simp [ih, loads.shaped, (unaryInstr?_shaped instr).1]
  | call part ih | callStatement part ih =>
    simp only [List.map_append, map_instr_emitted, List.all_append, ih, List.all_cons,
      List.all_nil, Bool.and_true, Bool.true_and]
    exact shaped_call _ _ rfl
  | assignSymbol place part ih => simp [ih, shaped_move (flat_cell _ _)]
  | assign inTarget loads inSource ih ih' => simp [ih, ih', loads.shaped, shaped_move]
  | branch ifTrue ifFalse part ih | ret present part ih =>
    simp [ih, Instr.shaped, Instr.operands, flat_operand]

/-- A base has at most one index beside it. -/
theorem Selects.short {a : Address} {b : Option Value} {rest : List (Option Value)}
    (selects : Selects addressing used a.parts s (b :: rest) t log) : rest.length ≤ 1 := by
  have length := selects.length
  unfold Address.parts at length
  split at length <;> simp only [List.length_cons, List.length_nil] at length <;> omega

/-- Every address that is made is in the code or left in the values. -/
theorem Selects.addressed (selects : Selects addressing used xs s vs t log) :
    Multiset.range s.objects + addressed (log.map Emitted.instr) + unplaced vs =
      Multiset.range t.objects := by
  induction selects with
  | nil s | const used c s => simp
  | cons first second ih ih' =>
    rw [← ih', ← ih, List.map_append, addressed_append, unplaced_cons, unplaced_one]
    abel
  | addr used symbol s => simp
  | text used symbol s | var used symbol s => simp [move_objects, lea_objects]
  | mem absent part loads ih =>
    obtain ⟨own, same⟩ := loads.addressed
    simp [same, own, ← ih, add_assoc]
  | fused found parts loads indexes ih =>
    obtain ⟨own, same⟩ := loads.addressed
    obtain ⟨own', same', none⟩ := indexes.addressed
    -- Base and index give up their addresses when they go to registers. The one that is made of
    -- the two registers is the only new one.
    rw [unplaced_cons, unplaced_index parts.short] at ih
    rw [objects_free, objects_put, range_make, same', same, ← ih, addressed_log,
      addressed_append, addressed_append, own, own', addressed_one,
      addressInstr_objects _ _ _ _ none, unplaced_one, operand_some, objects_temp]
    simp only [Multiset.coe_singleton, Multiset.coe_nil]
    abel
  | immediate absent found part number loads instr ih =>
    obtain ⟨own, same⟩ := loads.addressed
    simp [same, own, ← ih, binaryInstr?_objects instr, add_assoc, Operand.objects]
  | binary absent found inLeft settles inRight number loads instr ih ih' =>
    obtain ⟨own, same⟩ := settles.addressed
    obtain ⟨own', same'⟩ := loads.addressed
    rw [unplaced_one] at ih ih'
    rw [objects_free, objects_put, same', ← ih', same, ← ih, ← own, List.map_append,
      addressed_append, addressed_log, addressed_log, addressed_append, own', addressed_one,
      binaryInstr?_objects instr, unplaced_one, operand_some, objects_temp, Multiset.coe_nil]
    abel
  | unary part loads instr ih =>
    obtain ⟨own, same⟩ := loads.addressed
    simp [same, own, ← ih, (unaryInstr?_shaped instr).2, add_assoc]
  | call part ih | callStatement part ih => simp [← ih, call_objects, add_assoc, Operand.objects]
  | assignSymbol place part ih =>
    rw [unplaced_one] at ih
    rw [objects_put, ← ih, range_make, addressed_log, addressed_one, move_objects, objects_cell,
      unplaced_one, objects_nothing]
    simp only [Multiset.coe_singleton, Multiset.coe_nil]
    abel
  | assign inTarget loads inSource ih ih' =>
    obtain ⟨own, same⟩ := loads.addressed
    -- The address of the target is made before the source and placed after it.
    rw [unplaced_one] at ih ih'
    rw [objects_put, ← ih', range_make, same, ← ih, List.map_append, addressed_append,
      addressed_log, addressed_log, own, addressed_one, move_objects, objects_deref, unplaced_one,
      objects_nothing]
    simp only [Multiset.coe_singleton, Multiset.coe_nil]
    abel
  | label used name s | jump used target s | retNothing used s =>
    simp [Instr.objects, Instr.operands, Operand.objects]
  | branch ifTrue ifFalse part ih | ret present part ih =>
    simp [← ih, Instr.objects, Instr.operands, add_assoc]

end Runs

section Functions

variable {addressing : Bool} {body : List Node} {s t : Selection} {logs : List (List Emitted)}
  {options : Options} {f : Func} {r : Routine}

theorem SelectsBody.shaped (selects : SelectsBody addressing body s t logs) :
    (logs.flatten.map Emitted.instr).all Instr.shaped = true := by
  induction selects with
  | nil s => rfl
  | cons first others ih =>
    simp only [List.flatten_cons, List.map_append, List.all_append, ih, first.shaped,
      Bool.and_self]

/-- An address that is not in the code is lost with the value of a statement. -/
theorem SelectsBody.addressed (selects : SelectsBody addressing body s t logs) :
    ∃ lost, Multiset.range s.objects + addressed (logs.flatten.map Emitted.instr) + lost =
      Multiset.range t.objects := by
  induction selects with
  | nil s => exact ⟨0, by simp⟩
  | @cons _ _ _ _ _ v _ _ first others ih =>
    obtain ⟨lost, total⟩ := ih
    refine ⟨unplaced [v] + lost, ?_⟩
    rw [← total, ← first.addressed, List.flatten_cons, List.map_append, addressed_append]
    simp only [objects_free]
    abel

theorem Logged.shaped (logged : Logged options f r logs) :
    ∀ line ∈ r.lines, line.instr.shaped = true := by
  have shaped : (r.lines.map Line.instr).all Instr.shaped = true := by
    rw [logged.lines]
    cases logged with
    | expanded => rfl
    | selected called selects => exact selects.shaped
  intro line member
  exact List.all_eq_true.mp shaped _ (List.mem_map_of_mem member)

theorem Logged.owned (logged : Logged options f r logs) :
    ((r.lines.map Line.instr).flatMap Instr.objects).Nodup := by
  rw [logged.lines]
  cases logged with
  | expanded => exact List.nodup_nil
  | @selected t _ called selects =>
    obtain ⟨lost, total⟩ := selects.addressed
    have less : addressed (logs.flatten.map Emitted.instr) ≤ Multiset.range t.objects := by
      rw [← total]
      exact (Multiset.le_add_left _ _).trans (Multiset.le_add_right _ _)
    exact Multiset.coe_nodup.mp (Multiset.nodup_of_le less (Multiset.nodup_range _))

/-- A routine has its instructions in the order in which they are executed. -/
theorem routine_entries (f : Func) (s : Selection) :
    (routine f s).entries.toList.map Entry.instr = (routine f s).lines.map Line.instr := by
  rw [routine_lines]
  simp [routine, Function.comp_def]

theorem Logged.entries (logged : Logged options f r logs) :
    r.entries.toList.map Entry.instr = r.lines.map Line.instr := by
  cases logged with
  | expanded | selected called selects => exact routine_entries f _

theorem generateFunc_temps (generated : generateFunc options f = .ok r) :
    ∀ line ∈ r.lines, line.instr.temps ⊆ r.temps := by
  obtain ⟨codes, _, lines, _, grows⟩ := pieces_of_ok generated
  intro line member u mentioned
  obtain ⟨n, small, rfl⟩ := grows.inside u (List.mem_flatMap.mpr
    ⟨line.instr, lines ▸ List.mem_map_of_mem member, mentioned⟩)
  rcases generateFunc_cases generated with ⟨_, rfl⟩ | ⟨_, t, _, rfl⟩
  · contradiction
  · exact Selection.mem_table (by simpa [routine] using small)

/-- Results go to registers, addresses are places or have registers only, and no address stands
twice in the code. A renaming is not seen but in its own instruction. -/
theorem generateFunc_owned (generated : generateFunc options f = .ok r) :
    (∀ line ∈ r.lines, line.instr.shaped = true ∧ line.instr.temps ⊆ r.temps) ∧
    ((r.lines.map Line.instr).flatMap Instr.objects).Nodup ∧
    ∀ which i j old new, (r.rename which i old new).instr? j =
      if j = i then (r.instr? i).map (Instr.rename which old new) else r.instr? j := by
  obtain ⟨logs, logged⟩ := logged_of_ok generated
  refine ⟨fun line member => ⟨logged.shaped line member, ?_⟩, logged.owned, ?_⟩
  · exact generateFunc_temps generated line member
  · exact Routine.instr?_rename (logged.entries ▸ logged.owned)

end Functions

/-- Loads and stores through pointers, and loses an address in its second statement. -/
def copying : Func :=
  { name := ascii "f"
    body := [.assign elementPlace (.mem (.mem (globalVar 2 "p"))),
      .addr (some ⟨.global 0, ascii "a"⟩),
      .ret (globalCall 3 "g" [.addr (some ⟨.global 0, ascii "a"⟩), .mem (globalVar 2 "p")])] }

theorem generateFunc_owned_copying : ∃ r, generateFunc {} copying = .ok r ∧
    (r.lines.map Line.instr).flatMap Instr.objects = [1, 0, 2, 4, 5, 3, 6, 9, 8, 10] ∧
    (∀ line ∈ r.lines, line.instr.shaped = true ∧ line.instr.temps ⊆ r.temps) ∧
    ∀ j, (r.rename .all 2 (.numbered 1) (.numbered 7)).instr? j =
      if j = 2 then some (.lea (register 7) (.addr 2 none (register 7) (register 0) 8 0))
      else r.instr? j := by
  have objects : (generateFunc {} copying).toOption.map (fun r =>
      ((r.lines.map Line.instr).flatMap Instr.objects, r.instr? 2)) =
      some ([1, 0, 2, 4, 5, 3, 6, 9, 8, 10],
        some (.lea (register 1) (.addr 2 none (register 1) (register 0) 8 0))) := by cbv
  obtain ⟨r, generated⟩ := exists_ok (x := generateFunc {} copying) (by cbv)
  obtain ⟨shaped, _, renamed⟩ := generateFunc_owned generated
  rw [generated] at objects
  obtain ⟨objects, place⟩ := Prod.mk.inj (Option.some.inj objects)
  refine ⟨r, generated, objects, shaped, fun j => ?_⟩
  rw [renamed, place]
  rfl

end Select

end Codegen
