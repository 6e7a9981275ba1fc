import Codegen.Proofs.BitSet
import Codegen.Proofs.Evaluation
import Codegen.Proofs.Renaming
import Codegen.Proofs.Select.Behaviour

/-! What instructions read and write. An instruction changes no register but those that it defines,
and what it does depends on no register but those that it uses. So both sets can be trusted where
it is decided which registers are still needed. -/
namespace Codegen

inductive Transfer
  | next
  | label (name : Bytes)
  | out (value : Option Int64)
  deriving DecidableEq, Repr

namespace Instr

/-- What an instruction does. A call is any function of what is called, the values of its arguments
and storage. -/
def perform (w : World) (call : Option Symbol → List Int64 → Storage → Int64 × Storage)
    (x : Instr) (m : Machine) : Machine :=
  match x with
  | .call callee args result =>
    let done := call callee (args.map m.read) m.storage
    Machine.write w ⟨m.registers, done.2⟩ result done.1
  | x => x.effect w m

def transfer (x : Instr) (m : Machine) : Transfer :=
  match x.control with
  | .plain | .label _ => .next
  | .jump target => .label target
  | .branch condition ifTrue ifFalse => .label (if m.read condition != 0 then ifTrue else ifFalse)
  | .ret value => .out (if value.isAbsent then none else some (m.read value))

/-- Registers are told apart by their numbers alone. -/
def byNumber (x : Instr) : Instr :=
  x.mapTemps fun t => .numbered t.id.toNat

section Slots

variable {x : Instr} {slot : Access × Operand}

theorem written_subset_defs (isSlot : slot ∈ x.operands) : written slot ⊆ x.defs :=
  fun _ inside => List.mem_flatMap.mpr ⟨slot, isSlot, inside⟩

theorem consulted_subset_uses (isSlot : slot ∈ x.operands) : consulted slot ⊆ x.uses :=
  fun _ inside => List.mem_flatMap.mpr ⟨slot, isSlot, inside⟩

@[simp] theorem written_read (y : Operand) : written (.read, y) = [] :=
  rfl

@[simp] theorem written_update (y : Operand) : written (.update, y) = written (.write, y) := by
  cases y <;> rfl

/-- The registers of a slot are written or read, or both. -/
theorem mem_temps_iff {t : Temp} : t ∈ slot.2.temps ↔ t ∈ written slot ∨ t ∈ consulted slot := by
  obtain ⟨access, y⟩ := slot
  cases access <;> cases y <;> simp [written, consulted, Operand.temps]

theorem temps_iff_defs_or_uses {t : Temp} : t ∈ x.temps ↔ t ∈ x.defs ∨ t ∈ x.uses := by
  simp only [temps, defs, uses, List.mem_flatMap, mem_temps_iff, ← exists_or, ← and_or_left]

end Slots

section MapTemps

variable (f : Temp → Temp) (x : Instr)

theorem written_mapTemps (slot : Access × Operand) :
    written (slot.1, slot.2.mapTemps f) = (written slot).map f := by
  obtain ⟨access, y⟩ := slot
  cases access <;> cases y <;> rfl

theorem consulted_mapTemps (slot : Access × Operand) :
    consulted (slot.1, slot.2.mapTemps f) = (consulted slot).map f := by
  obtain ⟨access, y⟩ := slot
  cases access <;> cases y <;> simp [consulted, Operand.mapTemps, Operand.temps]

theorem defs_mapTemps : (x.mapTemps f).defs = x.defs.map f := by
  simp [defs, mapTemps, List.flatMap_map, List.map_flatMap, written_mapTemps]

theorem uses_mapTemps : (x.mapTemps f).uses = x.uses.map f := by
  simp [uses, mapTemps, List.flatMap_map, List.map_flatMap, consulted_mapTemps]

end MapTemps

end Instr

/-- Two machines with the same storage, of whose registers those that are given hold the same. -/
structure Agree (ts : List Temp) (m m' : Machine) : Prop where
  storage : m.storage = m'.storage
  registers : ∀ t ∈ ts, m.registers t.key = m'.registers t.key

section Agree

variable {ts : List Temp} {m m' : Machine} {y : Operand} {x : Instr}

theorem Agree.read (agree : Agree ts m m') (inside : y.temps ⊆ ts) : m.read y = m'.read y := by
  induction y with
  | absent | imm value => rfl
  | temp t => exact agree.registers t (inside (by simp [Operand.temps]))
  | addr object symbol base index scale offset inBase inIndex =>
    obtain ⟨ofBase, ofIndex⟩ := List.append_subset.mp inside
    cases symbol with
    | some symbol => simp [Machine.read, agree.storage]
    | none => simp [Machine.read, agree.storage, inBase ofBase, inIndex ofIndex]

theorem Agree.address (agree : Agree ts m m') (w : World) (inside : y.temps ⊆ ts) :
    m.address w y = m'.address w y := by
  cases y with
  | absent | imm value | temp t => rfl
  | addr object symbol base index scale offset =>
    obtain ⟨ofBase, ofIndex⟩ := List.append_subset.mp inside
    cases symbol with
    | some symbol => rfl
    | none => simp [Machine.address, agree.read ofBase, agree.read ofIndex]

/-- After a write the register that is written agrees too. -/
theorem Agree.write (agree : Agree ts m m') (w : World)
    (inside : Instr.consulted (.write, y) ⊆ ts) (value : Int64) :
    Agree (Instr.written (.write, y)) (m.write w y value) (m'.write w y value) := by
  cases y with
  | absent | imm c => exact ⟨agree.storage, by simp [Instr.written]⟩
  | temp t =>
    refine ⟨agree.storage, fun t' isTarget => ?_⟩
    obtain rfl : t' = t := by simpa [Instr.written] using isTarget
    simp [Machine.write, Machine.setRegister]
  | addr object symbol base index scale offset =>
    refine ⟨?_, by simp [Instr.written]⟩
    have place := agree.address w inside
    cases symbol with
    | some symbol => simp [Machine.write, agree.storage]
    | none => simp [Machine.write, agree.storage, place]

theorem Agree.slot (agree : Agree x.uses m m') (access : Access) (reads : access ≠ .write)
    (isSlot : (access, y) ∈ x.operands) : m.read y = m'.read y := by
  refine agree.read fun t inside => Instr.consulted_subset_uses isSlot ?_
  cases access with
  | write => contradiction
  | read | update => cases y <;> exact inside

/-- A slot that is written is the only one. -/
theorem Agree.store (agree : Agree x.uses m m') (w : World) (access : Access) {value value' : Int64}
    (isSlot : (access, y) ∈ x.operands) (only : x.defs = Instr.written (.write, y))
    (same : value = value') : Agree x.defs (m.write w y value) (m'.write w y value') := by
  subst same
  rw [only]
  refine agree.write w (fun t inside => Instr.consulted_subset_uses isSlot ?_) value
  cases y with
  | temp t => contradiction
  | absent | imm c | addr object symbol base index scale offset => cases access <;> exact inside

/-- Machines that agree on what an instruction uses agree on what it defines afterwards. -/
theorem Agree.perform (agree : Agree x.uses m m') (w : World)
    (call : Option Symbol → List Int64 → Storage → Int64 × Storage) :
    Agree x.defs (x.perform w call m) (x.perform w call m') := by
  cases x with
  | move target source =>
    refine agree.store w .write (by simp [Instr.operands])
      (by simp [Instr.defs, Instr.operands]) ?_
    exact agree.slot .read (by simp) (by simp [Instr.operands])
  | lea target source =>
    refine agree.store w .write (by simp [Instr.operands])
      (by simp [Instr.defs, Instr.operands]) (agree.address w ?_)
    have isSlot : (.read, source) ∈ (Instr.lea target source).operands := by simp [Instr.operands]
    exact Instr.consulted_subset_uses isSlot
  | arith op target source | cmp op target source =>
    have left := agree.slot .update (y := target) (by simp) (by simp [Instr.operands])
    have right := agree.slot .read (y := source) (by simp) (by simp [Instr.operands])
    refine agree.store w .update (by simp [Instr.operands])
      (by simp [Instr.defs, Instr.operands]) ?_
    rw [left, right]
  | neg target | not target =>
    have value := agree.slot .update (y := target) (by simp) (by simp [Instr.operands])
    refine agree.store w .update (by simp [Instr.operands])
      (by simp [Instr.defs, Instr.operands]) ?_
    rw [value]
  | call callee args result =>
    have values : args.map m.read = args.map m'.read := by
      refine List.map_congr_left fun y isArg => ?_
      exact agree.slot .read (by simp) (by simp [Instr.operands, isArg])
    simp only [Instr.perform, values, agree.storage]
    have called : Agree (Instr.call callee args result).uses
        ⟨m.registers, (call callee (args.map m'.read) m'.storage).2⟩
        ⟨m'.registers, (call callee (args.map m'.read) m'.storage).2⟩ := ⟨rfl, agree.registers⟩
    exact called.store w .write (by simp [Instr.operands])
      (by simp [Instr.defs, Instr.operands, List.flatMap_map]) rfl
  | jump target | branch condition ifTrue ifFalse next | label name | ret value =>
    exact ⟨agree.storage, by simp [Instr.defs, Instr.operands, Instr.written]⟩

theorem Agree.transfer (agree : Agree x.uses m m') : x.transfer m = x.transfer m' := by
  cases x with
  | branch condition ifTrue ifFalse next =>
    have value := agree.slot .read (y := condition) (by simp) (by simp [Instr.operands])
    simp only [Instr.transfer, Instr.control, value]
  | ret value =>
    have value := agree.slot .read (y := value) (by simp) (by simp [Instr.operands])
    simp only [Instr.transfer, Instr.control, value]
  | _ => rfl

end Agree

section Frame

variable {k : Nat} {x : Instr}

theorem Machine.registers_write (w : World) {target : Operand}
    (other : ∀ r ∈ Instr.written (.write, target), r.key ≠ k) (value : Int64) (m : Machine) :
    (m.write w target value).registers k = m.registers k := by
  cases target with
  | absent | imm c => rfl
  | temp r => exact if_neg (other r (by simp [Instr.written])).symm
  | addr object symbol base index scale offset => cases symbol <;> rfl

/-- An instruction changes only the registers that it defines. -/
theorem Instr.registers_perform (w : World)
    (call : Option Symbol → List Int64 → Storage → Int64 × Storage)
    (other : ∀ r ∈ x.defs, r.key ≠ k) (m : Machine) :
    (x.perform w call m).registers k = m.registers k := by
  have spared (access : Access) {target : Operand} (isSlot : (access, target) ∈ x.operands)
      (changes : access ≠ .read) (value : Int64) (m : Machine) :
      (m.write w target value).registers k = m.registers k := by
    refine m.registers_write w (fun r isTarget => other r (written_subset_defs isSlot ?_)) value
    cases access with
    | read => contradiction
    | write | update => simpa using isTarget
  cases x with
  | move target source | lea target source =>
    exact spared .write (by simp [operands]) (by simp) _ m
  | arith op target source | cmp op target source | neg target | not target =>
    exact spared .update (by simp [operands]) (by simp) _ m
  | call callee args result => exact spared .write (by simp [operands]) (by simp) _ _
  | jump target | branch condition ifTrue ifFalse next | label name | ret value => rfl

end Frame

section Sets

theorem Temp.contains_iff_key {ts : List Temp} {s : BitSet}
    (made : BitSet.ofList? (ts.map id) = some s) (k : Nat) :
    s.contains k = true ↔ ∃ r ∈ ts.map fun t => numbered t.id.toNat, r.key = k := by
  have natural : ∀ t ∈ ts, 0 ≤ t.id := by
    intro t member
    by_contra negative
    rw [BitSet.ofList?_eq_none_iff.mpr ⟨t.id, List.mem_map_of_mem member, by omega⟩] at made
    contradiction
  simp only [BitSet.contains_ofList? made, List.mem_map, exists_exists_and_eq_and]
  refine exists_congr fun t => and_congr_right fun member => ?_
  have := natural t member
  change t.id = k ↔ t.id.toNat = k
  omega

variable (w : World) (call : Option Symbol → List Int64 → Storage → Int64 × Storage)

theorem Instr.sets_eq_none_iff (x : Instr) :
    x.defSet? = none ∨ x.useSet? = none ↔ ∃ t ∈ x.temps, t.id < 0 := by
  simp only [defSet?, useSet?, BitSet.ofList?_eq_none_iff, List.mem_map, exists_exists_and_eq_and,
    temps_iff_defs_or_uses, or_and_right, exists_or]

/-- The numbers of the registers that are written and read tell all that an instruction does to
registers and needs of them, whatever its operands are. Only a number below zero is in no set. -/
theorem Instr.sets_sound (x : Instr) :
    (x.defSet? = none ∨ x.useSet? = none ↔ ∃ t ∈ x.temps, t.id < 0) ∧
    ∀ written read, x.defSet? = some written → x.useSet? = some read →
      (∀ m k, written.contains k = false →
        (x.byNumber.perform w call m).registers k = m.registers k) ∧
      (∀ m m' : Machine, m.storage = m'.storage →
        (∀ k, read.contains k = true → m.registers k = m'.registers k) →
        (x.byNumber.perform w call m).storage = (x.byNumber.perform w call m').storage ∧
        x.byNumber.transfer m = x.byNumber.transfer m' ∧
        ∀ k, written.contains k = true →
          (x.byNumber.perform w call m).registers k =
            (x.byNumber.perform w call m').registers k) ∧
      ∀ k : Nat, (k : Int) ∈ x.temps.map Temp.id ↔
        written.contains k = true ∨ read.contains k = true := by
  refine ⟨x.sets_eq_none_iff, fun written read made made' => ?_⟩
  have defined (k : Nat) : written.contains k = true ↔ ∃ r ∈ x.byNumber.defs, r.key = k := by
    rw [byNumber, defs_mapTemps]
    exact Temp.contains_iff_key made k
  have used (k : Nat) : read.contains k = true ↔ ∃ r ∈ x.byNumber.uses, r.key = k := by
    rw [byNumber, uses_mapTemps]
    exact Temp.contains_iff_key made' k
  refine ⟨fun m k other => ?_, fun m m' storage registers => ?_, fun k => ?_⟩
  · refine registers_perform w call (fun r isDefined same => ?_) m
    rw [(defined k).mpr ⟨r, isDefined, same⟩] at other
    contradiction
  · have agree : Agree x.byNumber.uses m m' :=
      ⟨storage, fun r isUsed => registers r.key ((used r.key).mpr ⟨r, isUsed, rfl⟩)⟩
    have after := agree.perform w call
    refine ⟨after.storage, agree.transfer, fun k isWritten => ?_⟩
    obtain ⟨r, isDefined, rfl⟩ := (defined k).mp isWritten
    exact after.registers r isDefined
  · rw [BitSet.contains_ofList? made, BitSet.contains_ofList? made']
    simp only [List.mem_map, temps_iff_defs_or_uses, or_and_right, exists_or]

/-- Calls with what is read through an address. The registers with keys 0 and 1 have one number. -/
def calling : Instr :=
  .call none [.temp ⟨1, 5, .unassigned⟩, .addr 0 none (.temp ⟨2, 3, .unassigned⟩) .absent 1 8]
    (.temp ⟨0, 5, .unassigned⟩)

def filledWith (c : Int64) : Machine :=
  ⟨fun k => if k = 3 ∨ k = 5 then 2 else c, ⟨fun _ => 0, fun place => place⟩⟩

def adding (_ : Option Symbol) (args : List Int64) (m : Storage) : Int64 × Storage :=
  (args.foldl (· + ·) 0, m.setHeap 0 (args.headD 0))

theorem Instr.sets_sound_calling : ∃ written read,
    calling.defSet? = some written ∧ calling.useSet? = some read ∧
    written.toList = [5] ∧ read.toList = [3, 5] ∧
    (calling.byNumber.perform Select.standard adding (filledWith 0)).registers 3 = 2 ∧
    (calling.byNumber.perform Select.standard adding (filledWith 0)).storage =
      (calling.byNumber.perform Select.standard adding (filledWith 7)).storage ∧
    (calling.byNumber.perform Select.standard adding (filledWith 0)).registers 5 =
      (calling.byNumber.perform Select.standard adding (filledWith 7)).registers 5 := by
  refine ⟨_, _, rfl, rfl, by cbv, by cbv, ?_⟩
  obtain ⟨frame, same, _⟩ := (sets_sound Select.standard adding calling).2 _ _ rfl rfl
  obtain ⟨storage, _, registers⟩ := same (filledWith 0) (filledWith 7) rfl fun k held => by
    have made : BitSet.ofList? [5, 3] = calling.useSet? := rfl
    have used : k = 5 ∨ k = 3 := by
      have number := (BitSet.contains_ofList? made k).mp held
      simp at number
      omega
    simp [filledWith, used.symm]
  exact ⟨frame _ 3 (by decide +kernel), storage, registers 5 (by decide +kernel)⟩

end Sets

end Codegen
