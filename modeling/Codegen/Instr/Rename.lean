import Codegen.Instr.Basic

/-!
# Renaming registers

A renaming replaces one register by another in the places that an instruction reads, in
those that it writes, or in all. An address that other instructions share changes in them
too.
-/

namespace Codegen

inductive Coverage
  | uses | defs | all
  deriving DecidableEq, Repr

def Temp.replace (old new t : Temp) : Temp :=
  if t = old then new else t

namespace Instr

def renameSlot (which : Coverage) (old new : Temp) (access : Access) (x : Operand) :
    Operand :=
  match which, access, x with
  | .uses, .write, .temp t => .temp t
  | .uses, _, x => x.mapTemps (Temp.replace old new)
  | .defs, .read, x => x
  | .defs, _, .temp t => .temp (Temp.replace old new t)
  | .defs, _, x => x
  | .all, _, x => x.mapTemps (Temp.replace old new)

def rename (which : Coverage) (old new : Temp) (x : Instr) : Instr :=
  x.mapOperands (renameSlot which old new)

/-- The addresses that a renaming goes into. -/
def renamedObjects (which : Coverage) (x : Instr) : List Nat :=
  match which with
  | .defs => []
  | .uses | .all => x.operands.flatMap fun (_, operand) => operand.objects

/-- What the renaming of registers inside shared addresses does to an instruction. -/
def renameShared (objects : List Nat) (old new : Temp) (x : Instr) : Instr :=
  x.mapOperands fun _ => Operand.mapShared objects (Temp.replace old new)

end Instr

structure Pool where
  operands : List Operand := []
  instrs : List Instr := []
  deriving Repr

namespace Pool

/-- Renames in one instruction, and in the addresses that it shares with the others. -/
def rename (pool : Pool) (which : Coverage) (i : Nat) (old new : Temp) : Pool :=
  match pool.instrs[i]? with
  | none => pool
  | some x =>
    let objects := x.renamedObjects which
    { operands := pool.operands.map (Operand.mapShared objects (Temp.replace old new))
      instrs := (pool.instrs.map (Instr.renameShared objects old new)).set i
        (x.rename which old new) }

/-- Gives a register object a new number and home, wherever it stands. -/
def setTemp (pool : Pool) (t : Temp) : Pool :=
  let change (s : Temp) : Temp := if s.key = t.key then t else s
  { operands := pool.operands.map (Operand.mapTemps change)
    instrs := pool.instrs.map (Instr.mapOperands fun _ => Operand.mapTemps change) }

end Pool

end Codegen
