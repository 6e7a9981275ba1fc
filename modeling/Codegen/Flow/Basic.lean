import Codegen.Fault
import Codegen.Routine

/-!
# Passes over a routine

A pass changes a routine step by step. One that fails leaves what it did before, and the
count of the labels that passes have made up goes on.
-/

namespace Codegen.Flow

structure State where
  labels : Nat
  routine : Routine
  deriving Repr

abbrev Pass := ExceptT Failure (StateM State)

def fault {α : Type} (cause : Cause) : Pass α :=
  throw (.fault ⟨[], cause⟩)

def within {α : Type} (place : Inside) (stage : Pass α) : Pass α :=
  ExceptT.mk do
    let result ← stage.run
    return result.mapError (Failure.inside place)

def modifyRoutine (f : Routine → Routine) : Pass Unit :=
  modify fun s => { s with routine := f s.routine }

end Codegen.Flow
