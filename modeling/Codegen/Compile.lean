import Codegen.Flow.Arrange
import Codegen.Select.Func
import Codegen.Source.Read

/-!
# Compilation

From a source text, or a program, to routines with their code laid out.
-/

namespace Codegen

structure Compiled where
  routines : List Routine
  scope : Scope
  init : List Node

/-- Selects instructions for all functions, then analyzes their control flow. -/
def generate (options : Select.Options) (program : Program) : Except Failure Compiled := do
  let routines ← (Select.generateFuncs options program.funcs).mapError fun fault : Fault =>
    .fault (fault.inside .emission)
  let (result, _, routines) := Flow.arrangeAll 0 routines
  result.mapError (Failure.inside .analysis)
  return { routines, scope := program.scope, init := program.init }

inductive CompileError
  | unreadable (fault : Source.Fault)
  | failed (failure : Failure)
  deriving DecidableEq, Repr

def compile (options : Select.Options) (text : Bytes) : Except CompileError Compiled := do
  let program ← (Source.read text).mapError .unreadable
  (generate options program).mapError .failed

/-- The text of an error in the named source; a reference to nothing has none. -/
def CompileError.message? (name text : Bytes) : CompileError → Option Bytes
  | unreadable fault => some (ascii "parse text: " ++ fault.message name text)
  | failed (.fault fault) => some (ascii "lower: " ++ fault.message)
  | failed .dangling => none

end Codegen
