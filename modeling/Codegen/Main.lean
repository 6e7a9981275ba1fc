import Codegen.Command

/-!
# Command line

Reads the files that a command names, prints what the command says and reports its error.
-/

namespace Codegen.Main

def bytes (s : String) : Bytes :=
  s.toUTF8.toList

def print (stream : IO.FS.Stream) (text : Bytes) : IO Unit := do
  stream.write (ByteArray.mk text.toArray)
  stream.flush

def contents (name : String) : IO (Except FileError Bytes) := do
  try
    return .ok (← IO.FS.readBinFile name).toList
  catch
    | .noFileOrDirectory .. => return .error .notFound
    | .inappropriateType .. => return .error (.unreadable (ascii "is a directory"))
    | .permissionDenied .. => return .error (.unopened (ascii "permission denied"))
    | e => return .error (.unreadable (bytes (toString e)))

def files (names : List String) : IO (Bytes → Except FileError Bytes) := do
  let found ← names.mapM fun name => return (bytes name, ← contents name)
  return fun name => (found.lookup name).getD (.error .notFound)

def report (outcome : Outcome) : IO Bool := do
  print (← IO.getStdout) outcome.output
  match outcome.error with
  | none => return true
  | some error =>
    let message := error.message?.getD (ascii "internal compiler error")
    print (← IO.getStderr) (message ++ [10])
    return false

/-- Lists a file again whenever its contents have changed. -/
partial def follow (known : List (String × Except FileError Bytes)) : IO Unit := do
  IO.sleep 200
  let known ← known.mapM fun (name, old) => do
    let new ← contents name
    unless new.toOption == old.toOption do
      let _ ← report ((Command.code [bytes name]).run fun _ => new)
    return (name, new)
  follow known

def watch (names : List String) : IO UInt32 := do
  let ok ← report ((Command.watch (names.map bytes)).run (← files names))
  if names.isEmpty then
    return if ok then 0 else 1
  follow (← names.mapM fun name => return (name, ← contents name))
  return 0

end Codegen.Main

open Codegen Codegen.Main in
def main (args : List String) : IO UInt32 := do
  match args with
  | "watch" :: names => watch names
  | "ins" :: names => code (← report ((Command.code (names.map bytes)).run (← files names)))
  | "blocks" :: names =>
    code (← report ((Command.blocks (names.map bytes)).run (← files names)))
  | "regs" :: names => code (← report ((Command.registers (names.map bytes)).run (← files [])))
  | _ =>
    print (← IO.getStderr) (ascii "usage: (ins | blocks | watch) FILE... | regs [NAME...]\n")
    return 2
where
  code (ok : Bool) : IO UInt32 :=
    return if ok then 0 else 1
