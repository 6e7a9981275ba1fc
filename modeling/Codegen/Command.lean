import Codegen.Compile
import Codegen.Listing

/-!
# Commands

What the command line does, as a function of the files it reads.
-/

namespace Codegen

inductive Command
  /-- Lists the code of source files. -/
  | code (files : List Bytes)
  /-- Lists the blocks of source files. -/
  | blocks (files : List Bytes)
  /-- Describes the named registers, or all of them. -/
  | registers (names : List Bytes)
  /-- Lists the code of source files whenever they change. -/
  | watch (files : List Bytes)
  deriving DecidableEq, Repr

inductive FileError
  | notFound
  | unopened (reason : Bytes)
  | unreadable (reason : Bytes)
  deriving DecidableEq, Repr

inductive CommandError
  | file (name : Bytes) (error : FileError)
  | compile (name text : Bytes) (error : CompileError)
  | dangling
  | unknownRegister (name : Bytes)
  | nothingToWatch
  deriving DecidableEq, Repr

/-- What a command prints, and how it fails after that. -/
structure Outcome where
  output : Bytes := []
  error : Option CommandError := none
  deriving DecidableEq, Repr

def FileError.message (name : Bytes) : FileError → Bytes
  | notFound => ascii "open " ++ name ++ ascii ": no such file or directory"
  | unopened reason => ascii "open " ++ name ++ ascii ": " ++ reason
  | unreadable reason => ascii "read " ++ name ++ ascii ": " ++ reason

namespace CommandError

def message? : CommandError → Option Bytes
  | file name error =>
    some (ascii "lower " ++ name ++ ascii ": read file: " ++ error.message name)
  | compile name text error =>
    (error.message? name text).map (ascii "lower " ++ name ++ ascii ": " ++ ·)
  | dangling => none
  | unknownRegister name => some (ascii "unknown register: " ++ name)
  | nothingToWatch => some (ascii "no files to watch")

def isInternal : CommandError → Bool
  | compile _ _ (.failed (.fault _)) => true
  | _ => false

end CommandError

namespace Command

def listFile (list? : Routine → Option Bytes) (name : Bytes)
    (contents : Except FileError Bytes) : Except CommandError Bytes := do
  let text ← contents.mapError (.file name)
  let compiled ← (compile {} text).mapError (.compile name text)
  match compiled.routines.mapM list? with
  | some listings => return listings.flatten
  | none => throw .dangling

/-- The listings of files up to the first that fails. -/
def listFiles (read : Bytes → Except FileError Bytes) (list? : Routine → Option Bytes) :
    List Bytes → Outcome
  | [] => {}
  | name :: rest =>
    match listFile list? name (read name) with
    | .ok listing =>
      let outcome := listFiles read list? rest
      { outcome with output := listing ++ outcome.output }
    | .error error => { error := some error }

/-- The registers of the given names, or all of them if none is given. -/
def namedRegisters (names : List Bytes) : Except CommandError (List Register) :=
  if names.isEmpty then .ok Register.all
  else names.mapM fun name =>
    match Register.ofName? name with
    | some r => .ok r
    | none => .error (.unknownRegister name)

/-- The first round of a command; only `watch` has more. -/
def run (read : Bytes → Except FileError Bytes) : Command → Outcome
  | code files => listFiles read Listing.code? files
  | blocks files => listFiles read Listing.blocks? files
  | registers names =>
    match namedRegisters names with
    | .ok rs => { output := rs.flatMap Register.describe }
    | .error error => { error := some error }
  | watch [] => { error := some .nothingToWatch }
  | watch files => listFiles read Listing.code? files

end Command

end Codegen
