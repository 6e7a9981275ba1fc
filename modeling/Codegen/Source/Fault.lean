import Codegen.Program.Operator
import Codegen.Text.Quoted
import Codegen.Version

/-!
# Faults of a source text

A fault has a cause, the offset where it was noticed, and the constructs around it.
-/

namespace Codegen.Source

inductive Cause
  | openingExpected
  | closingExpected
  | atomExpected
  | textExpected
  | unclosedText
  | malformedText
  | intExpected (atom : Bytes)
  | unexpectedDeclaration (keyword : Bytes)
  | versionNotFirst
  | unexpectedNode (keyword : Bytes)
  | redeclared (name : Bytes)
  | duplicateParam (name : Bytes)
  | notText (name : Bytes)
  | malformedVersion (fault : Version.Fault)
  | unsupportedVersion (version : Version)
  deriving DecidableEq, Repr

inductive Around
  | func (name : Bytes)
  | init
  | call (name : Bytes)
  | left (op : BinaryOp)
  | right (op : BinaryOp)
  deriving DecidableEq, Repr

/-- The outermost construct comes first. -/
structure Fault where
  around : List Around := []
  offset : Nat
  cause : Cause
  deriving DecidableEq, Repr

def Cause.message : Cause → Bytes
  | .openingExpected => ascii "'(' expected"
  | .closingExpected => ascii "')' expected"
  | .atomExpected => ascii "atom expected"
  | .textExpected => ascii "string expected"
  | .unclosedText => ascii "unterminated string"
  | .malformedText => ascii "string: invalid syntax"
  | .intExpected atom => ascii "int expected: " ++ Quoted.encode atom
  | .unexpectedDeclaration keyword => ascii "unexpected declaration: " ++ keyword
  | .versionNotFirst => ascii "version must be the first declaration"
  | .unexpectedNode keyword => ascii "unexpected node: " ++ keyword
  | .redeclared name => ascii "redeclared: " ++ name
  | .duplicateParam name => ascii "duplicate param: " ++ name
  | .notText name => ascii "not a string: " ++ name
  | .malformedVersion fault => ascii "version: " ++ fault.message
  | .unsupportedVersion version =>
    ascii "unsupported version " ++ version.text ++ ascii ", want " ++ Version.supportedRange

def Around.message : Around → Bytes
  | .func name => ascii "func " ++ name
  | .init => ascii "init"
  | .call name => ascii "call " ++ name
  | .left op => op.text ++ ascii ": left"
  | .right op => op.text ++ ascii ": right"

/-- Line and column of an offset, both counted from one; columns count bytes. -/
def position (text : Bytes) (offset : Nat) : Nat × Nat :=
  let before := text.take offset
  (1 + before.count 10, 1 + (before.reverse.takeWhile (· != 10)).length)

/-- Constructs around, then the place in the named text, then the cause. -/
def Fault.message (fault : Fault) (name text : Bytes) : Bytes :=
  let (line, column) := position text fault.offset
  fault.around.flatMap (fun a => a.message ++ ascii ": ") ++
    name ++ ascii ":" ++ decimal line ++ ascii ":" ++ decimal column ++ ascii ": " ++
    fault.cause.message

end Codegen.Source
