import Codegen.Bytes

/-!
# Tokens of a source text

Blanks and comments divide tokens. A comment starts with a semicolon and goes on to the
end of its line. An atom is a longest run of bytes that are no blank, parenthesis, quote
or semicolon. In a quoted token a backslash protects the byte after it.
-/

namespace Codegen.Source

/-- `quoted` holds what stands between the quotes. A quote that nothing closes takes the
rest of the text. -/
inductive Token
  | opening
  | closing
  | atom (text : Bytes)
  | quoted (body : Bytes)
  | unclosed
  deriving DecidableEq, Repr

structure Lexeme where
  token : Token
  start : Nat
  deriving DecidableEq, Repr

def isBlank (b : UInt8) : Bool :=
  b == 32 || b == 9 || b == 13 || b == 10

def isAtomByte (b : UInt8) : Bool :=
  !(isBlank b || b == 40 || b == 41 || b == 34 || b == 59)

/-- What the scan is inside of. An atom and a quoted token carry their start and their
bytes so far, the last byte first; `isProtected` says that a backslash came before. -/
inductive Scan
  | between
  | comment
  | atom (start : Nat) (text : Bytes)
  | quoted (start : Nat) (body : Bytes) (isProtected : Bool)
  deriving DecidableEq, Repr

/-- What a byte outside atoms and quotes begins, and the token that it is. -/
def begin (offset : Nat) (b : UInt8) : Scan × List Lexeme :=
  if isBlank b then (.between, [])
  else if b = 59 then (.comment, [])
  else if b = 40 then (.between, [⟨.opening, offset⟩])
  else if b = 41 then (.between, [⟨.closing, offset⟩])
  else if b = 34 then (.quoted offset [] false, [])
  else (.atom offset [b], [])

def step (offset : Nat) (b : UInt8) : Scan → Scan × List Lexeme
  | .between => begin offset b
  | .comment => (if b = 10 then .between else .comment, [])
  | .atom start text =>
    if isAtomByte b then (.atom start (b :: text), [])
    else
      let (next, found) := begin offset b
      (next, ⟨.atom text.reverse, start⟩ :: found)
  | .quoted start body isProtected =>
    if isProtected then (.quoted start (b :: body) false, [])
    else if b = 34 then (.between, [⟨.quoted body.reverse, start⟩])
    else (.quoted start (b :: body) (b == 92), [])

def finish : Scan → List Lexeme
  | .between => []
  | .comment => []
  | .atom start text => [⟨.atom text.reverse, start⟩]
  | .quoted start _ _ => [⟨.unclosed, start⟩]

def scanFrom (scan : Scan) (offset : Nat) : Bytes → List Lexeme
  | [] => finish scan
  | b :: rest =>
    let (next, found) := step offset b scan
    found ++ scanFrom next (offset + 1) rest

def lexemes (text : Bytes) : List Lexeme :=
  scanFrom .between 0 text

def tokens (text : Bytes) : List Token :=
  (lexemes text).map Lexeme.token

end Codegen.Source
