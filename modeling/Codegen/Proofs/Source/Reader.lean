import Codegen.Proofs.Source.Scanned

/-! Reading without tokens and trees: each part is read from an offset, and says at which offset it
ends. Every look at the text is checked, and so is every repetition: it has to start further on. -/
namespace Codegen.Source

/-- How a walk through a text ends without a result: at a fault, by a look at an offset that the
text does not have, or because it would go on from where it was. -/
inductive Halt
  | fault (fault : Fault)
  | outside (offset : Nat)
  | stuck (offset : Nat)
  deriving DecidableEq, Repr

abbrev Walk := StateT Names (Except Halt)

/-- A text, the parameters that can be named, and the constructs that the walk is inside of, the
outermost first. -/
structure Reader where
  text : Bytes
  params : List Bytes := []
  around : List Around := []

namespace Reader

variable {α : Type}

def inside (r : Reader) (a : Around) : Reader := { r with around := r.around ++ [a] }

def naming (r : Reader) (params : List Bytes) : Reader := { r with params }

def context (r : Reader) : Context := ⟨r.text.length, r.params⟩

def ahead (r : Reader) (i : Nat) : Nat := r.text.length - i

def lift (r : Reader) (part : Read α) : Walk α := fun names =>
  (part names).mapError fun fault => .fault { fault with around := r.around ++ fault.around }

def fail (r : Reader) (offset : Nat) (cause : Cause) : Walk α := r.lift (Source.fail offset cause)

/-- What a walk comes to, which may be a fault. -/
def caught (walk : Walk α) : Walk (Except Fault α) := fun names =>
  match walk names with
  | .ok (a, after) => .ok (.ok a, after)
  | .error (.fault fault) => .ok (.error fault, names)
  | .error halt => .error halt

/-- The offset at which a walk ends, be it by a fault. -/
def ended (offset : α → Nat) (walk : Walk α) : Walk Nat := do
  match ← caught walk with
  | .ok a => return offset a
  | .error fault => return fault.offset

/-- Goes on at an offset only if there is less ahead. -/
def onward (i : Nat) (less : Prop) [Decidable less] (go : less → Walk α) : Walk α :=
  if h : less then go h else throw (.stuck i)

section Words

def byteAt (r : Reader) (i : Nat) : Walk UInt8 :=
  match r.text[i]? with
  | some b => pure b
  | none => throw (.outside i)

def slice (r : Reader) (start stop : Nat) : Walk Bytes :=
  if start ≤ stop ∧ stop ≤ r.text.length then pure (r.text.extract start stop)
  else throw (.outside stop)

def differs (r : Reader) (b : UInt8) (i : Nat) : Walk Bool := do
  if i < r.text.length then return (← r.byteAt i) != b else return false

def advance (r : Reader) (goesOn : UInt8 → Bool) (i : Nat) : Walk Nat := do
  if i < r.text.length then
    if goesOn (← r.byteAt i) then r.advance goesOn (i + 1) else return i
  else return i
termination_by r.text.length - i

def skip (r : Reader) (i : Nat) : Walk Nat := do
  if i < r.text.length then
    let b ← r.byteAt i
    if isBlank b then r.skip (i + 1)
    else if b = 59 then
      let e ← r.advance (· != 10) i
      onward e (r.ahead e < r.ahead i) fun _ => r.skip e
    else return i
  else return i
termination_by r.ahead i
decreasing_by
  · simp only [ahead]; omega
  · assumption

def paren (r : Reader) (byte : UInt8) (missing : Cause) (st : Nat) : Walk Nat := do
  let i ← r.skip st
  if i = r.text.length then r.fail i missing
  else if (← r.byteAt i) = byte then return i + 1
  else r.fail i missing

def opening (r : Reader) : Nat → Walk Nat := r.paren 40 .openingExpected

def closing (r : Reader) : Nat → Walk Nat := r.paren 41 .closingExpected

def atom (r : Reader) (st : Nat) : Walk (Bytes × Nat) := do
  let i ← r.advance isAtomByte st
  if i = st then r.fail st .atomExpected
  else return (← r.slice st i, i)

/-- Goes on to the quote that closes. The byte after a backslash is passed over unseen, so that the
offset may be one beyond the end. -/
def quoteEnd (r : Reader) (i : Nat) : Walk Nat := do
  if i < r.text.length then
    let b ← r.byteAt i
    if b = 34 then return i
    else r.quoteEnd (if b = 92 then i + 2 else i + 1)
  else return i
termination_by r.text.length - i
decreasing_by split <;> omega

def valueOf (r : Reader) (st : Nat) (body : Bytes) : Walk Bytes :=
  match Quoted.decode body with
  | some value => pure value
  | none => r.fail st .malformedText

def quoted (r : Reader) (st : Nat) : Walk (Bytes × Nat) := do
  if st = r.text.length then r.fail st .textExpected
  else if (← r.byteAt st) = 34 then
    let i ← r.quoteEnd (st + 1)
    if r.text.length ≤ i then r.fail st .unclosedText
    else
      let whole ← r.slice st (i + 1)
      let value ← r.valueOf st (whole.drop 1).dropLast
      return (value, i + 1)
  else r.fail st .textExpected

def wordAt (r : Reader) (word : Bytes) (st : Nat) : Walk Bool := do
  match ← caught (r.atom st) with
  | .ok (found, _) => return found == word
  | .error _ => return false

def headedAt (r : Reader) (word : Bytes) (st : Nat) : Walk Bool := do
  if r.text.length ≤ st then return false
  else if (← r.byteAt st) = 40 then r.wordAt word (← r.skip (st + 1))
  else return false

end Words

section Nodes

structure Parts where
  node : Reader → Nat → Walk (Node × Nat)
  nodes : Reader → Nat → Walk (List Node × Nat)

/-- A number, which is the only node that is no list. -/
def number (r : Reader) (st : Nat) : Walk (Node × Nat) := do
  let (word, i) ← r.atom st
  match IntLiteral.parse word with
  | some value => return (.const value, i)
  | none => r.fail st (.intExpected word)

def named (r : Reader) (st : Nat) (resolve : Bytes → Read Symbol) : Walk (Symbol × Nat) := do
  let (name, i) ← r.atom st
  let symbol ← r.lift (resolve name)
  return (symbol, i)

/-- What follows the keyword of a node, up to the parenthesis that closes it. -/
def operands (r : Reader) (parts : Parts) (keyword : Keyword) (st : Nat) :
    Walk (Node × Nat) := do
  let i ← r.skip st
  match keyword with
  | .var =>
    let (symbol, i) ← r.named i (resolve r.context)
    return (.var symbol, i)
  | .addr =>
    let (symbol, i) ← r.named i (resolve r.context)
    return (.addr symbol, i)
  | .text =>
    let (name, e) ← r.atom i
    let symbol ← r.lift (resolve r.context name)
    if ← r.lift (isText symbol) then return (.text symbol, e) else r.fail i (.notText name)
  | .mem =>
    let (x, i) ← parts.node r i
    return (.mem x, i)
  | .assign =>
    let (x, i) ← parts.node r i
    let (y, i) ← parts.node r (← r.skip i)
    return (.assign x y, i)
  | .call =>
    let (name, i) ← r.atom i
    let symbol ← r.lift (scopeSymbol name .func)
    let (args, i) ← parts.nodes (r.inside (.call name)) i
    return (.call symbol args, i)
  | .label =>
    let (name, i) ← r.atom i
    return (.label name, i)
  | .jump =>
    let (target, i) ← r.atom i
    return (.jump target, i)
  | .branch =>
    let (x, i) ← parts.node r i
    let (ifTrue, i) ← r.atom (← r.skip i)
    let (ifFalse, i) ← r.atom (← r.skip i)
    return (.branch x ifTrue ifFalse, i)
  | .ret =>
    if ← r.differs 41 i then
      let (x, i) ← parts.node r i
      return (.ret x, i)
    else return (.ret .missing, st)
  | .unary op =>
    let (x, i) ← parts.node r i
    return (.unary op x, i)
  | .binary op =>
    let (x, i) ← parts.node (r.inside (.left op)) i
    let (y, i) ← parts.node (r.inside (.right op)) (← r.skip i)
    return (.binary op x y, i)

mutual

def node (r : Reader) (st : Nat) : Walk (Node × Nat) := do
  if ← r.differs 40 st then r.number st
  else
    let i ← r.opening st
    let kst ← r.skip i
    let (word, i) ← r.atom kst
    match Keyword.ofSpelling? word with
    | some keyword =>
      let parts : Parts :=
        ⟨fun p j => onward j (p.ahead j < r.ahead st) fun _ => p.node j,
          fun p j => onward j (p.ahead j < r.ahead st) fun _ => p.nodes j⟩
      let (x, i) ← r.operands parts keyword i
      let i ← r.closing i
      return (x, i)
    | none => r.fail kst (.unexpectedNode word)
termination_by 2 * r.ahead st

/-- Nodes up to a closing parenthesis, which is not passed over. -/
def nodes (r : Reader) (st : Nat) : Walk (List Node × Nat) := do
  let i ← r.skip st
  if ← r.differs 41 i then
    let (x, i) ← onward i (r.ahead i ≤ r.ahead st) fun _ => r.node i
    let (xs, i) ← onward i (r.ahead i < r.ahead st) fun _ => r.nodes i
    return (x :: xs, i)
  else return ([], i)
termination_by 2 * r.ahead st + 1

end

end Nodes

section Declarations

def paramNames (r : Reader) (seen : List Bytes) (st : Nat) : Walk (List Bytes × Nat) := do
  let i ← r.skip st
  if ← r.differs 41 i then
    let (name, e) ← r.atom i
    if seen.contains name then r.fail i (.duplicateParam name)
    else
      let (names, e) ← onward e (r.ahead e < r.ahead st) fun _ => r.paramNames (name :: seen) e
      return (name :: names, e)
  else return ([], i)
termination_by r.ahead st

def paramList (r : Reader) (st : Nat) : Walk (List Bytes × Nat) := do
  let j ← r.skip st
  if ← r.headedAt paramsMark j then
    let i ← ended id (r.opening j)
    let i ← ended Prod.snd (r.atom (← r.skip i))
    let (params, i) ← r.paramNames [] i
    let i ← r.closing i
    return (params, i)
  else return ([], st)

def mark (r : Reader) (st : Nat) : Walk (Bool × Nat) := do
  let j ← r.skip st
  if ← r.wordAt inlineMark j then
    let i ← ended Prod.snd (r.atom j)
    return (true, i)
  else return (false, st)

def func (r : Reader) (st : Nat) : Walk (Func × Nat) := do
  let nst ← r.skip st
  let (name, i) ← r.atom nst
  let entity ← r.lift (declareName nst name .func)
  let (inlined, i) ← r.mark i
  let (params, i) ← r.paramList i
  let (body, i) ← ((r.naming params).inside (.func name)).nodes i
  return ({ name, symbol := some ⟨.global entity, name⟩, params, inlined, body }, i)

def declared (r : Reader) (program : Program) (keyword : DeclKeyword) (kst st : Nat) :
    Walk (Program × Nat) := do
  match keyword with
  | .var =>
    let nst ← r.skip st
    let (name, i) ← r.atom nst
    let _ ← r.lift (declareName nst name .var)
    return (program, i)
  | .text =>
    let nst ← r.skip st
    let (name, i) ← r.atom nst
    let entity ← r.lift (declareName nst name .text)
    let (value, i) ← r.quoted (← r.skip i)
    r.lift (setValue entity value)
    return (program, i)
  | .func =>
    let (f, i) ← r.func st
    return ({ program with funcs := program.funcs ++ [f] }, i)
  | .init =>
    let (init, i) ← ((r.naming []).inside .init).nodes st
    return ({ program with init }, i)
  | .version => r.fail kst .versionNotFirst

def declaration (r : Reader) (program : Program) (st : Nat) : Walk (Program × Nat) := do
  let i ← r.opening st
  let kst ← r.skip i
  let (word, i) ← r.atom kst
  match DeclKeyword.ofSpelling? word with
  | some keyword =>
    let (program, i) ← r.declared program keyword kst i
    let i ← r.closing i
    return (program, i)
  | none => r.fail kst (.unexpectedDeclaration word)

/-- A version that is known to stand here. Its keyword is looked for right after the parenthesis,
and passed over only there. -/
def version (r : Reader) (st : Nat) : Walk Nat := do
  let i ← ended id (r.opening st)
  let i ← ended Prod.snd (r.atom i)
  let vst ← r.skip i
  let (value, i) ← r.quoted vst
  match Version.parse value with
  | .error fault => r.fail vst (.malformedVersion fault)
  | .ok version =>
    if version.supported then r.closing i else r.fail vst (.unsupportedVersion version)

def declarations (r : Reader) (program : Program) (st : Nat) : Walk (Program × Nat) := do
  let i ← r.skip st
  if i < r.text.length then
    let (program, i) ← r.declaration program i
    onward i (r.ahead i < r.ahead st) fun _ => r.declarations program i
  else return (program, i)
termination_by r.ahead st

def header (r : Reader) (st : Nat) : Walk Nat := do
  let i ← r.skip st
  if ← r.headedAt DeclKeyword.version.spelling i then r.version i else return i

def program (r : Reader) : Walk (Program × Nat) := do
  let i ← r.header 0
  r.declarations {} i

end Declarations

end Reader

/-- Reads a text from offset to offset. -/
def walk (text : Bytes) : Except Halt Program :=
  (Reader.program { text } {}).map fun r => withScope (r.1.1, r.2)

end Codegen.Source
