import Codegen.Program.Basic
import Codegen.Source.Fault
import Codegen.Source.Keyword
import Codegen.Source.Tree
import Codegen.Text.IntLiteral

/-!
# Reading programs

`read` makes a program of a source text. Names are resolved on the way: parameters
first, then the scope, to which a name is added at its first mention. The first fault in
the order of the text is reported.
-/

namespace Codegen.Source

structure Names where
  scope : Scope := {}
  declared : List Bytes := []
  deriving Repr

abbrev Read := StateT Names (Except Fault)

def fail {α : Type} (offset : Nat) (cause : Cause) : Read α :=
  throw ⟨[], offset, cause⟩

def within {α : Type} (a : Around) (part : Read α) : Read α := fun names =>
  (part names).mapError fun fault => { fault with around := a :: fault.around }

structure Context where
  length : Nat
  params : List Bytes := []

/-- Where the items that are left start or, if there are none, where the list ends. -/
def Context.next (cx : Context) (stop : Option Nat) : List Tree → Nat
  | item :: _ => item.start
  | [] => stop.getD cx.length

def atomMissing {α : Type} (cx : Context) (stop : Option Nat) (rest : List Tree) : Read α :=
  fail (cx.next stop rest) .atomExpected

/-- A list that ends before a node: the end of the text lacks its first parenthesis, and
a closing parenthesis is no atom. -/
def nodeMissing {α : Type} (cx : Context) : Option Nat → Read α
  | some stop => fail stop .atomExpected
  | none => fail cx.length .openingExpected

def expectEnd (cx : Context) (stop : Option Nat) (rest : List Tree) : Read Unit :=
  if rest.isEmpty && stop.isSome then pure () else fail (cx.next stop rest) .closingExpected

/-- The scope's entity of a name, added with the given kind if there is none. -/
def scopeSymbol (name : Bytes) (kind : EntityKind) : Read Symbol := fun names =>
  let (i, scope) := names.scope.resolve name kind
  .ok (⟨.global i, name⟩, { names with scope })

/-- The parameter of a name, or else the scope's entity. -/
def resolve (cx : Context) (name : Bytes) : Read Symbol :=
  match cx.params.idxOf? name with
  | some i => pure ⟨.param i, name⟩
  | none => scopeSymbol name .var

def isText (symbol : Symbol) : Read Bool := do
  match symbol.place with
  | .global i => return (← get).scope.entities[i]?.any (·.kind == .text)
  | .param _ => return false

mutual

def readNode (cx : Context) : Tree → Read Node
  | .atom start text =>
    match IntLiteral.parse text with
    | some value => pure (.const value)
    | none => fail start (.intExpected text)
  | .quoted start _ => fail start .atomExpected
  | .unclosed start => fail start .atomExpected
  | .list _ (.atom start spelling :: rest) stop => do
    match Keyword.ofSpelling? spelling, rest with
    | none, _ => fail start (.unexpectedNode spelling)
    | some .var, .atom _ name :: rest =>
      let symbol ← resolve cx name
      expectEnd cx stop rest
      return .var symbol
    | some .var, rest => atomMissing cx stop rest
    | some .addr, .atom _ name :: rest =>
      let symbol ← resolve cx name
      expectEnd cx stop rest
      return .addr symbol
    | some .addr, rest => atomMissing cx stop rest
    | some .text, .atom start name :: rest =>
      let symbol ← resolve cx name
      unless ← isText symbol do
        fail start (.notText name)
      expectEnd cx stop rest
      return .text symbol
    | some .text, rest => atomMissing cx stop rest
    | some .mem, x :: rest =>
      let x ← readNode cx x
      expectEnd cx stop rest
      return .mem x
    | some .mem, [] => nodeMissing cx stop
    | some .assign, l :: r :: rest =>
      let l ← readNode cx l
      let r ← readNode cx r
      expectEnd cx stop rest
      return .assign l r
    | some .assign, [l] => readNode cx l *> nodeMissing cx stop
    | some .assign, [] => nodeMissing cx stop
    | some .call, .atom _ name :: args =>
      let symbol ← scopeSymbol name .func
      let args ← within (.call name) (readNodes cx args)
      expectEnd cx stop []
      return .call symbol args
    | some .call, rest => atomMissing cx stop rest
    | some .label, .atom _ name :: rest =>
      expectEnd cx stop rest
      return .label name
    | some .label, rest => atomMissing cx stop rest
    | some .jump, .atom _ target :: rest =>
      expectEnd cx stop rest
      return .jump target
    | some .jump, rest => atomMissing cx stop rest
    | some .branch, x :: .atom _ ifTrue :: .atom _ ifFalse :: rest =>
      let x ← readNode cx x
      expectEnd cx stop rest
      return .branch x ifTrue ifFalse
    | some .branch, x :: .atom _ _ :: rest => readNode cx x *> atomMissing cx stop rest
    | some .branch, x :: rest => readNode cx x *> atomMissing cx stop rest
    | some .branch, [] => nodeMissing cx stop
    | some .ret, x :: rest =>
      let x ← readNode cx x
      expectEnd cx stop rest
      return .ret x
    | some .ret, [] =>
      expectEnd cx stop []
      return .ret .missing
    | some (.unary op), x :: rest =>
      let x ← readNode cx x
      expectEnd cx stop rest
      return .unary op x
    | some (.unary _), [] => nodeMissing cx stop
    | some (.binary op), l :: r :: rest =>
      let l ← within (.left op) (readNode cx l)
      let r ← within (.right op) (readNode cx r)
      expectEnd cx stop rest
      return .binary op l r
    | some (.binary op), [l] =>
      within (.left op) (readNode cx l) *> within (.right op) (nodeMissing cx stop)
    | some (.binary op), [] => within (.left op) (nodeMissing cx stop)
  | .list _ rest stop => atomMissing cx stop rest

def readNodes (cx : Context) : List Tree → Read (List Node)
  | [] => pure []
  | t :: rest => do
    let x ← readNode cx t
    let xs ← readNodes cx rest
    return x :: xs

end

def readQuoted (cx : Context) (stop : Option Nat) : List Tree → Read (Bytes × List Tree)
  | .quoted start body :: rest =>
    match Quoted.decode body with
    | some value => pure (value, rest)
    | none => fail start .malformedText
  | .unclosed start :: _ => fail start .unclosedText
  | rest => fail (cx.next stop rest) .textExpected

/-- Declares a name, which may have been mentioned before but not declared, and gives
the position of its entity. -/
def declareName (offset : Nat) (name : Bytes) (kind : EntityKind) : Read Nat := do
  let names ← get
  if names.declared.contains name then
    fail offset (.redeclared name)
  let (i, scope) := names.scope.resolve name kind
  set { scope := scope.modify i ({ · with kind }), declared := name :: names.declared : Names }
  return i

def setValue (i : Nat) (value : Bytes) : Read Unit :=
  modify fun names => { names with scope := names.scope.modify i ({ · with value }) }

def readParamNames (cx : Context) (stop : Option Nat) :
    List Bytes → List Tree → Read (List Bytes)
  | seen, .atom start name :: rest => do
    if seen.contains name then
      fail start (.duplicateParam name)
    let names ← readParamNames cx stop (name :: seen) rest
    return name :: names
  | _, [] => do
    expectEnd cx stop []
    return []
  | _, rest => atomMissing cx stop rest

/-- The list of parameters, if the next item is one. -/
def readParams (cx : Context) : List Tree → Read (List Bytes × List Tree)
  | .list start (.atom offset head :: names) stop :: rest => do
    if head == paramsMark then
      return (← readParamNames cx stop [] names, rest)
    else
      return ([], .list start (.atom offset head :: names) stop :: rest)
  | rest => pure ([], rest)

def inlineMarked : List Tree → Bool × List Tree
  | .atom start text :: rest =>
    if text == inlineMark then (true, rest) else (false, .atom start text :: rest)
  | rest => (false, rest)

def readFunc (length : Nat) (stop : Option Nat) : List Tree → Read Func
  | .atom start name :: rest => do
    let i ← declareName start name .func
    let (inlined, rest) := inlineMarked rest
    let (params, rest) ← readParams ⟨length, []⟩ rest
    let body ← within (.func name) (readNodes ⟨length, params⟩ rest)
    expectEnd ⟨length, []⟩ stop []
    return { name, symbol := some ⟨.global i, name⟩, params, inlined, body }
  | rest => atomMissing ⟨length, []⟩ stop rest

/-- Reads one declaration into the program so far. A later `init` takes the place of an
earlier one. -/
def readDeclaration (length : Nat) (program : Program) : Tree → Read Program
  | .list _ (.atom start spelling :: rest) stop => do
    let cx : Context := ⟨length, []⟩
    match DeclKeyword.ofSpelling? spelling, rest with
    | some .var, .atom start name :: rest =>
      let _ ← declareName start name .var
      expectEnd cx stop rest
      return program
    | some .text, .atom start name :: rest =>
      let i ← declareName start name .text
      let (value, rest) ← readQuoted cx stop rest
      setValue i value
      expectEnd cx stop rest
      return program
    | some .var, rest => atomMissing cx stop rest
    | some .text, rest => atomMissing cx stop rest
    | some .func, rest =>
      let f ← readFunc length stop rest
      return { program with funcs := program.funcs ++ [f] }
    | some .init, rest =>
      let init ← within .init (readNodes cx rest)
      expectEnd cx stop []
      return { program with init }
    | some .version, _ => fail start .versionNotFirst
    | none, _ => fail start (.unexpectedDeclaration spelling)
  | .list _ rest stop => atomMissing ⟨length, []⟩ stop rest
  | tree => fail tree.start .openingExpected

/-- Reads a leading version, which has to be a supported one. Its keyword has to follow
the parenthesis at once. -/
def readHeader (length : Nat) : List Tree → Read (List Tree)
  | .list start (.atom offset spelling :: rest) stop :: trees => do
    if spelling == DeclKeyword.version.spelling then
      let cx : Context := ⟨length, []⟩
      unless offset == start + 1 do
        fail offset .textExpected
      let (text, more) ← readQuoted cx stop rest
      match Version.parse text with
      | .error fault => fail (cx.next stop rest) (.malformedVersion fault)
      | .ok version =>
        unless version.supported do
          fail (cx.next stop rest) (.unsupportedVersion version)
      expectEnd cx stop more
      return trees
    else
      return .list start (.atom offset spelling :: rest) stop :: trees
  | trees => pure trees

def readDeclarations (length : Nat) (stray : Option Nat) (program : Program) :
    List Tree → Read Program
  | [] =>
    match stray with
    | none => pure program
    | some offset => fail offset .openingExpected
  | tree :: rest => do
    let program ← readDeclaration length program tree
    readDeclarations length stray program rest

def read (text : Bytes) : Except Fault Program := do
  let found := forest text
  let all : Read Program := do
    let trees ← readHeader text.length found.trees
    readDeclarations text.length found.stray {} trees
  let (program, names) ← all {}
  return { program with scope := names.scope }

end Codegen.Source
