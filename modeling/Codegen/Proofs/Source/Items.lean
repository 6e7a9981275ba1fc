import Codegen.Proofs.Source.Layout

/-! Trees read item by item: what each part of a list takes, and which items it leaves. -/
namespace Codegen.Source

def readWord (cx : Context) (stop : Option Nat) : List Tree → Read (Bytes × List Tree)
  | .atom _ word :: rest => pure (word, rest)
  | rest => atomMissing cx stop rest

theorem readWord_of_ne (cx : Context) (stop : Option Nat) {items : List Tree}
    (other : ∀ start word rest, items ≠ .atom start word :: rest) :
    readWord cx stop items = atomMissing cx stop items := by
  rw [readWord]
  exact other

section Nodes

def readItem (cx : Context) (stop : Option Nat) : List Tree → Read (Node × List Tree)
  | x :: rest => (·, rest) <$> readNode cx x
  | [] => nodeMissing cx stop

/-- What follows the keyword of a node, with the items that are left. -/
def readOperands (cx : Context) (stop : Option Nat) (keyword : Keyword) (items : List Tree) :
    Read (Node × List Tree) := do
  match keyword with
  | .var =>
    let (name, items) ← readWord cx stop items
    return (.var (← resolve cx name), items)
  | .addr =>
    let (name, items) ← readWord cx stop items
    return (.addr (← resolve cx name), items)
  | .text =>
    let (name, rest) ← readWord cx stop items
    let symbol ← resolve cx name
    if ← isText symbol then return (.text symbol, rest)
    else fail (cx.next stop items) (.notText name)
  | .mem =>
    let (x, items) ← readItem cx stop items
    return (.mem x, items)
  | .assign =>
    let (x, items) ← readItem cx stop items
    let (y, items) ← readItem cx stop items
    return (.assign x y, items)
  | .call =>
    let (name, items) ← readWord cx stop items
    let symbol ← scopeSymbol name .func
    let args ← within (.call name) (readNodes cx items)
    return (.call symbol args, [])
  | .label =>
    let (name, items) ← readWord cx stop items
    return (.label name, items)
  | .jump =>
    let (target, items) ← readWord cx stop items
    return (.jump target, items)
  | .branch =>
    let (x, items) ← readItem cx stop items
    let (ifTrue, items) ← readWord cx stop items
    let (ifFalse, items) ← readWord cx stop items
    return (.branch x ifTrue ifFalse, items)
  | .ret =>
    if items.isEmpty then return (.ret .missing, [])
    else
      let (x, items) ← readItem cx stop items
      return (.ret x, items)
  | .unary op =>
    let (x, items) ← readItem cx stop items
    return (.unary op x, items)
  | .binary op =>
    let (x, items) ← within (.left op) (readItem cx stop items)
    let (y, items) ← within (.right op) (readItem cx stop items)
    return (.binary op x y, items)

def readList (cx : Context) (stop : Option Nat) (items : List Tree) : Read Node := do
  let (word, rest) ← readWord cx stop items
  match Keyword.ofSpelling? word with
  | some keyword =>
    let (x, rest) ← readOperands cx stop keyword rest
    expectEnd cx stop rest
    return x
  | none => fail (cx.next stop items) (.unexpectedNode word)

section Missing

variable {α β : Type} (cx : Context) (stop : Option Nat)

@[simp] theorem atomMissing_bind (items : List Tree) (f : α → Read β) :
    (atomMissing cx stop items >>= f) = atomMissing cx stop items := rfl

@[simp] theorem nodeMissing_bind (f : α → Read β) :
    (nodeMissing cx stop >>= f) = nodeMissing cx stop := by
  cases stop <;> rfl

@[simp] theorem within_nodeMissing_bind (a : Around) (f : α → Read β) :
    (within a (nodeMissing cx stop) >>= f) = within a (nodeMissing cx stop) := by
  cases stop <;> rfl

@[simp] theorem within_map (a : Around) (f : α → β) (p : Read α) :
    within a (f <$> p) = f <$> within a p := by
  funext names
  simp only [within, Functor.map, StateT.map, bind, Except.bind]
  cases p names <;> rfl

end Missing

/-- A list is read part by part. -/
theorem readNode_list (cx : Context) (start : Nat) (items : List Tree) (stop : Option Nat) :
    readNode cx (.list start items stop) = readList cx stop items := by
  rcases items with _ | ⟨⟨offset, spelling⟩ | _ | _ | _, items⟩
  case cons.atom =>
    unfold readNode readList
    rw [readWord, pure_bind]
    dsimp only
    cases Keyword.ofSpelling? spelling with
    | none => rfl
    | some keyword =>
      cases keyword with
      | var | addr | label | jump | call =>
        rcases items with _ | ⟨_ | _ | _ | _, items⟩ <;> simp [readOperands, readWord]
      | text =>
        rcases items with _ | ⟨_ | _ | _ | _, items⟩
        case cons.atom =>
          simp only [readOperands, readWord, pure_bind, bind_assoc]
          refine bind_congr fun symbol => bind_congr fun declared => ?_
          cases declared <;> simp
          rfl
        all_goals simp [readOperands, readWord]
      | mem | unary op | ret =>
        rcases items with _ | ⟨x, items⟩ <;> simp [readOperands, readItem]
      | assign | binary op =>
        rcases items with _ | ⟨x, _ | ⟨y, items⟩⟩ <;>
          simp [readOperands, readItem, seqRight_eq_bind]
      | branch =>
        rcases items with _ | ⟨x, _ | ⟨_ | _ | _ | _, items⟩⟩
        case cons.cons.atom =>
          rcases items with _ | ⟨_ | _ | _ | _, items⟩ <;>
            simp [readOperands, readItem, readWord, seqRight_eq_bind]
        all_goals simp [readOperands, readItem, readWord, seqRight_eq_bind]
  all_goals
    unfold readNode
    rfl

end Nodes

section Declarations

/-- Names of parameters, without the end of their list. -/
def readParamWords (cx : Context) (stop : Option Nat) : List Bytes → List Tree → Read (List Bytes)
  | _, [] => pure []
  | seen, t :: rest => do
    let (name, _) ← readWord cx stop (t :: rest)
    if seen.contains name then fail t.start (.duplicateParam name)
    else
      let names ← readParamWords cx stop (name :: seen) rest
      return name :: names

theorem readParamNames_eq (cx : Context) (stop : Option Nat) (seen : List Bytes) (items : List Tree) :
    readParamNames cx stop seen items = do
      let names ← readParamWords cx stop seen items
      expectEnd cx stop []
      return names := by
  induction items generalizing seen with
  | nil => rfl
  | cons t items ih =>
    cases t with
    | atom start name =>
      rw [readParamNames, readParamWords, readWord, pure_bind, ih]
      dsimp only
      split
      · rfl
      · simp
    | quoted start body | unclosed start | list start inner stop' => rfl

def readFuncItems (length : Nat) (stop : Option Nat) (items : List Tree) : Read (Func × List Tree) := do
  let cx : Context := ⟨length, []⟩
  let (name, rest) ← readWord cx stop items
  let i ← declareName (cx.next stop items) name .func
  let (inlined, rest) := inlineMarked rest
  let (params, rest) ← readParams cx rest
  let body ← within (.func name) (readNodes ⟨length, params⟩ rest)
  return ({ name, symbol := some ⟨.global i, name⟩, params, inlined, body }, [])

theorem readFunc_eq (length : Nat) (stop : Option Nat) (items : List Tree) :
    readFunc length stop items = do
      let (f, rest) ← readFuncItems length stop items
      expectEnd ⟨length, []⟩ stop rest
      return f := by
  rcases items with _ | ⟨_ | _ | _ | _, items⟩ <;>
    simp [readFunc, readFuncItems, readWord, Context.next, Tree.start]

def readDeclared (length : Nat) (program : Program) (stop : Option Nat) (keyword : DeclKeyword)
    (start : Nat) (items : List Tree) : Read (Program × List Tree) := do
  let cx : Context := ⟨length, []⟩
  match keyword with
  | .var =>
    let (name, rest) ← readWord cx stop items
    let _ ← declareName (cx.next stop items) name .var
    return (program, rest)
  | .text =>
    let (name, rest) ← readWord cx stop items
    let i ← declareName (cx.next stop items) name .text
    let (value, rest) ← readQuoted cx stop rest
    setValue i value
    return (program, rest)
  | .func =>
    let (f, rest) ← readFuncItems length stop items
    return ({ program with funcs := program.funcs ++ [f] }, rest)
  | .init =>
    let init ← within .init (readNodes cx items)
    return ({ program with init }, [])
  | .version => fail start .versionNotFirst

def readDeclarationItems (length : Nat) (program : Program) (stop : Option Nat) (items : List Tree) :
    Read Program := do
  let cx : Context := ⟨length, []⟩
  let (word, rest) ← readWord cx stop items
  match DeclKeyword.ofSpelling? word with
  | some keyword =>
    let (program, rest) ← readDeclared length program stop keyword (cx.next stop items) rest
    expectEnd cx stop rest
    return program
  | none => fail (cx.next stop items) (.unexpectedDeclaration word)

theorem readDeclaration_list (length : Nat) (program : Program) (start : Nat) (items : List Tree)
    (stop : Option Nat) :
    readDeclaration length program (.list start items stop) =
      readDeclarationItems length program stop items := by
  rcases items with _ | ⟨⟨offset, spelling⟩ | _ | _ | _, items⟩
  case cons.atom =>
    unfold readDeclaration readDeclarationItems
    simp only [readWord, pure_bind]
    cases DeclKeyword.ofSpelling? spelling with
    | none => rfl
    | some keyword =>
      cases keyword with
      | var | text =>
        rcases items with _ | ⟨_ | _ | _ | _, items⟩ <;>
          simp [readDeclared, readWord, Context.next, Tree.start]
      | func => simp [readDeclared, readFunc_eq]
      | init => simp [readDeclared]
      | version => rfl
  all_goals rfl

end Declarations

end Codegen.Source
