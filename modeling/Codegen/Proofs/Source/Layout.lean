import Codegen.Proofs.Source.Outcome

/-! Where the tokens of a text stand does not matter to what it says, with one exception: the
keyword of a version has to follow its parenthesis at once. -/
namespace Codegen.Source

mutual

def Tree.unplaced : Tree → Tree
  | .atom _ text => .atom 0 text
  | .quoted _ body => .quoted 0 body
  | .unclosed _ => .unclosed 0
  | .list _ items stop => .list 0 (unplacedAll items) (stop.map fun _ => 0)

def unplacedAll : List Tree → List Tree
  | [] => []
  | t :: rest => t.unplaced :: unplacedAll rest

end

theorem unplacedAll_eq_map (ts : List Tree) : unplacedAll ts = ts.map Tree.unplaced := by
  induction ts with
  | nil => rfl
  | cons t rest ih => rw [unplacedAll, ih, List.map_cons]

theorem Tree.induction {P : Tree → Prop} (atom : ∀ start text, P (.atom start text))
    (quoted : ∀ start body, P (.quoted start body)) (unclosed : ∀ start, P (.unclosed start))
    (list : ∀ start items stop, (∀ t ∈ items, P t) → P (.list start items stop)) : ∀ t, P t
  | .atom start text => atom start text
  | .quoted start body => quoted start body
  | .unclosed start => unclosed start
  | .list start items stop =>
    list start items stop fun t _ => Tree.induction atom quoted unclosed list t

def Form.unplaced (form : Form) : Form := { form with parts := unplacedAll form.parts }

theorem form?_unplaced (keyword : Keyword) (rest : List Tree) :
    keyword.form? (unplacedAll rest) = (keyword.form? rest).map Form.unplaced := by
  cases keyword with
  | mem | unary op | ret => rcases rest with _ | ⟨x, _ | ⟨y, rest⟩⟩ <;> rfl
  | assign | binary op => rcases rest with _ | ⟨x, _ | ⟨y, _ | ⟨z, rest⟩⟩⟩ <;> rfl
  | var | addr | text | label | jump => rcases rest with _ | ⟨_ | _ | _ | _, _ | ⟨y, rest⟩⟩ <;> rfl
  | call => rcases rest with _ | ⟨_ | _ | _ | _, args⟩ <;> rfl
  | branch =>
    rcases rest with _ | ⟨x, _ | ⟨_ | _ | _ | _, _ | ⟨_ | _ | _ | _, _ | ⟨z, rest⟩⟩⟩⟩ <;> rfl

theorem mem_of_mem_parts {keyword : Keyword} {rest : List Tree} {form : Form}
    (formed : keyword.form? rest = some form) {t : Tree} (inside : t ∈ form.parts) :
    t ∈ rest := by
  revert formed
  fun_cases Keyword.form? keyword rest <;> intro formed <;> cases formed <;>
    simp_all [Form.named, Form.plain]

section Nodes

def Context.unplaced (cx : Context) : Context := { cx with length := 0 }

theorem readNodes_unplaced_of {cx : Context} {ts : List Tree}
    (each : ∀ t ∈ ts, attempt (readNode cx.unplaced t.unplaced) = attempt (readNode cx t)) :
    attempt (readNodes cx.unplaced (unplacedAll ts)) = attempt (readNodes cx ts) := by
  induction ts with
  | nil => rfl
  | cons t rest ih =>
    rw [List.forall_mem_cons] at each
    rw [unplacedAll, readNodes, readNodes, attempt_bind, attempt_bind, each.1]
    simp only [attempt_bind, ih each.2]

theorem readNode_unplaced (cx : Context) (t : Tree) :
    attempt (readNode cx.unplaced t.unplaced) = attempt (readNode cx t) := by
  induction t using Tree.induction with
  | atom start text =>
    rw [Tree.unplaced, attempt_readNode_atom, attempt_readNode_atom]
  | quoted start body => rfl
  | unclosed start => rfl
  | list start items stop below =>
    rcases items with _ | ⟨head, rest⟩
    · rfl
    cases head with
    | atom offset spelling =>
      rw [Tree.unplaced, unplacedAll, Tree.unplaced, attempt_readNode_list, attempt_readNode_list]
      cases Keyword.ofSpelling? spelling with
      | none => rfl
      | some keyword =>
        rw [Option.bind_some, Option.bind_some, form?_unplaced]
        cases formed : keyword.form? rest with
        | none => rfl
        | some form =>
          have parts := readNodes_unplaced_of fun t inside =>
            below t (List.mem_cons_of_mem _ (mem_of_mem_parts formed inside))
          cases stop with
          | none => rfl
          | some stop =>
            simp only [Option.map_some, readForm, Option.isSome_some, if_true, Form.read,
              Form.unplaced, Context.unplaced] at parts ⊢
            rw [parts]
    | quoted offset body => rfl
    | unclosed offset => rfl
    | list offset items stop => rfl

theorem readNodes_unplaced (cx : Context) (ts : List Tree) :
    attempt (readNodes cx.unplaced (unplacedAll ts)) = attempt (readNodes cx ts) :=
  readNodes_unplaced_of fun t _ => readNode_unplaced cx t

end Nodes

section Declarations

theorem attempt_declareName (offset : Nat) (name : Bytes) (kind : EntityKind) :
    attempt (declareName offset name kind) = attempt (declareName 0 name kind) := by
  simp [declareName]

theorem readQuoted_unplaced (cx : Context) (stop : Option Nat) (rest : List Tree) :
    attempt (readQuoted cx.unplaced (stop.map fun _ => 0) (unplacedAll rest)) =
      Prod.map id unplacedAll <$> attempt (readQuoted cx stop rest) := by
  rcases rest with _ | ⟨_ | _ | _ | _, rest⟩
  case cons.quoted body =>
    rw [unplacedAll, Tree.unplaced, readQuoted, readQuoted]
    cases Quoted.decode body <;> rfl
  all_goals rfl

theorem attempt_readQuoted (cx : Context) (stop : Option Nat) (rest : List Tree) :
    attempt (readQuoted cx stop rest) = attempt (readQuoted ⟨0, []⟩ stop rest) := by
  rcases rest with _ | ⟨_ | _ | _ | _, rest⟩ <;> rfl

theorem expectEnd_unplaced (cx : Context) (stop : Option Nat) (rest : List Tree) :
    attempt (expectEnd cx.unplaced (stop.map fun _ => 0) (unplacedAll rest)) =
      attempt (expectEnd cx stop rest) := by
  rw [attempt_expectEnd, attempt_expectEnd]
  cases rest <;> cases stop <;> rfl

theorem readParamNames_unplaced (cx : Context) (stop : Option Nat) (seen : List Bytes)
    (rest : List Tree) :
    attempt (readParamNames cx.unplaced (stop.map fun _ => 0) seen (unplacedAll rest)) =
      attempt (readParamNames cx stop seen rest) := by
  induction rest generalizing seen with
  | nil =>
    have ends := expectEnd_unplaced cx stop []
    rw [unplacedAll] at ends ⊢
    rw [readParamNames, readParamNames, attempt_bind, attempt_bind, ends]
  | cons t rest ih =>
    cases t with
    | atom start name =>
      rw [unplacedAll, Tree.unplaced, readParamNames, readParamNames]
      simp [ih]
    | _ => rfl

theorem inlineMarked_unplaced (rest : List Tree) :
    inlineMarked (unplacedAll rest) = Prod.map id unplacedAll (inlineMarked rest) := by
  rcases rest with _ | ⟨_ | _ | _ | _, rest⟩
  case cons.atom text =>
    rw [unplacedAll, Tree.unplaced, inlineMarked, inlineMarked]
    split <;> rfl
  all_goals rfl

theorem readParams_unplaced (cx : Context) (rest : List Tree) :
    attempt (readParams cx.unplaced (unplacedAll rest)) =
      Prod.map id unplacedAll <$> attempt (readParams cx rest) := by
  rcases rest with _ | ⟨_ | _ | _ | ⟨start, _ | ⟨_ | _ | _ | _, names⟩, stop⟩, rest⟩
  case cons.list.cons.atom head =>
    simp only [unplacedAll, Tree.unplaced, readParams, attempt_ite]
    split
    · simp [readParamNames_unplaced, Prod.map]
    · rfl
  all_goals rfl

theorem readFunc_unplaced (length : Nat) (stop : Option Nat) (rest : List Tree) :
    attempt (readFunc 0 (stop.map fun _ => 0) (unplacedAll rest)) =
      attempt (readFunc length stop rest) := by
  rcases rest with _ | ⟨_ | _ | _ | _, rest⟩
  case cons.atom start name =>
    have params (rest : List Tree) := readParams_unplaced ⟨length, []⟩ rest
    have nodes (params : List Bytes) (rest : List Tree) :=
      readNodes_unplaced ⟨length, params⟩ rest
    simp only [Context.unplaced] at params nodes
    simp only [unplacedAll, Tree.unplaced, readFunc, attempt_bind, attempt_within, attempt_pure,
      attempt_declareName start, attempt_expectEnd, inlineMarked_unplaced, Prod.map_fst,
      Prod.map_snd, params, bind_map_left, nodes, Option.isSome_map, id_eq]
  all_goals rfl

theorem readDeclaration_unplaced (length : Nat) (program : Program) (t : Tree) :
    attempt (readDeclaration 0 program t.unplaced) = attempt (readDeclaration length program t) := by
  rcases t with _ | _ | _ | ⟨start, _ | ⟨_ | _ | _ | _, rest⟩, stop⟩
  case list.cons.atom offset spelling =>
    unfold readDeclaration
    simp only [Tree.unplaced, unplacedAll]
    have quoted (rest : List Tree) := readQuoted_unplaced ⟨length, []⟩ stop rest
    have nodes (rest : List Tree) := readNodes_unplaced ⟨length, []⟩ rest
    have ends (rest : List Tree) := expectEnd_unplaced ⟨length, []⟩ stop rest
    simp only [Context.unplaced] at quoted nodes ends
    cases DeclKeyword.ofSpelling? spelling with
    | none => rfl
    | some keyword =>
      cases keyword with
      | var =>
        rcases rest with _ | ⟨_ | _ | _ | _, rest⟩
        case cons.atom start name =>
          simp only [unplacedAll, Tree.unplaced, attempt_bind, attempt_declareName start, ends]
        all_goals rfl
      | text =>
        rcases rest with _ | ⟨_ | _ | _ | _, rest⟩
        case cons.atom start name =>
          simp only [unplacedAll, Tree.unplaced, attempt_bind, attempt_declareName start, ends,
            quoted, bind_map_left, Prod.map_fst, Prod.map_snd, id_eq]
        all_goals rfl
      | func => simp only [attempt_bind, readFunc_unplaced length]
      | init =>
        have closes := ends []
        rw [unplacedAll] at closes
        simp only [attempt_bind, attempt_within, nodes, closes]
      | version => rfl
  all_goals rfl

theorem readDeclarations_unplaced (length : Nat) (stray : Option Nat) (program : Program)
    (ts : List Tree) :
    attempt (readDeclarations 0 (stray.map fun _ => 0) program (unplacedAll ts)) =
      attempt (readDeclarations length stray program ts) := by
  induction ts generalizing program with
  | nil => cases stray <;> rfl
  | cons t rest ih =>
    simp only [unplacedAll, readDeclarations, attempt_bind, ih, readDeclaration_unplaced length]

end Declarations

section Header

def isSupported (text : Bytes) : Bool :=
  match Version.parse text with
  | .ok version => version.supported
  | .error _ => false

/-- A leading version, wherever its keyword stands. -/
def header : List Tree → Attempt (List Tree)
  | .list start (.atom offset spelling :: rest) stop :: trees =>
    if spelling == DeclKeyword.version.spelling then do
      let (text, more) ← attempt (readQuoted ⟨0, []⟩ stop rest)
      if isSupported text && (more.isEmpty && stop.isSome) then return trees else failure
    else return .list start (.atom offset spelling :: rest) stop :: trees
  | trees => pure trees

/-- The keyword of a version stands apart from its parenthesis. -/
def Forest.detached (found : Forest) : Bool :=
  match found.trees with
  | .list start (.atom offset spelling :: _) _ :: _ =>
    spelling == DeclKeyword.version.spelling && offset != start + 1
  | _ => false

theorem attempt_readHeader (length : Nat) (trees : List Tree) (stray : Option Nat) :
    attempt (readHeader length trees) =
      if Forest.detached ⟨trees, stray⟩ then failure else header trees := by
  rcases trees with _ | ⟨_ | _ | _ | ⟨start, _ | ⟨_ | _ | _ | _, rest⟩, stop⟩, trees⟩
  case cons.list.cons.atom offset spelling =>
    rw [readHeader, header, attempt_ite, Forest.detached]
    by_cases isVersion : (spelling == DeclKeyword.version.spelling) = true
    · by_cases follows : (offset == start + 1) = true
      · simp only [isVersion, follows, bne, Bool.not_true, Bool.and_false, Bool.false_eq_true,
          if_true, if_false, attempt_bind, attempt_readQuoted ⟨length, []⟩]
        apply congrArg
        funext found
        cases parsed : Version.parse found.1 with
        | error fault => simp [isSupported, parsed]
        | ok version => cases supported : version.supported <;> simp [isSupported, parsed, supported]
      · simp [isVersion, follows, bne]
    · simp [isVersion]
  all_goals rfl

theorem header_unplaced (trees : List Tree) :
    header (unplacedAll trees) = unplacedAll <$> header trees := by
  rcases trees with _ | ⟨_ | _ | _ | ⟨start, _ | ⟨_ | _ | _ | _, rest⟩, stop⟩, trees⟩
  case cons.list.cons.atom offset spelling =>
    have quoted := readQuoted_unplaced ⟨0, []⟩ stop rest
    simp only [Context.unplaced] at quoted
    simp only [unplacedAll, Tree.unplaced, header, quoted]
    split
    · simp [unplacedAll_eq_map]
    · rfl
  all_goals rfl

end Header

section Tokens

def Pending.unplaced (p : Pending) : Pending := ⟨0, unplacedAll p.items⟩

def Forest.unplaced (found : Forest) : Forest :=
  ⟨unplacedAll found.trees, found.stray.map fun _ => 0⟩

/-- Trees of tokens that stand nowhere. -/
def grouped (ts : List Token) : Forest := group [] [] (ts.map fun t => ⟨t, 0⟩)

theorem unwind_unplaced (around : List Pending) (items : List Tree) :
    unwind (around.map Pending.unplaced) (unplacedAll items) =
      unplacedAll (unwind around items) := by
  induction around generalizing items with
  | nil => simp [unwind, unplacedAll_eq_map]
  | cons outer around ih =>
    simp only [List.map_cons, unwind, ← ih]
    simp [unplacedAll, Tree.unplaced, Pending.unplaced, unplacedAll_eq_map]

theorem group_unplaced (around : List Pending) (items : List Tree) (ls : List Lexeme) :
    group (around.map Pending.unplaced) (unplacedAll items) (ls.map fun l => ⟨l.token, 0⟩) =
      (group around items ls).unplaced := by
  induction ls generalizing around items with
  | nil => simp [group, Forest.unplaced, unwind_unplaced]
  | cons l ls ih =>
    obtain ⟨token, start⟩ := l
    cases token with
    | closing =>
      cases around with
      | nil => simp [group, Forest.unplaced, unplacedAll_eq_map]
      | cons outer around =>
        rw [group, ← ih]
        simp [group, unplacedAll, Tree.unplaced, Pending.unplaced, unplacedAll_eq_map]
    | opening => exact ih (⟨start, items⟩ :: around) []
    | atom text => exact ih around (.atom start text :: items)
    | quoted body => exact ih around (.quoted start body :: items)
    | unclosed => exact ih around (.unclosed start :: items)

theorem forest_unplaced (text : Bytes) : (forest text).unplaced = grouped (tokens text) := by
  rw [forest, ← group_unplaced, grouped, tokens, List.map_map]
  rfl

def withScope (r : Program × Names) : Program := { r.1 with scope := r.2.scope }

def readForest (length : Nat) (found : Forest) : Read Program :=
  readHeader length found.trees >>= readDeclarations length found.stray {}

theorem read_toOption (text : Bytes) :
    (read text).toOption = (attempt (readForest text.length (forest text)) {}).map withScope := by
  have opened : read text = (readForest text.length (forest text) {}).map withScope := rfl
  rw [opened, attempt]
  cases readForest text.length (forest text) {} <;> rfl

/-- What tokens say, wherever they stand. -/
def outcome (ts : List Token) : Option Program :=
  let found := grouped ts
  let all := header found.trees >>= fun trees =>
    attempt (readDeclarations 0 found.stray {} trees)
  (all {}).map withScope

def detached (text : Bytes) : Bool := (forest text).detached

theorem read_eq_outcome (text : Bytes) :
    (read text).toOption = if detached text then none else outcome (tokens text) := by
  rw [read_toOption, readForest, attempt_bind, attempt_readHeader _ _ (forest text).stray, detached,
    outcome, ← forest_unplaced]
  split
  · rfl
  · simp only [Forest.unplaced, header_unplaced, bind_map_left,
      readDeclarations_unplaced text.length]

end Tokens

/-- Texts with the same tokens say the same if the keyword of a version stands apart from its
parenthesis in both or in none, and one where it does is refused. -/
theorem read_eq_of_tokens_eq {a b : Bytes} (same : tokens a = tokens b) :
    (detached a = detached b → (read a).toOption = (read b).toOption) ∧
      (detached a = true → ∃ fault, read a = .error fault) := by
  constructor
  · intro alike
    rw [read_eq_outcome, read_eq_outcome, same, alike]
  · intro apart
    have refused := read_eq_outcome a
    rw [apart, if_pos rfl] at refused
    cases reading : read a with
    | error fault => exact ⟨fault, rfl⟩
    | ok program => simp [reading, Except.toOption] at refused

def compactText : Bytes :=
  ascii "(version\"1.0.0\")(string s\";(\")(func f inline(params s)(return(var s)))"

def spreadText : Bytes :=
  ascii "; (\"\n(version\t\"1.0.0\" )\r\n( string s \";(\" )" ++
    ascii "\n( func;)\nf inline ( params s )\n\t( return ( var s ) ) );"

theorem read_compactText_spreadText : tokens compactText = tokens spreadText ∧
    (read compactText).toOption.isSome = true ∧
    (read compactText).toOption = (read spreadText).toOption := by
  have same : tokens compactText = tokens spreadText := by decide +kernel
  exact ⟨same, by decide +kernel, (read_eq_of_tokens_eq same).1 (by decide +kernel)⟩

/-- A blank before the keyword of a version is enough for a text to be refused. -/
theorem read_detached_version :
    tokens (ascii "( version \"1.0.0\")") = tokens (ascii "(version \"1.0.0\")") ∧
      read (ascii "( version \"1.0.0\")") = .error ⟨[], 2, .textExpected⟩ ∧
      read (ascii "(version \"1.0.0\")") = .ok {} := by
  exact ⟨by cbv, by cbv, by cbv⟩

end Codegen.Source
