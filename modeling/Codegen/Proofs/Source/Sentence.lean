import Codegen.Proofs.Source.Reading
import Codegen.Proofs.Source.Scanned

/-! A text that is accepted is a sentence of the language: its tokens are those of a written
program, which is well formed, and the program that is read is the one that is meant. -/
namespace Codegen.Source

structure Numeral where
  name : Name
  number : Int64
  parsed : IntLiteral.parse name.text = some number

structure QuotedText where
  body : Bytes
  value : Bytes
  closed : protects? false body = some false
  decoded : Quoted.decode body = some value

/-- Literals are spelled as a text has them. -/
def Spelling.literal : Spelling Numeral QuotedText where
  numeral := Numeral.name
  number := Numeral.number
  parse_numeral := Numeral.parsed
  body := QuotedText.body
  value := QuotedText.value
  closed_body := QuotedText.closed
  decode_body := QuotedText.decoded

section Trees

def Tree.Spells (t : Tree) (x : Sexp) : Prop := t.unplaced = x.tree

abbrev Spelled : List Tree → List Sexp → Prop := List.Forall₂ Tree.Spells

theorem Spelled.trees {ts : List Tree} {xs : List Sexp} (spelled : Spelled ts xs) :
    unplacedAll ts = Sexp.trees xs := by
  induction spelled with
  | nil => rfl
  | cons first _ ih => simp [unplacedAll, Sexp.trees, ih, show Tree.unplaced _ = _ from first]

theorem Spelled.tokens {ts : List Tree} {xs : List Sexp} (spelled : Spelled ts xs) :
    treeTokens ts = Sexp.tokensAll xs := by
  induction spelled with
  | nil => rfl
  | @cons t x _ _ first _ ih =>
    have same : t.tokens = x.tokens := by
      rw [← tokens_unplaced, show t.unplaced = _ from first, Sexp.tokens_tree]
    simp [treeTokens, Sexp.tokensAll, ih, same]

theorem Spelled.list {items : List Tree} {xs : List Sexp} (spelled : Spelled items xs)
    (start stop : Nat) : (Tree.list start items (some stop)).Spells (.list xs) := by
  simp [Tree.Spells, Tree.unplaced, Sexp.tree, spelled.trees]

theorem Spelled.headed {items : List Tree} {xs : List Sexp} (spelled : Spelled items xs)
    (start offset stop : Nat) (word : Bytes) :
    (Tree.list start (.atom offset word :: items) (some stop)).Spells (.headed word xs) := by
  have head : (Tree.atom offset word).Spells (.atom word) := rfl
  exact Spelled.list (.cons head spelled) start stop

def Tree.Scanned (t : Tree) : Prop := ∀ k ∈ t.tokens, k.Scanned

theorem scanned_of_treeTokens {ts : List Tree} (scanned : ∀ k ∈ treeTokens ts, k.Scanned) :
    ∀ t ∈ ts, t.Scanned := by
  intro t inside k found
  apply scanned
  rw [treeTokens_eq_flatMap]
  exact List.mem_flatMap_of_mem inside found

theorem Tree.Scanned.items {start : Nat} {items : List Tree} {stop : Option Nat}
    (scanned : (Tree.list start items stop).Scanned) : ∀ t ∈ items, t.Scanned := by
  apply scanned_of_treeTokens
  intro k inside
  exact scanned k (List.mem_cons_of_mem _ (List.mem_append_left _ inside))

theorem Tree.Scanned.name {start : Nat} {text : Bytes} (scanned : (Tree.atom start text).Scanned) :
    ∃ name : Name, name.text = text ∧ (Tree.atom start text).Spells name.sexp := by
  rcases scanned (.atom text) (by simp [Tree.tokens]) with unclosed | ⟨present, valid⟩
  · contradiction
  · exact ⟨⟨text, present, valid⟩, rfl, rfl⟩

theorem Tree.Scanned.quoted {start : Nat} {body value : Bytes}
    (scanned : (Tree.quoted start body).Scanned) (decoded : Quoted.decode body = some value) :
    ∃ q : QuotedText, q.value = value ∧ (Tree.quoted start body).Spells (.quoted q.body) := by
  rcases scanned (.quoted body) (by simp [Tree.tokens]) with unclosed | closed
  · contradiction
  · exact ⟨⟨body, value, closed, decoded⟩, rfl, rfl⟩

end Trees

section Nodes

variable {α β : Type} {cx : Context} {names : Names}

theorem bind_eq_some {p : Attempt α} {f : α → Attempt β} {r : β × Names}
    (done : (p >>= f) names = some r) :
    ∃ a middle, p names = some (a, middle) ∧ f a middle = some r := by
  obtain ⟨⟨a, middle⟩, first, second⟩ := Option.bind_eq_some_iff.mp done
  exact ⟨a, middle, first, second⟩

def Readable (cx : Context) (t : Tree) : Prop := ∃ names r, attempt (readNode cx t) names = some r

theorem readable_of_readNodes {ts : List Tree} {r : List Node × Names}
    (done : attempt (readNodes cx ts) names = some r) : ∀ t ∈ ts, Readable cx t := by
  induction ts generalizing names r with
  | nil => simp
  | cons t ts ih =>
    rw [readNodes, attempt_bind] at done
    obtain ⟨x, middle, first, done⟩ := bind_eq_some done
    rw [attempt_bind] at done
    obtain ⟨xs, last, others, _⟩ := bind_eq_some done
    exact List.forall_mem_cons.mpr ⟨⟨names, _, first⟩, ih others⟩

theorem spelled_of_terms {ts : List Tree}
    (each : ∀ t ∈ ts, ∃ x : Term Numeral, t.Spells (x.sexp .literal)) :
    ∃ xs : List (Term Numeral), Spelled ts (Term.sexps .literal xs) := by
  induction ts with
  | nil => exact ⟨[], .nil⟩
  | cons t ts ih =>
    obtain ⟨⟨x, first⟩, others⟩ := List.forall_mem_cons.mp each
    obtain ⟨xs, spelled⟩ := ih others
    exact ⟨x :: xs, .cons first spelled⟩

theorem Keyword.of_ofSpelling? {spelling : Bytes} {keyword : Keyword}
    (found : Keyword.ofSpelling? spelling = some keyword) :
    keyword ∈ Keyword.all ∧ keyword.spelling = spelling :=
  ⟨List.mem_of_find?_eq_some found, by simpa using List.find?_some found⟩

/-- The items that a keyword needs are those of a term, if the nodes among them are terms. -/
theorem term_of_form {keyword : Keyword} {rest : List Tree} {form : Form}
    (known : keyword ∈ Keyword.all) (formed : keyword.form? rest = some form)
    (scanned : ∀ t ∈ rest, t.Scanned)
    (parts : ∀ t ∈ form.parts, ∃ x : Term Numeral, t.Spells (x.sexp .literal)) :
    ∃ (x : Term Numeral) (items : List Sexp),
      x.sexp .literal = .headed keyword.spelling items ∧ Spelled rest items := by
  revert formed
  fun_cases Keyword.form? keyword rest with
  | case1 start name =>
    rintro ⟨⟩
    obtain ⟨word, _, spelled⟩ := (scanned _ (List.mem_cons_self ..)).name
    exact ⟨.var word, _, rfl, .cons spelled .nil⟩
  | case2 start name =>
    rintro ⟨⟩
    obtain ⟨word, _, spelled⟩ := (scanned _ (List.mem_cons_self ..)).name
    exact ⟨.addr word, _, rfl, .cons spelled .nil⟩
  | case3 start name =>
    rintro ⟨⟩
    obtain ⟨word, _, spelled⟩ := (scanned _ (List.mem_cons_self ..)).name
    exact ⟨.text word, _, rfl, .cons spelled .nil⟩
  | case4 x =>
    rintro ⟨⟩
    obtain ⟨a, spelled⟩ := parts x (by simp [Form.plain])
    exact ⟨.mem a, _, rfl, .cons spelled .nil⟩
  | case5 l r =>
    rintro ⟨⟩
    obtain ⟨a, left⟩ := parts l (by simp [Form.plain])
    obtain ⟨b, right⟩ := parts r (by simp [Form.plain])
    exact ⟨.assign a b, _, rfl, .cons left (.cons right .nil)⟩
  | case6 start name args =>
    rintro ⟨⟩
    obtain ⟨word, _, spelled⟩ := (scanned _ (List.mem_cons_self ..)).name
    obtain ⟨xs, others⟩ := spelled_of_terms parts
    exact ⟨.call word xs, _, rfl, .cons spelled others⟩
  | case7 start name =>
    rintro ⟨⟩
    obtain ⟨word, _, spelled⟩ := (scanned _ (List.mem_cons_self ..)).name
    exact ⟨.label word, _, rfl, .cons spelled .nil⟩
  | case8 start target =>
    rintro ⟨⟩
    obtain ⟨word, _, spelled⟩ := (scanned _ (List.mem_cons_self ..)).name
    exact ⟨.jump word, _, rfl, .cons spelled .nil⟩
  | case9 x start ifTrue start' ifFalse =>
    rintro ⟨⟩
    obtain ⟨a, condition⟩ := parts x (by simp [Form.plain])
    obtain ⟨yes, _, spelled⟩ := (scanned (.atom start ifTrue) (by simp)).name
    obtain ⟨no, _, spelled'⟩ := (scanned (.atom start' ifFalse) (by simp)).name
    exact ⟨.branch a yes no, _, rfl, .cons condition (.cons spelled (.cons spelled' .nil))⟩
  | case10 =>
    rintro ⟨⟩
    exact ⟨.leave, _, rfl, .nil⟩
  | case11 x =>
    rintro ⟨⟩
    obtain ⟨a, spelled⟩ := parts x (by simp [Form.plain])
    exact ⟨.ret a, _, rfl, .cons spelled .nil⟩
  | case12 op x =>
    rintro ⟨⟩
    have known : op ∈ UnaryOp.known := by simpa [Keyword.all] using known
    obtain ⟨a, spelled⟩ := parts x (by simp [Form.plain])
    exact ⟨.unary ⟨op, known⟩ a, _, rfl, .cons spelled .nil⟩
  | case13 op l r =>
    rintro ⟨⟩
    have known : op ∈ BinaryOp.known := by simpa [Keyword.all] using known
    obtain ⟨a, left⟩ := parts l (by simp [Form.plain])
    obtain ⟨b, right⟩ := parts r (by simp [Form.plain])
    exact ⟨.binary ⟨op, known⟩ a b, _, rfl, .cons left (.cons right .nil)⟩
  | case14 => rintro ⟨⟩

theorem readForm_eq_some {stop : Option Nat} {found : Option Form} {r : Node × Names}
    (done : readForm cx stop found names = some r) :
    ∃ form offset, found = some form ∧ stop = some offset ∧ ∀ t ∈ form.parts, Readable cx t := by
  cases found with
  | none => contradiction
  | some form =>
    cases stop with
    | none => contradiction
    | some offset =>
      obtain ⟨symbol, middle, _, done⟩ := bind_eq_some done
      obtain ⟨xs, last, read, _⟩ := bind_eq_some done
      exact ⟨form, offset, rfl, rfl, readable_of_readNodes read⟩

/-- What is read as a node spells a term. -/
theorem term_of_readable {t : Tree} (scanned : t.Scanned) (readable : Readable cx t) :
    ∃ x : Term Numeral, t.Spells (x.sexp .literal) := by
  induction t using Tree.induction with
  | atom start text =>
    obtain ⟨names, r, done⟩ := readable
    obtain ⟨name, rfl, spelled⟩ := scanned.name
    rw [attempt_readNode_atom] at done
    cases parsed : IntLiteral.parse name.text with
    | none => simp [parsed, failure, StateT.failure] at done
    | some number => exact ⟨.const ⟨name, number, parsed⟩, spelled⟩
  | quoted start body =>
    obtain ⟨names, r, done⟩ := readable
    contradiction
  | unclosed start =>
    obtain ⟨names, r, done⟩ := readable
    contradiction
  | list start items stop below =>
    obtain ⟨names, r, done⟩ := readable
    rcases items with _ | ⟨_ | _ | _ | _, rest⟩
    case cons.atom offset spelling =>
      rw [attempt_readNode_list] at done
      obtain ⟨form, close, found, rfl, readable⟩ := readForm_eq_some done
      obtain ⟨keyword, spelled, formed⟩ := Option.bind_eq_some_iff.mp found
      obtain ⟨known, rfl⟩ := Keyword.of_ofSpelling? spelled
      -- The nodes that a form needs are among the items, so that each of them spells a term.
      have inside (t : Tree) (part : t ∈ form.parts) : t ∈ rest := mem_of_mem_parts formed part
      obtain ⟨x, xs, headed, spelled⟩ := term_of_form known formed
        (fun t inside => scanned.items t (List.mem_cons_of_mem _ inside))
        fun t part => below t (List.mem_cons_of_mem _ (inside t part))
          (scanned.items t (List.mem_cons_of_mem _ (inside t part))) (readable t part)
      exact ⟨x, headed ▸ spelled.headed start offset close keyword.spelling⟩
    all_goals contradiction

theorem terms_of_readNodes {ts : List Tree} {r : List Node × Names}
    (scanned : ∀ t ∈ ts, t.Scanned) (done : attempt (readNodes cx ts) names = some r) :
    ∃ xs : List (Term Numeral), Spelled ts (Term.sexps .literal xs) :=
  spelled_of_terms fun t inside =>
    term_of_readable (scanned t inside) (readable_of_readNodes done t inside)

end Nodes

section Declarations

variable {cx : Context} {names : Names} {stop : Option Nat} {rest : List Tree}

theorem expectEnd_eq_some {r : Unit × Names}
    (done : attempt (expectEnd cx stop rest) names = some r) :
    rest = [] ∧ ∃ offset, stop = some offset := by
  rw [attempt_expectEnd] at done
  cases rest with
  | cons t rest => contradiction
  | nil =>
    cases stop with
    | none => contradiction
    | some offset => exact ⟨rfl, offset, rfl⟩

theorem readQuoted_eq_some {value : Bytes} {more : List Tree} {last : Names}
    (done : attempt (readQuoted cx stop rest) names = some ((value, more), last)) :
    ∃ start body, rest = .quoted start body :: more ∧ Quoted.decode body = some value := by
  rcases rest with _ | ⟨_ | _ | _ | _, rest⟩
  case cons.quoted start body =>
    rw [readQuoted] at done
    cases decoded : Quoted.decode body with
    | none =>
      rw [decoded] at done
      contradiction
    | some found =>
      rw [decoded] at done
      cases done
      exact ⟨start, body, rfl, decoded⟩
  all_goals contradiction

theorem inlineMarked_spelled (rest : List Tree) :
    ∃ before, rest = before ++ (inlineMarked rest).2 ∧
      Spelled before (Declaration.inlineSexps (inlineMarked rest).1) := by
  rcases rest with _ | ⟨_ | _ | _ | _, rest⟩
  case cons.atom start text =>
    rw [inlineMarked]
    split
    next marked =>
      have mark : (Tree.atom start text).Spells (.atom inlineMark) := by
        rw [eq_of_beq marked]
        rfl
      exact ⟨[.atom start text], rfl, .cons mark .nil⟩
    next => exact ⟨[], rfl, .nil⟩
  all_goals exact ⟨[], rfl, .nil⟩

theorem readParamNames_eq_some {seen : List Bytes} {r : List Bytes × Names}
    (scanned : ∀ t ∈ rest, t.Scanned)
    (done : attempt (readParamNames cx stop seen rest) names = some r) :
    (∃ offset, stop = some offset) ∧ ∃ ns : List Name, Spelled rest (ns.map Name.sexp) := by
  induction rest generalizing seen r with
  | nil =>
    rw [readParamNames, attempt_bind] at done
    obtain ⟨_, _, ends, _⟩ := bind_eq_some done
    exact ⟨(expectEnd_eq_some ends).2, [], .nil⟩
  | cons t rest ih =>
    obtain ⟨first, others⟩ := List.forall_mem_cons.mp scanned
    cases t with
    | atom start text =>
      obtain ⟨name, _, spelled⟩ := first.name
      simp only [readParamNames, attempt_bind, attempt_ite, attempt_fail, attempt_pure] at done
      split at done
      next => contradiction
      next =>
        obtain ⟨_, _, read, _⟩ := bind_eq_some done
        obtain ⟨closed, ns, spelled'⟩ := ih others read
        exact ⟨closed, name :: ns, .cons spelled spelled'⟩
    | _ => contradiction

theorem readParams_eq_some {params : List Bytes} {more : List Tree} {last : Names}
    (scanned : ∀ t ∈ rest, t.Scanned)
    (done : attempt (readParams cx rest) names = some ((params, more), last)) :
    ∃ before clause, rest = before ++ more ∧ Spelled before (Declaration.paramSexps clause) := by
  rcases rest with _ | ⟨_ | _ | _ | ⟨start, _ | ⟨_ | _ | _ | _, items⟩, stop⟩, rest⟩
  case cons.list.cons.atom offset head =>
    simp only [readParams, attempt_ite] at done
    split at done
    next marked =>
      rw [attempt_bind] at done
      obtain ⟨_, _, read, done⟩ := bind_eq_some done
      cases done
      have items := (scanned _ (List.mem_cons_self ..)).items
      obtain ⟨⟨close, rfl⟩, ns, spelled⟩ :=
        readParamNames_eq_some (fun t inside => items t (List.mem_cons_of_mem _ inside)) read
      have clause := spelled.headed start offset close head
      rw [eq_of_beq marked] at clause
      exact ⟨[_], some ns, by rw [eq_of_beq marked]; rfl, .cons clause .nil⟩
    next =>
      cases done
      exact ⟨[], none, rfl, .nil⟩
  all_goals
    cases done
    exact ⟨[], none, rfl, .nil⟩

theorem func_of_readFunc {length : Nat} {r : Func × Names} (scanned : ∀ t ∈ rest, t.Scanned)
    (done : attempt (readFunc length stop rest) names = some r) :
    (∃ offset, stop = some offset) ∧ ∃ (name : Name) (inlined : Bool)
      (clause : Option (List Name)) (body : List (Term Numeral)),
      Spelled rest (name.sexp :: (Declaration.inlineSexps inlined ++
        (Declaration.paramSexps clause ++ Term.sexps .literal body))) := by
  rcases rest with _ | ⟨_ | _ | _ | _, rest⟩
  case cons.atom start text =>
    obtain ⟨first, others⟩ := List.forall_mem_cons.mp scanned
    obtain ⟨name, _, spelled⟩ := first.name
    obtain ⟨mark, split, marked⟩ := inlineMarked_spelled rest
    rw [readFunc, attempt_bind] at done
    obtain ⟨_, _, _, done⟩ := bind_eq_some done
    rw [attempt_bind] at done
    obtain ⟨⟨params, body⟩, _, readClause, done⟩ := bind_eq_some done
    rw [attempt_bind, attempt_within] at done
    obtain ⟨_, _, readBody, done⟩ := bind_eq_some done
    rw [attempt_bind] at done
    obtain ⟨_, _, ends, _⟩ := bind_eq_some done
    -- The items are the mark, the list of parameters and the body, the first two if they are there.
    rw [split] at others
    have others := (List.forall_mem_append.mp others).2
    obtain ⟨list, clause, split', spelledClause⟩ := readParams_eq_some others readClause
    rw [split'] at others
    obtain ⟨xs, spelledBody⟩ := terms_of_readNodes (List.forall_mem_append.mp others).2 readBody
    refine ⟨(expectEnd_eq_some ends).2, name, (inlineMarked rest).1, clause, xs, .cons spelled ?_⟩
    have whole : Spelled (mark ++ (list ++ body)) _ :=
      List.rel_append marked (List.rel_append spelledClause spelledBody)
    rwa [← split', ← split] at whole
  all_goals contradiction

theorem DeclKeyword.of_ofSpelling? {spelling : Bytes} {keyword : DeclKeyword}
    (found : DeclKeyword.ofSpelling? spelling = some keyword) : keyword.spelling = spelling := by
  simpa using List.find?_some found

/-- What is read as a declaration spells one. -/
theorem declaration_of_read {length : Nat} {program : Program} {t : Tree} {r : Program × Names}
    (scanned : t.Scanned) (done : attempt (readDeclaration length program t) names = some r) :
    ∃ d : Declaration Numeral QuotedText, t.Spells (d.sexp .literal) := by
  rcases t with _ | _ | _ | ⟨start, _ | ⟨_ | _ | _ | _, rest⟩, stop⟩
  case list.cons.atom offset spelling =>
    have items := (List.forall_mem_cons.mp scanned.items).2
    unfold readDeclaration at done
    cases found : DeclKeyword.ofSpelling? spelling with
    | none =>
      simp only [found] at done
      contradiction
    | some keyword =>
      obtain rfl := DeclKeyword.of_ofSpelling? found
      simp only [found] at done
      cases keyword with
      | var =>
        rcases rest with _ | ⟨_ | _ | _ | _, rest⟩
        case cons.atom begins text =>
          obtain ⟨name, _, spelled⟩ := (items _ (List.mem_cons_self ..)).name
          simp only [attempt_bind] at done
          obtain ⟨_, _, _, done⟩ := bind_eq_some done
          obtain ⟨_, _, ends, _⟩ := bind_eq_some done
          obtain ⟨rfl, close, rfl⟩ := expectEnd_eq_some ends
          exact ⟨.var name, Spelled.headed (.cons spelled .nil) start offset close _⟩
        all_goals contradiction
      | text =>
        rcases rest with _ | ⟨_ | _ | _ | _, rest⟩
        case cons.atom begins text =>
          obtain ⟨first, others⟩ := List.forall_mem_cons.mp items
          obtain ⟨name, _, spelled⟩ := first.name
          simp only [attempt_bind] at done
          obtain ⟨_, _, _, done⟩ := bind_eq_some done
          obtain ⟨⟨value, more⟩, _, quoted, done⟩ := bind_eq_some done
          obtain ⟨_, _, _, done⟩ := bind_eq_some done
          obtain ⟨_, _, ends, _⟩ := bind_eq_some done
          obtain ⟨rfl, close, rfl⟩ := expectEnd_eq_some ends
          obtain ⟨_, body, rfl, decoded⟩ := readQuoted_eq_some quoted
          obtain ⟨q, _, spelled'⟩ := (others _ (List.mem_cons_self ..)).quoted decoded
          have whole : Spelled _ _ := .cons spelled (.cons spelled' .nil)
          exact ⟨.text name q, whole.headed start offset close _⟩
        all_goals contradiction
      | func =>
        rw [attempt_bind] at done
        obtain ⟨_, _, read, _⟩ := bind_eq_some done
        obtain ⟨⟨close, rfl⟩, name, inlined, clause, body, spelled⟩ := func_of_readFunc items read
        exact ⟨.func name inlined clause body, spelled.headed start offset close _⟩
      | init =>
        rw [attempt_bind, attempt_within] at done
        obtain ⟨_, _, read, done⟩ := bind_eq_some done
        rw [attempt_bind] at done
        obtain ⟨_, _, ends, _⟩ := bind_eq_some done
        obtain ⟨_, close, rfl⟩ := expectEnd_eq_some ends
        obtain ⟨body, spelled⟩ := terms_of_readNodes items read
        exact ⟨.init body, spelled.headed start offset close _⟩
      | version => contradiction
  all_goals contradiction

theorem stray_of_read {length : Nat} {stray : Option Nat} {program : Program} {ts : List Tree}
    {r : Program × Names}
    (done : attempt (readDeclarations length stray program ts) names = some r) : stray = none := by
  induction ts generalizing names program with
  | nil =>
    cases stray with
    | none => rfl
    | some offset => contradiction
  | cons t ts ih =>
    rw [readDeclarations, attempt_bind] at done
    obtain ⟨_, _, _, done⟩ := bind_eq_some done
    exact ih done

theorem declarations_of_read {length : Nat} {stray : Option Nat} {program : Program}
    {ts : List Tree} {r : Program × Names} (scanned : ∀ t ∈ ts, t.Scanned)
    (done : attempt (readDeclarations length stray program ts) names = some r) :
    ∃ ds : List (Declaration Numeral QuotedText),
      Spelled ts (ds.map (Declaration.sexp .literal)) := by
  induction ts generalizing names program with
  | nil => exact ⟨[], .nil⟩
  | cons t ts ih =>
    obtain ⟨first, others⟩ := List.forall_mem_cons.mp scanned
    rw [readDeclarations, attempt_bind] at done
    obtain ⟨_, _, read, done⟩ := bind_eq_some done
    obtain ⟨d, spelled⟩ := declaration_of_read first read
    obtain ⟨ds, spelled'⟩ := ih others done
    exact ⟨d :: ds, .cons spelled spelled'⟩

theorem version_of_header {trees more : List Tree} {last : Names}
    (scanned : ∀ t ∈ trees, t.Scanned) (done : header trees names = some (more, last)) :
    ∃ before, ∃ version : Option {q // isSupported (Spelling.literal.value q) = true},
      trees = before ++ more ∧
        Spelled before (version.map fun q => Written.versionSexp .literal q.1).toList := by
  rcases trees with _ | ⟨_ | _ | _ | ⟨start, _ | ⟨_ | _ | _ | _, rest⟩, stop⟩, trees⟩
  case cons.list.cons.atom offset spelling =>
    rw [header] at done
    split at done
    next isVersion =>
      obtain ⟨⟨value, items⟩, _, quoted, done⟩ := bind_eq_some done
      dsimp only at done
      split at done
      next accepted =>
        cases done
        simp only [Bool.and_eq_true, List.isEmpty_iff, Option.isSome_iff_exists] at accepted
        obtain ⟨supported, rfl, close, rfl⟩ := accepted
        obtain ⟨quote, body, rfl, decoded⟩ := readQuoted_eq_some quoted
        have items := (scanned _ (List.mem_cons_self ..)).items
        obtain ⟨q, rfl, spelled⟩ := (items (.quoted quote body) (by simp)).quoted decoded
        have headed := Spelled.headed (.cons spelled .nil) start offset close spelling
        rw [eq_of_beq isVersion] at headed ⊢
        exact ⟨[_], some ⟨q, supported⟩, rfl, .cons headed .nil⟩
      next => contradiction
    next =>
      cases done
      exact ⟨[], none, rfl, .nil⟩
  all_goals
    cases done
    exact ⟨[], none, rfl, .nil⟩

end Declarations

section Sentences

variable {text : Bytes} {p : Program}

/-- Tokens that say something are those of a written program. -/
theorem sentence_of_outcome {ts : List Token} (scanned : ∀ t ∈ ts, t.Scanned)
    (said : outcome ts = some p) : ∃ w : Written .literal, ts = Sexp.tokensAll w.sexps := by
  obtain ⟨r, done, _⟩ := Option.map_eq_some_iff.mp said
  obtain ⟨trees, names, headed, done⟩ := bind_eq_some done
  have kept := treeTokens_grouped (stray_of_read done)
  have scanned := scanned_of_treeTokens (kept.symm ▸ scanned)
  obtain ⟨before, version, split, spelled⟩ := version_of_header scanned headed
  have others := (List.forall_mem_append.mp (split ▸ scanned)).2
  obtain ⟨ds, spelled'⟩ := declarations_of_read others done
  have whole : Spelled (before ++ trees) _ := List.rel_append spelled spelled'
  exact ⟨⟨version, ds⟩, by rw [← kept, split, whole.tokens]; rfl⟩

theorem outcome_of_ok (accepted : read text = .ok p) : outcome (tokens text) = some p := by
  have said := read_eq_outcome text
  rw [accepted] at said
  split at said
  · contradiction
  · exact said.symm

/-- A text that is accepted has the tokens of some written program. -/
theorem written_of_ok (accepted : read text = .ok p) :
    ∃ w : Written .literal, tokens text = Sexp.tokensAll w.sexps :=
  sentence_of_outcome (tokens_scanned text) (outcome_of_ok accepted)

/-- Of whatever written program an accepted text has the tokens, it is read as what that means. -/
theorem program_of_ok (accepted : read text = .ok p) {κ τ : Type} {sp : Spelling κ τ}
    {w : Written sp} (same : tokens text = Sexp.tokensAll w.sexps) :
    w.WellFormed ∧ p = w.program := by
  have said := outcome_of_ok accepted
  rw [same, outcome_written] at said
  split at said
  next formed => exact ⟨formed, (Option.some.inj said).symm⟩
  next => contradiction

theorem ok_of_written {κ τ : Type} {sp : Spelling κ τ} {w : Written sp} (formed : w.WellFormed)
    (attached : detached text = false) (same : tokens text = Sexp.tokensAll w.sexps) :
    read text = .ok w.program := by
  have said := read_eq_outcome text
  rw [attached, if_neg Bool.false_ne_true, same, outcome_written, if_pos formed] at said
  cases reading : read text with
  | error fault => simp [reading, Except.toOption] at said
  | ok program => simpa [reading, Except.toOption] using said

end Sentences

section Statements

variable {κ τ : Type} {sp : Spelling κ τ} {text : Bytes} {p : Program}

/-- The statements of each list that a program is to begin with. -/
def Written.inits (w : Written sp) : List (List Node) :=
  w.declarations.filterMap (Declaration.init? sp (mentioned w.events))

def Written.functions (w : Written sp) : List Func :=
  w.declarations.filterMap (Declaration.func? sp (mentioned w.events))

/-- A program begins with the last list alone. -/
theorem Written.flatten_inits (w : Written sp) :
    w.inits.dropLast.flatten ++ w.program.init = w.inits.flatten := by
  have last : w.program.init = w.inits.getLast?.getD [] := rfl
  cases found : w.inits.getLast? with
  | none => simp [last, List.getLast?_eq_none_iff.mp found]
  | some body =>
    obtain ⟨others, all⟩ := List.getLast?_eq_some_iff.mp found
    simp [last, all]

theorem Written.init_eq_flatten_iff (w : Written sp) :
    w.program.init = w.inits.flatten ↔ ∀ body ∈ w.inits.dropLast, body = [] := by
  rw [← w.flatten_inits, List.self_eq_append_left, List.flatten_eq_nil_iff]

/-- Every function of an accepted text is there, in the order of the text. Of its statements to
begin with those of the last list are there, which are all of them exactly if the lists before it
are empty. -/
theorem statements_of_ok (accepted : read text = .ok p) :
    (∃ w : Written .literal, tokens text = Sexp.tokensAll w.sexps) ∧
      ∀ w : Written .literal, tokens text = Sexp.tokensAll w.sexps →
        p.funcs = w.functions ∧ w.inits.dropLast.flatten ++ p.init = w.inits.flatten ∧
          (p.init = w.inits.flatten ↔ ∀ body ∈ w.inits.dropLast, body = []) := by
  refine ⟨written_of_ok accepted, fun w same => ?_⟩
  obtain ⟨_, rfl⟩ := program_of_ok accepted same
  exact ⟨rfl, w.flatten_inits, w.init_eq_flatten_iff⟩

def labelA : Name := ⟨ascii "A", by decide +kernel, by decide +kernel⟩

def labelB : Name := ⟨ascii "B", by decide +kernel, by decide +kernel⟩

def beginningTwice : Written .literal :=
  ⟨none, [.init [.jump labelA], .init [.jump labelB]]⟩

theorem tokens_beginningTwice : tokens (ascii "(init (jump A)) (init (jump B))") =
    Sexp.tokensAll beginningTwice.sexps := by
  decide +kernel

theorem read_beginningTwice :
    read (ascii "(init (jump A)) (init (jump B))") = .ok beginningTwice.program :=
  ok_of_written (by decide +kernel) (by decide +kernel) tokens_beginningTwice

theorem statements_of_ok_twice : ∃ p, read (ascii "(init (jump A)) (init (jump B))") = .ok p ∧
    beginningTwice.inits.dropLast.flatten ++ p.init = beginningTwice.inits.flatten :=
  ⟨_, read_beginningTwice, ((statements_of_ok read_beginningTwice).2 _ tokens_beginningTwice).2.1⟩

/-- Only the second beginning is left. -/
theorem init_beginningTwice : ∃ p, read (ascii "(init (jump A)) (init (jump B))") = .ok p ∧
    p.init = [.jump (ascii "B")] ∧
      beginningTwice.inits.flatten = [.jump (ascii "A"), .jump (ascii "B")] :=
  ⟨_, read_beginningTwice, rfl, rfl⟩

end Statements

end Codegen.Source
