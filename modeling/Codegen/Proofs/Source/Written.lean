import Codegen.Proofs.Source.Spelling

/-! Programs as they are written: declarations and terms with names that nothing has resolved yet,
and their tokens. -/
namespace Codegen.Source

section Words

def Sexp.Writable (x : Sexp) : Prop := ∀ t ∈ x.tokens, t.Writable

theorem Sexp.writable_atom {text : Bytes} (present : text ≠ [])
    (valid : ∀ b ∈ text, isAtomByte b = true) : (Sexp.atom text).Writable := by
  intro t inside
  rw [tokens, List.mem_singleton] at inside
  subst inside
  exact ⟨present, valid⟩

theorem Sexp.writable_quoted {body : Bytes} (closed : protects? false body = some false) :
    (Sexp.quoted body).Writable := by
  intro t inside
  rw [tokens, List.mem_singleton] at inside
  subst inside
  exact closed

theorem Sexp.writable_all {xs : List Sexp} (each : ∀ x ∈ xs, x.Writable) :
    ∀ t ∈ tokensAll xs, t.Writable := by
  induction xs with
  | nil => intro t inside; cases inside
  | cons x xs ih =>
    rw [List.forall_mem_cons] at each
    rw [tokensAll, List.forall_mem_append]
    exact ⟨each.1, ih each.2⟩

theorem Sexp.writable_list {xs : List Sexp} (each : ∀ x ∈ xs, x.Writable) :
    (Sexp.list xs).Writable := by
  rw [Writable, tokens, List.forall_mem_cons, List.forall_mem_append, List.forall_mem_singleton]
  exact ⟨trivial, writable_all each, trivial⟩

def Name.sexp (name : Name) : Sexp := .atom name.text

theorem Name.writable (name : Name) : name.sexp.Writable :=
  Sexp.writable_atom name.present name.valid

def Sexp.headed (word : Bytes) (items : List Sexp) : Sexp := .list (.atom word :: items)

theorem Sexp.tree_headed (word : Bytes) (items : List Sexp) :
    (Sexp.headed word items).tree = .list 0 (.atom 0 word :: trees items) (some 0) := rfl

theorem Sexp.writable_headed {word : Bytes} (known : (Sexp.atom word).Writable) {items : List Sexp}
    (each : ∀ x ∈ items, x.Writable) : (Sexp.headed word items).Writable :=
  writable_list (List.forall_mem_cons.mpr ⟨known, each⟩)

def isWord (text : Bytes) : Bool := !text.isEmpty && text.all isAtomByte

theorem writable_word {text : Bytes} (word : isWord text = true) : (Sexp.atom text).Writable := by
  simp only [isWord, Bool.and_eq_true, Bool.not_eq_true', List.isEmpty_eq_false_iff,
    List.all_eq_true] at word
  exact Sexp.writable_atom word.1 word.2

theorem Keyword.unary_mem_all {op : UnaryOp} (known : op ∈ UnaryOp.known) :
    Keyword.unary op ∈ Keyword.all := by
  simp [Keyword.all, known]

theorem Keyword.binary_mem_all {op : BinaryOp} (known : op ∈ BinaryOp.known) :
    Keyword.binary op ∈ Keyword.all := by
  simp [Keyword.all, known]

theorem Keyword.writable {k : Keyword} (known : k ∈ Keyword.all) :
    (Sexp.atom k.spelling).Writable := by
  have words : (Keyword.all.all fun k => isWord k.spelling) = true := by cbv
  exact writable_word (List.all_eq_true.mp words k known)

theorem DeclKeyword.writable (k : DeclKeyword) : (Sexp.atom k.spelling).Writable := by
  cases k <;> exact writable_word (by cbv)

theorem DeclKeyword.ofSpelling?_spelling (k : DeclKeyword) :
    DeclKeyword.ofSpelling? k.spelling = some k := by
  cases k <;> cbv

theorem DeclKeyword.spelling_inj {k l : DeclKeyword} (same : k.spelling = l.spelling) : k = l := by
  have found := DeclKeyword.ofSpelling?_spelling k
  rw [same, DeclKeyword.ofSpelling?_spelling l] at found
  exact (Option.some.inj found).symm

end Words

inductive Role
  | place | text | callee
  deriving DecidableEq, Repr

structure Use where
  name : Bytes
  role : Role
  deriving DecidableEq, Repr

/-- Expressions and statements, with numbers spelled by `κ`. -/
inductive Term (κ : Type)
  | const (k : κ)
  | var (name : Name)
  | addr (name : Name)
  | text (name : Name)
  | mem (address : Term κ)
  | unary (op : {op : UnaryOp // op ∈ UnaryOp.known}) (operand : Term κ)
  | binary (op : {op : BinaryOp // op ∈ BinaryOp.known}) (left right : Term κ)
  | call (callee : Name) (args : List (Term κ))
  | assign (target value : Term κ)
  | label (name : Name)
  | jump (target : Name)
  | branch (condition : Term κ) (ifTrue ifFalse : Name)
  /-- A return without a value. -/
  | leave
  | ret (value : Term κ)

variable {κ τ : Type} (sp : Spelling κ τ)

namespace Term

mutual

def sexp : Term κ → Sexp
  | const k => (sp.numeral k).sexp
  | var name => .headed Keyword.var.spelling [name.sexp]
  | addr name => .headed Keyword.addr.spelling [name.sexp]
  | text name => .headed Keyword.text.spelling [name.sexp]
  | mem x => .headed Keyword.mem.spelling [x.sexp]
  | unary op x => .headed (Keyword.unary op.1).spelling [x.sexp]
  | binary op l r => .headed (Keyword.binary op.1).spelling [l.sexp, r.sexp]
  | call callee args => .headed Keyword.call.spelling (callee.sexp :: sexps args)
  | assign l r => .headed Keyword.assign.spelling [l.sexp, r.sexp]
  | label name => .headed Keyword.label.spelling [name.sexp]
  | jump target => .headed Keyword.jump.spelling [target.sexp]
  | branch x ifTrue ifFalse =>
    .headed Keyword.branch.spelling [x.sexp, ifTrue.sexp, ifFalse.sexp]
  | leave => .headed Keyword.ret.spelling []
  | ret x => .headed Keyword.ret.spelling [x.sexp]

def sexps : List (Term κ) → List Sexp
  | [] => []
  | x :: rest => x.sexp :: sexps rest

end

theorem sexps_eq_map (xs : List (Term κ)) : sexps sp xs = xs.map (sexp sp) := by
  induction xs with
  | nil => rfl
  | cons x rest ih => rw [sexps, ih, List.map_cons]

def children : Term κ → List (Term κ)
  | mem x | unary _ x | branch x _ _ | ret x => [x]
  | binary _ l r | assign l r => [l, r]
  | call _ args => args
  | _ => []

def own : Term κ → Option Use
  | var name | addr name => some ⟨name.text, .place⟩
  | text name => some ⟨name.text, .text⟩
  | call callee _ => some ⟨callee.text, .callee⟩
  | _ => none

mutual

def uses : Term κ → List Use
  | var name | addr name => [⟨name.text, .place⟩]
  | text name => [⟨name.text, .text⟩]
  | mem x | unary _ x | branch x _ _ | ret x => x.uses
  | binary _ l r | assign l r => l.uses ++ r.uses
  | call callee args => ⟨callee.text, .callee⟩ :: usesAll args
  | const _ | label _ | jump _ | leave => []

def usesAll : List (Term κ) → List Use
  | [] => []
  | x :: rest => x.uses ++ usesAll rest

end

theorem uses_eq (t : Term κ) : t.uses = t.own.toList ++ usesAll t.children := by
  cases t <;> simp [uses, own, children, usesAll]

theorem induction {P : Term κ → Prop} (step : ∀ t, (∀ x ∈ t.children, P x) → P t) (t : Term κ) :
    P t := by
  apply step
  intro x below
  have smaller : sizeOf x < sizeOf t := by
    cases t <;> simp only [children, List.mem_cons, List.not_mem_nil, or_false] at below
    case call callee args =>
      have inside := List.sizeOf_lt_of_mem below
      simp only [call.sizeOf_spec]
      omega
    case binary op l r => rcases below with rfl | rfl <;> simp only [binary.sizeOf_spec] <;> omega
    case assign l r => rcases below with rfl | rfl <;> simp only [assign.sizeOf_spec] <;> omega
    case branch y ifTrue ifFalse =>
      simp only [below, branch.sizeOf_spec]
      omega
    all_goals simp [below]
  exact induction step x
termination_by sizeOf t

theorem writable (t : Term κ) : (t.sexp sp).Writable := by
  induction t using induction with
  | step t below =>
    cases t with
    | const k => exact (sp.numeral k).writable
    | unary op x =>
      apply Sexp.writable_headed (Keyword.writable (Keyword.unary_mem_all op.2))
      simpa [children] using below
    | binary op l r =>
      apply Sexp.writable_headed (Keyword.writable (Keyword.binary_mem_all op.2))
      simpa [children] using below
    | var name | addr name | text name | label name | jump name | leave =>
      apply Sexp.writable_headed (Keyword.writable (by decide))
      simp [Name.writable]
    | mem _ | assign _ _ | ret _ | call _ _ | branch _ _ _ =>
      apply Sexp.writable_headed (Keyword.writable (by decide))
      simpa [children, sexps_eq_map, Name.writable] using below

end Term

inductive Declaration (κ τ : Type)
  | var (name : Name)
  | text (name : Name) (value : τ)
  /-- The list of parameters can be left out. -/
  | func (name : Name) (inlined : Bool) (params : Option (List Name)) (body : List (Term κ))
  | init (body : List (Term κ))

namespace Declaration

def inlineSexps : Bool → List Sexp
  | true => [.atom inlineMark]
  | false => []

def paramSexps : Option (List Name) → List Sexp
  | some names => [.headed paramsMark (names.map Name.sexp)]
  | none => []

def sexp : Declaration κ τ → Sexp
  | var name => .headed DeclKeyword.var.spelling [name.sexp]
  | text name value => .headed DeclKeyword.text.spelling [name.sexp, .quoted (sp.body value)]
  | func name inlined params body =>
    .headed DeclKeyword.func.spelling
      (name.sexp :: (inlineSexps inlined ++ (paramSexps params ++ Term.sexps sp body)))
  | init body => .headed DeclKeyword.init.spelling (Term.sexps sp body)

theorem writable_body (body : List (Term κ)) : ∀ x ∈ Term.sexps sp body, x.Writable := by
  rw [Term.sexps_eq_map, List.forall_mem_map]
  intro t _
  exact t.writable sp

theorem writable_inline (inlined : Bool) : ∀ x ∈ inlineSexps inlined, x.Writable := by
  cases inlined with
  | false => intro x inside; cases inside
  | true =>
    rw [inlineSexps, List.forall_mem_singleton]
    exact writable_word (by cbv)

theorem writable_params (params : Option (List Name)) :
    ∀ x ∈ paramSexps params, x.Writable := by
  cases params with
  | none => intro x inside; cases inside
  | some names =>
    rw [paramSexps, List.forall_mem_singleton]
    apply Sexp.writable_headed (writable_word (by cbv))
    rw [List.forall_mem_map]
    intro name _
    exact name.writable

theorem writable (d : Declaration κ τ) : (d.sexp sp).Writable := by
  cases d with
  | var name =>
    apply Sexp.writable_headed (DeclKeyword.writable _)
    simp [Name.writable]
  | text name value =>
    apply Sexp.writable_headed (DeclKeyword.writable _)
    simp [Name.writable, Sexp.writable_quoted (sp.closed_body value)]
  | func name inlined params body =>
    apply Sexp.writable_headed (DeclKeyword.writable _)
    rw [List.forall_mem_cons, List.forall_mem_append, List.forall_mem_append]
    exact ⟨name.writable, writable_inline inlined, writable_params params, writable_body sp body⟩
  | init body => exact Sexp.writable_headed (DeclKeyword.writable _) (writable_body sp body)

/-- The word that heads a declaration is not that of a version. -/
theorem headed (d : Declaration κ τ) :
    ∃ k ≠ DeclKeyword.version, ∃ items, d.sexp sp = .headed k.spelling items := by
  cases d with
  | var name => exact ⟨.var, by decide, _, rfl⟩
  | text name value => exact ⟨.text, by decide, _, rfl⟩
  | func name inlined params body => exact ⟨.func, by decide, _, rfl⟩
  | init body => exact ⟨.init, by decide, _, rfl⟩

end Declaration

theorem Forest.detached_unplaced {found : Forest} (apart : found.detached = true) :
    ∃ rest stop more, found.unplaced.trees =
      .list 0 (.atom 0 DeclKeyword.version.spelling :: rest) stop :: more := by
  obtain ⟨trees, stray⟩ := found
  rcases trees with _ | ⟨_ | _ | _ | ⟨start, _ | ⟨_ | _ | _ | _, rest⟩, stop⟩, trees⟩
  case cons.list.cons.atom offset spelling =>
    simp only [detached, Bool.and_eq_true, beq_iff_eq] at apart
    rw [apart.1]
    exact ⟨_, _, _, rfl⟩
  all_goals contradiction

structure Written (sp : Spelling κ τ) where
  version : Option {q : τ // isSupported (sp.value q) = true}
  declarations : List (Declaration κ τ)

namespace Written

def versionSexp (q : τ) : Sexp := .headed DeclKeyword.version.spelling [.quoted (sp.body q)]

variable {sp} (w : Written sp)

def sexps : List Sexp :=
  (w.version.map fun q => versionSexp sp q.1).toList ++
    w.declarations.map (Declaration.sexp sp)

def text (spaced : Bool) : Bytes := Token.write spaced (Sexp.tokensAll w.sexps)

theorem writable : ∀ t ∈ Sexp.tokensAll w.sexps, t.Writable := by
  apply Sexp.writable_all
  rw [sexps, List.forall_mem_append, List.forall_mem_map]
  constructor
  · intro x inside
    rw [Option.mem_toList, Option.map_eq_some_iff] at inside
    obtain ⟨q, _, rfl⟩ := inside
    apply Sexp.writable_headed (DeclKeyword.writable _)
    simp [Sexp.writable_quoted (sp.closed_body q.1)]
  · intro d _
    exact d.writable sp

theorem tokens_text (spaced : Bool) : tokens (w.text spaced) = Sexp.tokensAll w.sexps :=
  tokens_write w.writable spaced

/-- The keyword of a version is written right after its parenthesis. -/
theorem forest_version (spaced : Bool) {q : τ} {more : List Token}
    (writable : ∀ t ∈ (versionSexp sp q).tokens ++ more, t.Writable) :
    ∃ items stop trees, (forest (Token.write spaced ((versionSexp sp q).tokens ++ more))).trees =
      .list 0 (.atom 1 DeclKeyword.version.spelling :: items) stop :: trees := by
  have shape : (versionSexp sp q).tokens ++ more = .opening ::
      .atom DeclKeyword.version.spelling :: .quoted (sp.body q) :: .closing :: more := rfl
  rw [shape] at writable ⊢
  simp only [List.forall_mem_cons] at writable
  obtain ⟨opens, keyword, quoted, closes, _⟩ := writable
  rw [forest, lexemes, scanFrom_write_cons opens, scanFrom_write_cons keyword,
    scanFrom_write_cons quoted, scanFrom_write_cons closes]
  obtain ⟨trees, whole⟩ := settled_group []
    [.list 0 [.atom 1 DeclKeyword.version.spelling, .quoted _ (sp.body q)] (some _)] _
  exact ⟨_, _, trees, whole.symm⟩

theorem not_detached (spaced : Bool) : detached (w.text spaced) = false := by
  cases versioned : w.version with
  | some q =>
    have first : w.sexps = versionSexp sp q.1 :: w.declarations.map (Declaration.sexp sp) := by
      rw [sexps, versioned]
      rfl
    have writable := w.writable
    rw [first, Sexp.tokensAll] at writable
    obtain ⟨items, stop, trees, found⟩ := forest_version spaced writable
    rw [detached, Forest.detached, text, first, Sexp.tokensAll, found]
    exact Bool.and_false _
  | none =>
    -- No offset matters here: the first word of the text is not that of a version.
    by_contra apart
    obtain ⟨rest, stop, more, found⟩ :=
      Forest.detached_unplaced (Bool.eq_true_of_not_eq_false apart)
    rw [forest_unplaced, w.tokens_text, grouped_tokensAll, sexps, versioned] at found
    cases declared : w.declarations with
    | nil => simp [declared, Sexp.trees] at found
    | cons d ds =>
      obtain ⟨k, other, items, headed⟩ := d.headed sp
      simp only [declared, List.map_cons, Option.map_none, Option.toList_none, List.nil_append,
        Sexp.trees, headed, Sexp.tree_headed, List.cons.injEq, Tree.list.injEq, Tree.atom.injEq,
        true_and] at found
      exact other (DeclKeyword.spelling_inj found.1.1.1)

end Written

end Codegen.Source
